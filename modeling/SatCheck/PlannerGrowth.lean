import SatCheck.Planner
/-!
# What a planner operation does

`Grows` says once what every register operation does: values, table entries and
changes are only added, and a value that other records depend on comes with a
change.
-/

namespace SatCheck

/-- The index of the change that announces a new value of slot `index`; `none` when
nothing depends on the slot. -/
def RecordInfo.announceIndex (info : RecordInfo) (index : Nat) : Option Nat :=
  match info.event, index with
  | .load, vcAddrIndex => some vcAddrIndex
  | .load, vcRfIndex => some vcValoutIndex
  | .store, vcAddrIndex => some vcAddrIndex
  | .store, vcBaseIndex => some vcBaseIndex
  | .rmw, vcAddrIndex => some vcAddrIndex
  | .rmw, vcRfIndex => some vcValoutIndex
  | .rmw, vcRmwoutIndex => some vcRmwoutIndex
  | .function, vcFuncoutIndex => if info.phi then none else some vcFuncoutIndex
  | .function, vcBaseIndex => if info.phi then some vcFuncoutIndex else none
  | .equals, vcFuncoutIndex => some vcFuncoutIndex
  | _, _ => none

def RecordInfo.isLoad (info : RecordInfo) : Prop := info.event = .load ∨ info.event = .rmw

def RecordInfo.isStore (info : RecordInfo) : Prop := info.event = .store ∨ info.event = .rmw

instance (info : RecordInfo) : Decidable info.isLoad := inferInstanceAs (Decidable (_ ∨ _))

def RecordInfo.isFunction (info : RecordInfo) : Prop :=
  info.event = .function ∧ info.phi = false

theorem RecordInfo.announceIndex_injective (info : RecordInfo) {i j idx : Nat}
    (hi : info.announceIndex i = some idx) (hj : info.announceIndex j = some idx) : i = j := by
  unfold announceIndex at hi hj
  split at hi <;> split at hj <;>
    simp_all [vcAddrIndex, vcValoutIndex, vcRmwoutIndex, eq_comm (b := idx)]

theorem RecordInfo.announceIndex_storeIndex {info : RecordInfo} (h : info.isStore) :
    info.announceIndex info.storeIndex = some info.storeIndex := by
  rcases h with h | h <;> simp [announceIndex, storeIndex, h]

theorem RecordInfo.announceIndex_addr {info : RecordInfo} (h : info.event = .load ∨ info.isStore) :
    info.announceIndex vcAddrIndex = some vcAddrIndex := by
  rcases h with h | h | h <;> simp [announceIndex, h]

theorem RecordInfo.announceIndex_function {info : RecordInfo} (hevent : info.event = .function) :
    (info.phi = true →
      info.announceIndex vcBaseIndex = some vcFuncoutIndex) ∧
    (info.phi = false →
      info.announceIndex vcFuncoutIndex = some vcFuncoutIndex ∧
      ∀ index, vcBaseIndex ≤ index → info.announceIndex index = none) := by
  refine ⟨fun hphi => by simp [announceIndex, hevent, hphi],
    fun hphi => ⟨by simp [announceIndex, hevent, hphi], fun index hindex => ?_⟩⟩
  unfold announceIndex
  rw [hevent]
  split <;> simp_all [vcBaseIndex]

def RecordInfo.InputIndex (info : RecordInfo) (index : Nat) : Prop :=
  match info.event with
  | .rmw => index < vcRmwoutIndex
  | .function => vcBaseIndex ≤ index ∧ (info.phi = true → index = vcBaseIndex)
  | .equals => vcBaseIndex ≤ index
  | _ => True

theorem RecordInfo.inputIndex_rf {info : RecordInfo} (h : info.isLoad) :
    info.InputIndex vcRfIndex := by
  rcases h with h | h
  · simp [InputIndex, h]
  · simp only [InputIndex, h]
    decide

namespace PlannerState

variable {R : Type} {info : R → RecordInfo} {s s' s'' : PlannerState R}

/-- What an operation of the planner does to the state. -/
structure Grows (info : R → RecordInfo) (s s' : PlannerState R) : Prop where
  sets : ∀ r i, ∀ v ∈ s.sets r i, v ∈ s'.sets r i
  loadtable : ∀ a, ∀ r ∈ s.loadtable a, r ∈ s'.loadtable a
  storetable : ∀ a, ∀ r ∈ s.storetable a, r ∈ s'.storetable a
  changeset : ∀ c ∈ s.changeset, c ∈ s'.changeset
  completedset : s'.completedset = s.completedset
  eprecorddep : s'.eprecorddep = s.eprecorddep
  announced : ∀ r i idx, (info r).announceIndex i = some idx → ∀ v ∈ s'.sets r i,
    v ∈ s.sets r i ∨ ⟨r, v, idx⟩ ∈ s'.changeset
  backed : ∀ c ∈ s'.changeset, c ∈ s.changeset ∨
    ∃ i, (info c.record).announceIndex i = some c.index ∧ c.value ∈ s'.sets c.record i
  loads : ∀ r, (info r).isLoad → ∀ a ∈ s'.sets r vcAddrIndex,
    a ∈ s.sets r vcAddrIndex ∨ r ∈ s'.loadtable a
  stores : ∀ r, (info r).isStore → ∀ a ∈ s'.sets r vcAddrIndex,
    a ∈ s.sets r vcAddrIndex ∨ r ∈ s'.storetable a
  loadEntries : ∀ a, ∀ r ∈ s'.loadtable a, r ∈ s.loadtable a ∨ (info r).isLoad
  functions : ∀ id, ∀ r ∈ s'.sharedfuncrecords id,
    r ∈ s.sharedfuncrecords id ∨ (info r).isFunction

namespace Grows

variable (info) in
theorem refl (s : PlannerState R) : Grows info s s where
  sets _ _ _ h := h
  loadtable _ _ h := h
  storetable _ _ h := h
  changeset _ h := h
  completedset := rfl
  eprecorddep := rfl
  announced _ _ _ _ _ h := .inl h
  backed _ h := .inl h
  loads _ _ _ h := .inl h
  stores _ _ _ h := .inl h
  loadEntries _ _ h := .inl h
  functions _ _ h := .inl h

theorem trans (h : Grows info s s') (h' : Grows info s' s'') : Grows info s s'' where
  sets r i v hv := h'.sets r i v (h.sets r i v hv)
  loadtable a r hr := h'.loadtable a r (h.loadtable a r hr)
  storetable a r hr := h'.storetable a r (h.storetable a r hr)
  changeset c hc := h'.changeset c (h.changeset c hc)
  completedset := h'.completedset.trans h.completedset
  eprecorddep := h'.eprecorddep.trans h.eprecorddep
  announced r i idx hidx v hv := by
    rcases h'.announced r i idx hidx v hv with hv | hc
    · exact (h.announced r i idx hidx v hv).imp_right (h'.changeset _)
    · exact .inr hc
  backed c hc := by
    rcases h'.backed c hc with hc | hc
    · rcases h.backed c hc with hc | ⟨i, hi, hv⟩
      · exact .inl hc
      · exact .inr ⟨i, hi, h'.sets _ _ _ hv⟩
    · exact .inr hc
  loads r hr a ha := by
    rcases h'.loads r hr a ha with ha | ht
    · exact (h.loads r hr a ha).imp_right (h'.loadtable a r)
    · exact .inr ht
  stores r hr a ha := by
    rcases h'.stores r hr a ha with ha | ht
    · exact (h.stores r hr a ha).imp_right (h'.storetable a r)
    · exact .inr ht
  loadEntries a r hr := by
    rcases h'.loadEntries a r hr with hr | hr
    · exact h.loadEntries a r hr
    · exact .inr hr
  functions id r hr := by
    rcases h'.functions id r hr with hr | hr
    · exact h.functions id r hr
    · exact .inr hr

theorem foldl {α : Type*} {f : PlannerState R → α → PlannerState R} {l : List α}
    (hf : ∀ s', Grows info s s' → ∀ x ∈ l, Grows info s' (f s' x)) :
    Grows info s (l.foldl f s) := by
  induction l generalizing s with
  | nil => exact refl info s
  | cons x l ih =>
    have hx := hf s (refl info s) x (by simp)
    exact hx.trans (ih fun s' hs' y hy => hf s' (hx.trans hs') y (List.mem_cons_of_mem x hy))

variable (info) in
/-- A value of a loop iteration is still there at the end of the loop. -/
theorem foldl_mem {α : Type*} {f : PlannerState R → α → PlannerState R} {l : List α}
    (hf : ∀ s', Grows info s s' → ∀ x ∈ l, Grows info s' (f s' x)) {x : α} (hx : x ∈ l)
    {r : R} {i : Nat} {v : UInt64}
    (hv : ∀ s', Grows info s s' → v ∈ (f s' x).sets r i) :
    v ∈ (l.foldl f s).sets r i := by
  induction l generalizing s with
  | nil => cases hx
  | cons y l ih =>
    have hy := hf s (refl info s) y (by simp)
    have hl : ∀ s', Grows info (f s y) s' → ∀ z ∈ l, Grows info s' (f s' z) :=
      fun s' hs' z hz => hf s' (hy.trans hs') z (List.mem_cons_of_mem y hz)
    rcases List.mem_cons.mp hx with rfl | hmem
    · exact (foldl hl).sets r i v (hv s (refl info s))
    · exact ih hl hmem fun s' hs' => hv s' (hy.trans hs')

end Grows

variable [DecidableEq R]

theorem mem_sets_addValue {record r : R} {index i : Nat} {val v : UInt64} :
    v ∈ (s.addValue record index val).sets r i ↔
      v ∈ s.sets r i ∨ r = record ∧ i = index ∧ v = val := by
  simp only [addValue]
  split_ifs with h
  · simp [h]
  · simp only [iff_self_or]
    rintro ⟨hr, hi, -⟩
    exact absurd ⟨hr, hi⟩ h

theorem addValue_of_mem {record : R} {index : Nat} {val : UInt64}
    (h : val ∈ s.sets record index) : s.addValue record index val = s := by
  have hsets : (s.addValue record index val).sets = s.sets := by
    funext r i
    simp only [addValue]
    split_ifs with hri
    · rw [hri.1, hri.2, HashSet.add_of_mem h]
    · rfl
  calc s.addValue record index val
      = { s with sets := (s.addValue record index val).sets } := rfl
    _ = s := by rw [hsets]

theorem mem_sets_recordNewValue {record r : R} {index i : Nat} {val v : UInt64} :
    v ∈ (s.recordNewValue record index val).sets r i ↔
      v ∈ s.sets r i ∨ r = record ∧ i = index ∧ v = val := by
  unfold recordNewValue
  split_ifs with h
  · simp only [iff_self_or]
    rintro ⟨rfl, rfl, rfl⟩
    exact h
  · exact mem_sets_addValue

theorem mem_loadtable_addLoadTable {addr a : UInt64} {record r : R} :
    r ∈ (s.addLoadTable addr record).loadtable a ↔
      r ∈ s.loadtable a ∨ a = addr ∧ r = record := by
  simp only [addLoadTable]
  split_ifs with h <;> simp [h]

theorem mem_storetable_addStoreTable {addr a : UInt64} {record r : R} :
    r ∈ (s.addStoreTable addr record).storetable a ↔
      r ∈ s.storetable a ∨ a = addr ∧ r = record := by
  simp only [addStoreTable]
  split_ifs with h <;> simp [h]

theorem mem_changeset_addChange {change c : MCChange R} :
    c ∈ (s.addChange change).changeset ↔ c ∈ s.changeset ∨ c = change := by
  simp [addChange]

theorem mem_eprecorddep_addRecordDepTable {record deprecord r d : R} {index i : Nat} :
    (d, i) ∈ (s.addRecordDepTable record deprecord index).eprecorddep r ↔
      (d, i) ∈ s.eprecorddep r ∨ r = record ∧ d = deprecord ∧ i = index := by
  simp only [addRecordDepTable]
  split_ifs with h <;> simp [h]

/-! ## The primitive operations -/

theorem grows_addChange {record : R} {i idx : Nat} {val : UInt64}
    (hidx : (info record).announceIndex i = some idx) (hval : val ∈ s.sets record i) :
    Grows info s (s.addChange ⟨record, val, idx⟩) where
  __ := Grows.refl info s
  changeset _ hc := mem_changeset_addChange.mpr (.inl hc)
  announced _ _ _ _ _ hv := .inl hv
  backed c hc := by
    rcases mem_changeset_addChange.mp hc with hc | rfl
    · exact .inl hc
    · exact .inr ⟨i, hidx, hval⟩

theorem grows_addValue {record : R} {index : Nat} (val : UInt64)
    (hidx : (info record).announceIndex index = none) :
    Grows info s (s.addValue record index val) where
  __ := Grows.refl info s
  sets _ _ _ hv := mem_sets_addValue.mpr (.inl hv)
  announced r i idx hr v hv := by
    rcases mem_sets_addValue.mp hv with hv | ⟨rfl, rfl, -⟩
    · exact .inl hv
    · rw [hidx] at hr
      cases hr
  backed _ hc := .inl hc
  loads r hr _ ha := by
    rcases mem_sets_addValue.mp ha with ha | ⟨rfl, rfl, -⟩
    · exact .inl ha
    · rcases hr with hr | hr <;> simp [RecordInfo.announceIndex, hr] at hidx
  stores r hr _ ha := by
    rcases mem_sets_addValue.mp ha with ha | ⟨rfl, rfl, -⟩
    · exact .inl ha
    · rcases hr with hr | hr <;> simp [RecordInfo.announceIndex, hr] at hidx

theorem grows_addLoadTable (addr : UInt64) {record : R} (hload : (info record).isLoad) :
    Grows info s (s.addLoadTable addr record) where
  __ := Grows.refl info s
  loadtable _ _ hr := mem_loadtable_addLoadTable.mpr (.inl hr)
  loadEntries a r hr := by
    rcases mem_loadtable_addLoadTable.mp hr with hr | ⟨-, rfl⟩
    · exact .inl hr
    · exact .inr hload
  announced _ _ _ _ _ hv := .inl hv
  backed _ hc := .inl hc
  loads _ _ _ ha := .inl ha
  stores _ _ _ ha := .inl ha

theorem grows_addStoreTable (addr : UInt64) (record : R) :
    Grows info s (s.addStoreTable addr record) where
  __ := Grows.refl info s
  storetable _ _ hr := mem_storetable_addStoreTable.mpr (.inl hr)
  announced _ _ _ _ _ hv := .inl hv
  backed _ hc := .inl hc
  loads _ _ _ ha := .inl ha
  stores _ _ _ ha := .inl ha

/-- A new value with its change; for an address the tables already have the record. -/
theorem grows_announce {record : R} {index idx : Nat} {val : UInt64}
    (hidx : (info record).announceIndex index = some idx)
    (hload : index = vcAddrIndex → (info record).isLoad → record ∈ s.loadtable val)
    (hstore : index = vcAddrIndex → (info record).isStore → record ∈ s.storetable val) :
    Grows info s ((s.addValue record index val).addChange ⟨record, val, idx⟩) where
  __ := Grows.refl info s
  sets _ _ _ hv := mem_sets_addValue.mpr (.inl hv)
  changeset _ hc := mem_changeset_addChange.mpr (.inl hc)
  announced r i idx' hr v hv := by
    rcases mem_sets_addValue.mp hv with hv | ⟨rfl, rfl, rfl⟩
    · exact .inl hv
    · rw [hidx, Option.some.injEq] at hr
      exact .inr (mem_changeset_addChange.mpr (.inr (by rw [hr])))
  backed c hc := by
    rcases mem_changeset_addChange.mp hc with hc | rfl
    · exact .inl hc
    · exact .inr ⟨index, hidx, mem_sets_addValue.mpr (.inr ⟨rfl, rfl, rfl⟩)⟩
  loads r hr a ha := by
    rcases mem_sets_addValue.mp ha with ha | ⟨rfl, rfl, rfl⟩
    · exact .inl ha
    · exact .inr (hload rfl hr)
  stores r hr a ha := by
    rcases mem_sets_addValue.mp ha with ha | ⟨rfl, rfl, rfl⟩
    · exact .inl ha
    · exact .inr (hstore rfl hr)

theorem grows_announceValue {record : R} {index idx : Nat} {val : UInt64}
    (hidx : (info record).announceIndex index = some idx) (hvalue : index ≠ vcAddrIndex) :
    Grows info s ((s.addValue record index val).addChange ⟨record, val, idx⟩) :=
  grows_announce hidx (fun h => absurd h hvalue) (fun h => absurd h hvalue)

/-! ## Register operations -/

theorem grows_recordNewValue {record : R} {index : Nat} {val : UInt64}
    (hidx : (info record).announceIndex index = some index)
    (hload : index = vcAddrIndex → (info record).isLoad → record ∈ s.loadtable val)
    (hstore : index = vcAddrIndex → (info record).isStore → record ∈ s.storetable val) :
    Grows info s (s.recordNewValue record index val) := by
  unfold recordNewValue
  split_ifs
  · exact Grows.refl info s
  · exact grows_announce hidx hload hstore

theorem grows_recordFunctionChange {function : R} (val : UInt64)
    (hidx : (info function).announceIndex vcFuncoutIndex = some vcFuncoutIndex) :
    Grows info s (s.recordFunctionChange function val) :=
  grows_recordNewValue hidx (fun h => absurd h (by decide)) (fun h => absurd h (by decide))

theorem grows_evalGoal {record : R} (goal : CGoal)
    (hidx : (info record).announceIndex vcFuncoutIndex = some vcFuncoutIndex) :
    Grows info s (s.evalGoal record goal) := by
  unfold evalGoal
  split
  · exact grows_recordFunctionChange _ hidx
  · exact Grows.refl info s

theorem grows_registerLoadValue {record : R} (val : UInt64) (index : Nat)
    (hevent : (info record).event = .load) :
    Grows info s (s.registerLoadValue info record val index) := by
  unfold registerLoadValue
  simp only
  split_ifs
  · exact Grows.refl info s
  · split
    · refine (grows_addLoadTable _ (.inl hevent)).trans (grows_announce ?_ ?_ ?_)
      · simp [RecordInfo.announceIndex, hevent]
      · intro _ _
        exact mem_loadtable_addLoadTable.mpr (.inr ⟨rfl, rfl⟩)
      · intro _ hstore
        rcases hstore with h | h <;> simp [hevent] at h
    · exact grows_announceValue (by simp [RecordInfo.announceIndex, hevent]) (by decide)
    · refine grows_addValue _ ?_
      simp_all [RecordInfo.announceIndex]

theorem grows_doRMWRFChange {record : R} (val : UInt64)
    (hevent : (info record).event = .rmw) (hval : val ∈ s.sets record vcRfIndex) :
    Grows info s (s.doRMWRFChange info record val) := by
  have hread : Grows info s (s.addChange ⟨record, val, vcValoutIndex⟩) :=
    grows_addChange (i := vcRfIndex) (by simp [RecordInfo.announceIndex, hevent]) hval
  unfold doRMWRFChange
  simp only
  split_ifs
  · exact hread
  · refine hread.trans ?_
    have hidx := @RecordInfo.announceIndex_storeIndex (info record) (.inr hevent)
    have hstore : (info record).storeIndex = vcRmwoutIndex := by
      simp [RecordInfo.storeIndex, hevent]
    rw [hstore] at hidx ⊢
    exact grows_announceValue hidx (by decide)
  · exact hread

theorem grows_doRMWBaseChange {record : R} (val : UInt64)
    (hevent : (info record).event = .rmw) :
    Grows info s (s.doRMWBaseChange info record val) := by
  have hidx := @RecordInfo.announceIndex_storeIndex (info record) (.inr hevent)
  have hstore : (info record).storeIndex = vcRmwoutIndex := by
    simp [RecordInfo.storeIndex, hevent]
  unfold doRMWBaseChange
  rw [hstore] at hidx ⊢
  split_ifs
  · exact Grows.refl info s
  · exact grows_announceValue hidx (by decide)
  · exact Grows.refl info s

theorem grows_addValue_doRMWRFChange {record : R} (val : UInt64)
    (hevent : (info record).event = .rmw) :
    Grows info s ((s.addValue record vcRfIndex val).doRMWRFChange info record val) := by
  have hread : Grows info s
      ((s.addValue record vcRfIndex val).addChange ⟨record, val, vcValoutIndex⟩) :=
    grows_announceValue (by simp [RecordInfo.announceIndex, hevent]) (by decide)
  have hidx := @RecordInfo.announceIndex_storeIndex (info record) (.inr hevent)
  have hstore : (info record).storeIndex = vcRmwoutIndex := by
    simp [RecordInfo.storeIndex, hevent]
  unfold doRMWRFChange
  rw [hstore] at hidx ⊢
  simp only
  split_ifs
  · exact hread
  · exact hread.trans (grows_announceValue hidx (by decide))
  · exact hread

theorem grows_registerRMWRead {record : R} (val : UInt64)
    (hevent : (info record).event = .rmw) :
    Grows info s (s.registerRMWRead info record val) := by
  unfold registerRMWRead
  split_ifs
  · exact Grows.refl info s
  · exact grows_addValue_doRMWRFChange val hevent

private theorem grows_newAddress {record : R} (val : UInt64) (hevent : (info record).event = .rmw) :
    Grows info s ((((s.addValue record vcAddrIndex val).addLoadTable val record).addStoreTable
      val record).addChange ⟨record, val, vcAddrIndex⟩) := by
  have htables : Grows info s ((s.addLoadTable val record).addStoreTable val record) :=
    (grows_addLoadTable val (.inr hevent)).trans (grows_addStoreTable val record)
  refine htables.trans (grows_announce (by simp [RecordInfo.announceIndex, hevent]) ?_ ?_)
  · intro _ _
    exact mem_loadtable_addLoadTable.mpr (.inr ⟨rfl, rfl⟩)
  · intro _ _
    exact mem_storetable_addStoreTable.mpr (.inr ⟨rfl, rfl⟩)

theorem grows_newAddressLoop {record : R} (stores : List R)
    (hevent : (info record).event = .rmw) :
    Grows info s (stores.foldl (fun s store =>
      if compatibleStoreLoad store record then
        (s.getStoreSet info store).foldl (fun s stval => s.registerRMWRead info record stval) s
      else s) s) := by
  refine Grows.foldl fun s _ store _ => ?_
  split_ifs
  · exact Grows.foldl fun s _ stval _ => grows_registerRMWRead stval hevent
  · exact Grows.refl info s

private theorem grows_addValue_doRMWNewAddrChange {record : R} (val : UInt64)
    (hevent : (info record).event = .rmw) :
    Grows info s ((s.addValue record vcAddrIndex val).doRMWNewAddrChange info record val) :=
  (grows_newAddress val hevent).trans (grows_newAddressLoop _ hevent)

theorem grows_registerRMWValue {record : R} (val : UInt64) {index : Nat}
    (hevent : (info record).event = .rmw) (hindex : index < vcRmwoutIndex) :
    Grows info s (s.registerRMWValue info record val index) := by
  unfold registerRMWValue
  simp only
  split_ifs
  · exact Grows.refl info s
  · split
    · exact grows_addValue_doRMWNewAddrChange _ hevent
    · exact grows_addValue_doRMWRFChange _ hevent
    · refine (grows_addValue _ ?_).trans (grows_doRMWBaseChange _ hevent)
      simp [RecordInfo.announceIndex, hevent]
    · refine grows_addValue _ ?_
      unfold RecordInfo.announceIndex
      rw [hevent]
      split <;> simp_all [vcRmwoutIndex]

theorem grows_registerStoreValue {record : R} (val : UInt64) (index : Nat)
    (hevent : (info record).event = .store) :
    Grows info s (s.registerStoreValue info record val index) := by
  unfold registerStoreValue
  simp only
  by_cases hmem : shiftAddress info record val index ∈ s.sets record index
  · -- not new: only the change is added, and its value is known
    rw [addValue_of_mem hmem]
    split
    · rw [if_neg (not_not_intro hmem)]
      exact grows_addChange (by simp [RecordInfo.announceIndex, hevent]) hmem
    · exact grows_addChange (by simp [RecordInfo.announceIndex, hevent]) hmem
    · exact Grows.refl info s
  · split
    · rw [if_pos hmem]
      refine (grows_addStoreTable _ record).trans (grows_announce ?_ ?_ ?_)
      · simp [RecordInfo.announceIndex, hevent]
      · intro _ hload
        rcases hload with h | h <;> simp [hevent] at h
      · intro _ _
        exact mem_storetable_addStoreTable.mpr (.inr ⟨rfl, rfl⟩)
    · exact grows_announceValue (by simp [RecordInfo.announceIndex, hevent]) (by decide)
    · refine grows_addValue _ ?_
      simp_all [RecordInfo.announceIndex]

private theorem grows_registerFunctionValue {record : R} (val : UInt64) {index : Nat}
    (hevent : (info record).event = .function) (hindex : vcBaseIndex ≤ index)
    (hphi : (info record).phi = true → index = vcBaseIndex) :
    Grows info s (s.registerFunctionValue info record val index) := by
  obtain ⟨hannounce, hplain⟩ := RecordInfo.announceIndex_function hevent
  unfold registerFunctionValue
  simp only
  by_cases hp : (info record).phi = true
  · obtain rfl := hphi hp
    rw [if_pos hp]
    exact grows_announceValue (hannounce hp) (by decide)
  · have hp' : (info record).phi = false := by simpa using hp
    have hvalue := grows_addValue (s := s) val ((hplain hp').2 index hindex)
    rw [if_neg hp]
    split_ifs
    · refine hvalue.trans (Grows.foldl fun s _ goal _ => ?_)
      split_ifs
      · exact grows_evalGoal goal (hplain hp').1
      · exact Grows.refl info s
    · exact hvalue

theorem grows_registerValue {record : R} (val : UInt64) {index : Nat}
    (hindex : (info record).InputIndex index) :
    Grows info s (s.registerValue info record val index) := by
  unfold registerValue
  unfold RecordInfo.InputIndex at hindex
  split
  next hevent => exact grows_registerLoadValue val index hevent
  next hevent =>
    rw [hevent] at hindex
    exact grows_registerRMWValue val hevent hindex
  next hevent => exact grows_registerStoreValue val index hevent
  next hevent =>
    rw [hevent] at hindex
    exact grows_registerFunctionValue val hevent hindex.1 hindex.2
  next hevent =>
    rw [hevent] at hindex
    refine grows_addValue val ?_
    unfold RecordInfo.announceIndex
    rw [hevent]
    split <;> simp_all [vcBaseIndex]
  next hevent =>
    refine grows_addValue val ?_
    simp [RecordInfo.announceIndex, hevent]
  next => exact Grows.refl info s

/-! ## The registered value is there -/

theorem mem_addValue (s : PlannerState R) (record : R) (index : Nat) (val : UInt64) :
    val ∈ (s.addValue record index val).sets record index :=
  mem_sets_addValue.mpr (.inr ⟨rfl, rfl, rfl⟩)

theorem mem_registerLoadValue (record : R) (val : UInt64) (index : Nat) :
    shiftAddress info record val index ∈
      (s.registerLoadValue info record val index).sets record index := by
  unfold registerLoadValue
  simp only
  split_ifs with hmem
  · exact hmem
  · split <;> exact mem_addValue s record _ _

theorem mem_registerRMWValue {record : R} (val : UInt64) (index : Nat)
    (hevent : (info record).event = .rmw) :
    shiftAddress info record val index ∈
      (s.registerRMWValue info record val index).sets record index := by
  unfold registerRMWValue
  simp only
  split_ifs with hmem
  · exact hmem
  · have hval := mem_addValue s record index (shiftAddress info record val index)
    split
    · exact (grows_newAddressLoop _ hevent).sets _ _ _ hval
    · exact (grows_doRMWRFChange _ hevent hval).sets _ _ _ hval
    · exact (grows_doRMWBaseChange _ hevent).sets _ _ _ hval
    · exact hval

private theorem mem_registerStoreValue (record : R) (val : UInt64) (index : Nat) :
    shiftAddress info record val index ∈
      (s.registerStoreValue info record val index).sets record index := by
  unfold registerStoreValue
  simp only
  split
  · split_ifs <;> exact mem_addValue s record _ _
  · exact mem_addValue s record _ _
  · exact mem_addValue s record _ _

private theorem mem_registerFunctionValue {record : R} (val : UInt64) (index : Nat)
    (hevent : (info record).event = .function) :
    val ∈ (s.registerFunctionValue info record val index).sets record index := by
  have hval := mem_addValue s record index val
  unfold registerFunctionValue
  simp only
  split_ifs with hphi
  · exact hval
  · have hplain := (RecordInfo.announceIndex_function hevent).2 (by simpa using hphi)
    have hgoals : ∀ s' : PlannerState R, ∀ goal : CGoal, Grows info s'
        (if goal.getValue index = val then s'.evalGoal record goal else s') := by
      intro s' goal
      split_ifs
      · exact grows_evalGoal goal hplain.1
      · exact Grows.refl info s'
    exact (Grows.foldl fun s' _ goal _ => hgoals s' goal).sets _ _ _ hval
  · exact hval

omit [DecidableEq R] in
theorem shiftAddress_of_ne {record : R} {val : UInt64} {index : Nat}
    (h : index ≠ vcAddrIndex) : shiftAddress info record val index = val := if_neg h

def HasInputs (info : RecordInfo) : Prop :=
  info.event = .load ∨ info.event = .store ∨ info.event = .rmw ∨ info.event = .function ∨
    info.event = .equals

theorem mem_registerValue {record : R} (val : UInt64) {index : Nat}
    (hinputs : HasInputs (info record)) (hindex : (info record).InputIndex index) :
    shiftAddress info record val index ∈
      (s.registerValue info record val index).sets record index := by
  unfold registerValue
  unfold RecordInfo.InputIndex at hindex
  rcases hinputs with hevent | hevent | hevent | hevent | hevent <;> simp only [hevent] at hindex ⊢
  · exact mem_registerLoadValue record val index
  · exact mem_registerStoreValue record val index
  · exact mem_registerRMWValue val index hevent
  · have hne : index ≠ vcAddrIndex := fun h => by simp [h] at hindex
    rw [shiftAddress_of_ne hne]
    exact mem_registerFunctionValue val index hevent
  · have hne : index ≠ vcAddrIndex := fun h => by simp [h] at hindex
    rw [shiftAddress_of_ne hne]
    exact mem_addValue s record index val

end PlannerState

end SatCheck
