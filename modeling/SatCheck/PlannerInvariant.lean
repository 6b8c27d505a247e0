import SatCheck.PlannerCalls
import SatCheck.PlannerGrowth
import SatCheck.Library.Saturation
/-!
# Reachable planner states

`Consistent` holds between any two operations.  Processing one change keeps the
known values closed up to the pending changes, for any rules whose instances with
the processed value are applied.
-/

namespace SatCheck

namespace PlannerState

open Saturation

variable {R : Type} [DecidableEq R] {info : R → RecordInfo} {s s' s'' : PlannerState R}

structure Consistent (info : R → RecordInfo) (s : PlannerState R) : Prop where
  backed : ∀ c, c ∈ s.changeset ∨ c ∈ s.completedset →
    ∃ i, (info c.record).announceIndex i = some c.index ∧ c.value ∈ s.sets c.record i
  loads : ∀ r, (info r).isLoad → ∀ a ∈ s.sets r vcAddrIndex, r ∈ s.loadtable a
  stores : ∀ r, (info r).isStore → ∀ a ∈ s.sets r vcAddrIndex, r ∈ s.storetable a
  loadEntries : ∀ a, ∀ r ∈ s.loadtable a, (info r).isLoad
  functions : ∀ id, ∀ r ∈ s.sharedfuncrecords id, (info r).isFunction
  dependences : ∀ r, ∀ dep ∈ s.eprecorddep r, (info dep.1).InputIndex dep.2

omit [DecidableEq R] in
theorem Consistent.grows (h : Consistent info s) (hg : Grows info s s') :
    Consistent info s' where
  backed c hc := by
    have hold : c ∈ s.changeset ∨ c ∈ s.completedset →
        ∃ i, (info c.record).announceIndex i = some c.index ∧ c.value ∈ s'.sets c.record i := by
      intro hc
      obtain ⟨i, hi, hv⟩ := h.backed c hc
      exact ⟨i, hi, hg.sets _ _ _ hv⟩
    rcases hc with hc | hc
    · rcases hg.backed c hc with hc | hc
      · exact hold (.inl hc)
      · exact hc
    · rw [hg.completedset] at hc
      exact hold (.inr hc)
  loads r hr a ha := by
    rcases hg.loads r hr a ha with ha | ht
    · exact hg.loadtable a r (h.loads r hr a ha)
    · exact ht
  stores r hr a ha := by
    rcases hg.stores r hr a ha with ha | ht
    · exact hg.storetable a r (h.stores r hr a ha)
    · exact ht
  loadEntries a r hr := (hg.loadEntries a r hr).elim (h.loadEntries a r) id
  functions id r hr := (hg.functions id r hr).elim (h.functions id r) fun hr => hr
  dependences r dep hdep := by
    rw [hg.eprecorddep] at hdep
    exact h.dependences r dep hdep

omit [DecidableEq R] in
theorem consistent_empty : Consistent info (empty : PlannerState R) := by
  constructor <;> simp [empty]

/-! ## Facts -/

structure Fact (R : Type) where
  record : R
  index : Nat
  value : UInt64

def known (s : PlannerState R) : Set (Fact R) :=
  { f | f.value ∈ s.sets f.record f.index }

def watched (info : R → RecordInfo) : Set (Fact R) :=
  { f | ∃ idx, (info f.record).announceIndex f.index = some idx }

def pending (info : R → RecordInfo) (s : PlannerState R) : Set (Fact R) :=
  { f | ∃ idx, (info f.record).announceIndex f.index = some idx ∧
    ⟨f.record, f.value, idx⟩ ∈ s.changeset ∧ ⟨f.record, f.value, idx⟩ ∉ s.completedset }

omit [DecidableEq R] in
theorem Consistent.mem_of_change (h : Consistent info s) {r : R} {i idx : Nat} {v : UInt64}
    (hidx : (info r).announceIndex i = some idx)
    (hc : ⟨r, v, idx⟩ ∈ s.changeset ∨ ⟨r, v, idx⟩ ∈ s.completedset) : v ∈ s.sets r i := by
  obtain ⟨j, hj, hv⟩ := h.backed _ hc
  rwa [RecordInfo.announceIndex_injective _ hidx hj]

omit [DecidableEq R] in
theorem Consistent.extends (h : Consistent info s) (hg : Grows info s s') :
    Extends (watched info) s.known (s.pending info) s'.known (s'.pending info) where
  knownMono f hf := hg.sets _ _ _ hf
  pendingMono := by
    rintro f ⟨idx, hidx, hc, hnot⟩
    exact ⟨idx, hidx, hg.changeset _ hc, by rwa [hg.completedset]⟩
  announced := by
    rintro f ⟨idx, hidx⟩ hf
    rcases hg.announced _ _ idx hidx _ hf with hold | hc
    · exact .inl hold
    · by_cases hdone : ⟨f.record, f.value, idx⟩ ∈ s'.completedset
      · rw [hg.completedset] at hdone
        exact .inl (h.mem_of_change hidx (.inr hdone))
      · exact .inr ⟨idx, hidx, hc, hdone⟩

/-! ## What processing a change achieves -/

section Process

variable {c : MCChange R}

theorem Consistent.grows_registerRead (h : Consistent info s) (hg : Grows info s s') {a : UInt64}
    {load : R} (hload : load ∈ s'.loadtable a) (val : UInt64) :
    Grows info s' (s'.registerValue info load val vcRfIndex) :=
  grows_registerValue val (RecordInfo.inputIndex_rf ((h.grows hg).loadEntries a load hload))

private theorem grows_processNewReturnValue (h : Consistent info s) :
    Grows info s (s.processNewReturnValue info c) :=
  Grows.foldl fun _ _ dep hdep => grows_registerValue _ (h.dependences _ dep hdep)

private theorem grows_processNewLoadAddress (hload : (info c.record).isLoad) :
    Grows info s (s.processNewLoadAddress info c) := by
  refine Grows.foldl fun s' _ store _ => ?_
  split_ifs
  · exact Grows.foldl fun s'' _ stval _ =>
      grows_registerValue _ (RecordInfo.inputIndex_rf hload)
  · exact Grows.refl info s'

private theorem grows_processNewStoreAddress (h : Consistent info s) :
    Grows info s (s.processNewStoreAddress info c) := by
  refine Grows.foldl fun s' hs' load hload => ?_
  split_ifs
  · refine Grows.foldl fun s'' hs'' val _ => ?_
    have hg := hs'.trans hs''
    exact h.grows_registerRead hg (hg.loadtable _ _ hload) val
  · exact Grows.refl info s'

private theorem grows_processNewStoreValue (h : Consistent info s) :
    Grows info s (s.processNewStoreValue info c) := by
  refine Grows.foldl fun s' hs' addr _ => Grows.foldl fun s'' hs'' load hload => ?_
  split_ifs
  · exact h.grows_registerRead (hs'.trans hs'') (hs''.loadtable _ _ hload) c.value
  · exact Grows.refl info s''

theorem grows_processChange (h : Consistent info s) :
    Grows info s (s.processChange info c) := by
  unfold processChange processLoad processRMW processStore
  split
  · exact grows_processNewReturnValue h
  · exact grows_processNewReturnValue h
  next hevent =>
    split
    · exact grows_processNewLoadAddress (.inl hevent)
    · exact grows_processNewReturnValue h
    · exact Grows.refl info s
  · split
    · exact grows_processNewStoreAddress h
    · exact grows_processNewStoreValue h
    · exact grows_processNewReturnValue h
    · exact Grows.refl info s
  · split
    · exact grows_processNewStoreAddress h
    · exact grows_processNewStoreValue h
    · exact Grows.refl info s
  · exact Grows.refl info s

theorem mem_processNewReturnValue (h : Consistent info s) {dep : R × Nat}
    (hdep : dep ∈ s.eprecorddep c.record) (hinputs : HasInputs (info dep.1)) :
    shiftAddress info dep.1 c.value dep.2 ∈
      (s.processNewReturnValue info c).sets dep.1 dep.2 := by
  have hok := h.dependences _ dep hdep
  exact Grows.foldl_mem info (fun s' _ dep hdep => grows_registerValue _ (h.dependences _ dep hdep))
    hdep fun s' _ => mem_registerValue c.value hinputs hok

theorem mem_registerRead {load : R} (hload : (info load).isLoad) (val : UInt64) :
    val ∈ (s.registerValue info load val vcRfIndex).sets load vcRfIndex := by
  have hinputs : HasInputs (info load) := by
    rcases hload with h | h
    · exact .inl h
    · exact .inr (.inr (.inl h))
  exact mem_registerValue val hinputs (RecordInfo.inputIndex_rf hload)

theorem mem_processNewLoadAddress (hload : (info c.record).isLoad) {store : R} {v : UInt64}
    (hstore : store ∈ s.storetable c.value) (hne : store ≠ c.record)
    (hv : v ∈ s.getStoreSet info store) :
    v ∈ (s.processNewLoadAddress info c).sets c.record vcRfIndex := by
  have hinner : ∀ s'' : PlannerState R, ∀ x,
      Grows info s'' (s''.registerValue info c.record x vcRfIndex) :=
    fun s'' x => grows_registerValue x (RecordInfo.inputIndex_rf hload)
  refine Grows.foldl_mem info (fun s' _ st _ => ?_) hstore fun s' hs' => ?_
  · split_ifs
    · exact Grows.foldl fun s'' _ x _ => hinner s'' x
    · exact Grows.refl info s'
  · rw [if_pos (by simpa [compatibleStoreLoad] using hne)]
    exact Grows.foldl_mem info (fun s'' _ x _ => hinner s'' x) (hs'.sets _ _ _ hv)
      fun s'' _ => mem_registerRead hload v

theorem mem_processNewStoreAddress (h : Consistent info s) {load : R} {v : UInt64}
    (hload : load ∈ s.loadtable c.value) (hne : c.record ≠ load)
    (hv : v ∈ s.getStoreSet info c.record) :
    v ∈ (s.processNewStoreAddress info c).sets load vcRfIndex := by
  have hisLoad := h.loadEntries _ load hload
  refine Grows.foldl_mem info (fun s' hs' ld hld => ?_) hload fun s' hs' => ?_
  · split_ifs
    · refine Grows.foldl fun s'' hs'' x _ => ?_
      have hg := hs'.trans hs''
      exact h.grows_registerRead hg (hg.loadtable _ _ hld) x
    · exact Grows.refl info s'
  · rw [if_pos (by simpa [compatibleStoreLoad] using hne)]
    refine Grows.foldl_mem info (fun s'' hs'' x _ => ?_) (hs'.sets _ _ _ hv)
      fun s'' _ => mem_registerRead hisLoad v
    have hg := hs'.trans hs''
    exact h.grows_registerRead hg (hg.loadtable _ _ hload) x

theorem mem_processNewStoreValue (h : Consistent info s) {load : R} {addr : UInt64}
    (haddr : addr ∈ s.sets c.record vcAddrIndex) (hload : load ∈ s.loadtable addr)
    (hne : c.record ≠ load) :
    c.value ∈ (s.processNewStoreValue info c).sets load vcRfIndex := by
  have hisLoad := h.loadEntries _ load hload
  have hinner : ∀ s', Grows info s s' → ∀ a, ∀ s'', Grows info s' s'' → ∀ ld ∈ s'.loadtable a,
      Grows info s'' (if compatibleStoreLoad c.record ld then
        s''.registerValue info ld c.value vcRfIndex else s'') := by
    intro s' hs' a s'' hs'' ld hld
    split_ifs
    · exact h.grows_registerRead (hs'.trans hs'') (hs''.loadtable _ _ hld) c.value
    · exact Grows.refl info s''
  refine Grows.foldl_mem info (fun s' hs' a _ => Grows.foldl (hinner s' hs' a)) haddr
    fun s' hs' => ?_
  refine Grows.foldl_mem info (hinner s' hs' addr) (hs'.loadtable _ _ hload) fun s'' _ => ?_
  rw [if_pos (by simpa [compatibleStoreLoad] using hne)]
  exact mem_registerRead hisLoad c.value

theorem processChange_of_storeAddress {record : R} (hstore : (info record).isStore)
    (value : UInt64) :
    s.processChange info ⟨record, value, vcAddrIndex⟩ =
      s.processNewStoreAddress info ⟨record, value, vcAddrIndex⟩ := by
  rcases hstore with h | h
  · simp [processChange, processStore, h]
  · simp [processChange, processRMW, h]

theorem processChange_of_storeValue {record : R} (hstore : (info record).isStore)
    (value : UInt64) :
    s.processChange info ⟨record, value, (info record).storeIndex⟩ =
      s.processNewStoreValue info ⟨record, value, (info record).storeIndex⟩ := by
  rcases hstore with h | h
  · have hindex : (info record).storeIndex = vcBaseIndex := by simp [RecordInfo.storeIndex, h]
    simp [processChange, processStore, h, hindex]
  · have hindex : (info record).storeIndex = vcRmwoutIndex := by simp [RecordInfo.storeIndex, h]
    simp [processChange, processRMW, h, hindex]

theorem Consistent.erase (h : Consistent info s) (c : MCChange R) :
    Consistent info { s with changeset := s.changeset.erase c } where
  __ := h
  backed d hd := h.backed d (hd.imp_left List.mem_of_mem_erase)

theorem Consistent.processNext (h : Consistent info s) (hc : c ∈ s.changeset) :
    Consistent info (s.processNext info c) := by
  have herase := h.erase c
  unfold PlannerState.processNext
  simp only
  split_ifs
  · exact herase
  · have hgrows := grows_processChange (c := c) herase
    have hnext := herase.grows hgrows
    refine { hnext with backed := ?_ }
    rintro d (hd | hd)
    · exact hnext.backed d (.inl hd)
    · rcases HashSet.mem_add.mp hd with hd | rfl
      · exact hnext.backed d (.inr hd)
      · obtain ⟨i, hi, hv⟩ := h.backed d (.inl hc)
        exact ⟨i, hi, hgrows.sets _ _ _ hv⟩

/-- The known values stay closed up to the pending ones when the rules with the value
of the processed change are applied. -/
theorem ClosedUpTo.processNext {rules : Set (Fact R) → Fact R → Prop}
    (hwatched : Watches (watched info) rules) (h : Consistent info s) (hc : c ∈ s.changeset)
    (hclosed : ClosedUpTo rules s.known (s.pending info))
    (hfire : ∀ s₀ : PlannerState R, Consistent info s₀ → s₀.known = s.known →
      s₀.eprecorddep = s.eprecorddep → ∀ i, (info c.record).announceIndex i = some c.index →
      ∀ ps concl, rules ps concl → ⟨c.record, i, c.value⟩ ∈ ps → ps ⊆ s₀.known →
      concl ∈ (s₀.processChange info c).known) :
    ClosedUpTo rules (s.processNext info c).known ((s.processNext info c).pending info) := by
  have herase := h.erase c
  unfold PlannerState.processNext
  simp only
  set s₀ : PlannerState R := { s with changeset := s.changeset.erase c } with hs₀
  have hsame : s₀.known = s.known := rfl
  split_ifs with hdone
  · -- the change was completed before, so it was not pending
    refine hclosed.extend hwatched ⟨subset_of_eq hsame.symm, ?_, fun p _ hp => .inl hp⟩
    rintro f ⟨idx, hidx, hf, hnot⟩
    refine ⟨idx, hidx, ?_, hnot⟩
    have hne : (⟨f.record, f.value, idx⟩ : MCChange R) ≠ c := fun heq => hnot (heq ▸ hdone)
    exact (List.mem_erase_of_ne hne).mpr hf
  · have hgrows := grows_processChange (c := c) herase
    have hext := herase.extends hgrows
    obtain ⟨i, hi, hv⟩ := h.backed c (.inl hc)
    -- the fact of the change is the one that need not stay pending
    have hfact : ∀ f : Fact R, ∀ idx, (info f.record).announceIndex f.index = some idx →
        (⟨f.record, f.value, idx⟩ : MCChange R) = c → f = ⟨c.record, i, c.value⟩ := by
      intro f idx hidx heq
      subst heq
      have hindex : f.index = i := RecordInfo.announceIndex_injective _ hidx hi
      rw [← hindex]
    have hpending : ClosedUpTo rules s₀.known ({⟨c.record, i, c.value⟩} ∪
        s₀.pending info \ {⟨c.record, i, c.value⟩}) := by
      refine hclosed.extend hwatched ⟨subset_rfl, ?_, fun p _ hp => .inl hp⟩
      rintro f ⟨idx, hidx, hf, hnot⟩
      by_cases heq : (⟨f.record, f.value, idx⟩ : MCChange R) = c
      · exact .inl (hfact f idx hidx heq)
      · by_cases hfc : f = ⟨c.record, i, c.value⟩
        · exact .inl hfc
        · exact .inr ⟨⟨idx, hidx, (List.mem_erase_of_ne heq).mpr hf, hnot⟩, hfc⟩
    refine hpending.process _ hwatched ⟨hext.knownMono, ?_, ?_⟩ ?_
    · rintro f ⟨hf, hne⟩
      obtain ⟨idx, hidx, hf, hnot⟩ := hext.pendingMono hf
      refine ⟨idx, hidx, hf, fun hmem => ?_⟩
      rcases HashSet.mem_add.mp hmem with hmem | heq
      · exact hnot hmem
      · exact hne (hfact f idx hidx heq)
    · rintro f ⟨idx, hidx⟩ hf
      rcases hext.announced f ⟨idx, hidx⟩ hf with hold | ⟨idx', hidx', hf', hnot⟩
      · exact .inl hold
      · by_cases heq : (⟨f.record, f.value, idx'⟩ : MCChange R) = c
        · rw [hfact f idx' hidx' heq]
          exact .inl hv
        · refine .inr ⟨idx', hidx', hf', fun hmem => ?_⟩
          rcases HashSet.mem_add.mp hmem with hmem | heq'
          · exact hnot hmem
          · exact heq heq'
    · rintro f rfl ps concl hrule hmem hps
      exact hfire s₀ herase hsame rfl i hi ps concl hrule hmem hps

end Process

/-! ## Whole runs -/

/-- What every iteration keeps holds after `processChanges`, where nothing is pending. -/
theorem processChanges_induction {Inv : PlannerState R → Prop}
    (hnext : ∀ s c, Inv s → c ∈ s.changeset → Inv (s.processNext info c)) {fuel : Nat}
    (h : Inv s) (hrun : s.processChanges info fuel = some s') :
    ∃ t, Inv t ∧ t.changeset = [] ∧ s' = { t with completedset := [] } := by
  induction fuel generalizing s with
  | zero => simp [processChanges] at hrun
  | succ fuel ih =>
    unfold processChanges at hrun
    split at hrun
    next hempty => exact ⟨s, h, hempty, (Option.some.inj hrun).symm⟩
    next c rest hcons => exact ih (hnext s c h (by rw [hcons]; simp)) hrun

theorem Consistent.processChanges (h : Consistent info s) {fuel : Nat}
    (hrun : s.processChanges info fuel = some s') : Consistent info s' := by
  obtain ⟨t, ht, hempty, rfl⟩ :=
    processChanges_induction (fun s c hs hc => hs.processNext hc) h hrun
  exact { ht with backed := fun d hd => ht.backed d (.inl (by simpa using hd)) }

theorem completedset_processChanges {fuel : Nat}
    (hrun : s.processChanges info fuel = some s') : s'.completedset = [] := by
  induction fuel generalizing s with
  | zero => simp [PlannerState.processChanges] at hrun
  | succ fuel ih =>
    unfold PlannerState.processChanges at hrun
    split at hrun
    · rw [← Option.some.inj hrun]
    · exact ih hrun

omit [DecidableEq R] in
theorem pending_of_changeset_nil (h : s.changeset = []) : s.pending info = ∅ := by
  ext f
  simp [pending, h]

end PlannerState

end SatCheck
