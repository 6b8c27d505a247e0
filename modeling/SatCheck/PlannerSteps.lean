import SatCheck.PlannerReachable
import Mathlib.Logic.Relation
/-!
# Steps of the register operations

Registering a value for a record adds values, table entries and changes of this record, one
after the other.  What all of these keep, every register operation keeps.
-/

namespace SatCheck

namespace PlannerState

variable {R : Type} [DecidableEq R] {info : R → RecordInfo} {s s' : PlannerState R} {record : R}

inductive RegisterStep (record : R) : PlannerState R → PlannerState R → Prop
  | addValue (s : PlannerState R) (index : Nat) (val : UInt64) :
      RegisterStep record s (s.addValue record index val)
  | addLoadTable (s : PlannerState R) (addr : UInt64) :
      RegisterStep record s (s.addLoadTable addr record)
  | addStoreTable (s : PlannerState R) (addr : UInt64) :
      RegisterStep record s (s.addStoreTable addr record)
  | addChange (s : PlannerState R) (val : UInt64) {index : Nat} (hindex : index ≤ vcValoutIndex) :
      RegisterStep record s (s.addChange ⟨record, val, index⟩)

abbrev RegisterSteps (record : R) : PlannerState R → PlannerState R → Prop :=
  Relation.ReflTransGen (RegisterStep record)

structure Subset (s s' : PlannerState R) : Prop where
  sets : ∀ r i, ∀ v ∈ s.sets r i, v ∈ s'.sets r i
  loadtable : ∀ a, ∀ r ∈ s.loadtable a, r ∈ s'.loadtable a
  storetable : ∀ a, ∀ r ∈ s.storetable a, r ∈ s'.storetable a

omit [DecidableEq R] in
theorem Subset.refl (s : PlannerState R) : Subset s s :=
  ⟨fun _ _ _ h => h, fun _ _ h => h, fun _ _ h => h⟩

omit [DecidableEq R] in
theorem Subset.trans {s'' : PlannerState R} (h : Subset s s') (h' : Subset s' s'') :
    Subset s s'' where
  sets r i v hv := h'.sets r i v (h.sets r i v hv)
  loadtable a r hr := h'.loadtable a r (h.loadtable a r hr)
  storetable a r hr := h'.storetable a r (h.storetable a r hr)

/-- The additions leave the records, the goals and the dependences alone. -/
structure Keeps (s s' : PlannerState R) : Prop where
  eptable : s'.eptable = s.eptable
  values : s'.values = s.values
  eprecorddep : s'.eprecorddep = s.eprecorddep
  goals : s'.goals = s.goals
  sharedgoals : s'.sharedgoals = s.sharedgoals
  sharedfuncrecords : s'.sharedfuncrecords = s.sharedfuncrecords
  completedset : s'.completedset = s.completedset

omit [DecidableEq R] in
theorem Keeps.refl (s : PlannerState R) : Keeps s s := by constructor <;> rfl

omit [DecidableEq R] in
theorem Keeps.trans {s'' : PlannerState R} (h : Keeps s s') (h' : Keeps s' s'') : Keeps s s'' where
  eptable := h'.eptable.trans h.eptable
  values := h'.values.trans h.values
  eprecorddep := h'.eprecorddep.trans h.eprecorddep
  goals := h'.goals.trans h.goals
  sharedgoals := h'.sharedgoals.trans h.sharedgoals
  sharedfuncrecords := h'.sharedfuncrecords.trans h.sharedfuncrecords
  completedset := h'.completedset.trans h.completedset

namespace RegisterSteps

theorem refl (s : PlannerState R) : RegisterSteps record s s := Relation.ReflTransGen.refl

theorem addValue (s : PlannerState R) (index : Nat) (val : UInt64) :
    RegisterSteps record s (s.addValue record index val) :=
  .single (.addValue s index val)

theorem addLoadTable (s : PlannerState R) (addr : UInt64) :
    RegisterSteps record s (s.addLoadTable addr record) :=
  .single (.addLoadTable s addr)

theorem addStoreTable (s : PlannerState R) (addr : UInt64) :
    RegisterSteps record s (s.addStoreTable addr record) :=
  .single (.addStoreTable s addr)

theorem addChange (s : PlannerState R) (val : UInt64) {index : Nat}
    (hindex : index ≤ vcValoutIndex) :
    RegisterSteps record s (s.addChange ⟨record, val, index⟩) :=
  .single (.addChange s val hindex)

theorem announce (s : PlannerState R) (index : Nat) {idx : Nat} (val : UInt64)
    (hidx : idx ≤ vcValoutIndex) :
    RegisterSteps record s ((s.addValue record index val).addChange ⟨record, val, idx⟩) :=
  (addValue s index val).trans (addChange _ val hidx)

theorem foldl {α : Type*} {f : PlannerState R → α → PlannerState R} (l : List α)
    (s : PlannerState R) (hf : ∀ s x, RegisterSteps record s (f s x)) :
    RegisterSteps record s (l.foldl f s) := by
  induction l generalizing s with
  | nil => exact refl s
  | cons x l ih => exact (hf s x).trans (ih (f s x))

theorem recordNewValue (s : PlannerState R) {index : Nat} (hindex : index ≤ vcValoutIndex)
    (val : UInt64) : RegisterSteps record s (s.recordNewValue record index val) := by
  unfold PlannerState.recordNewValue
  split_ifs
  · exact refl s
  · exact announce s index val hindex

theorem evalGoal (s : PlannerState R) (goal : CGoal) :
    RegisterSteps record s (s.evalGoal record goal) := by
  unfold PlannerState.evalGoal
  split
  · exact recordNewValue s (by decide) goal.output
  · exact refl s

theorem doRMWRFChange (s : PlannerState R) (readval : UInt64) :
    RegisterSteps record s (s.doRMWRFChange info record readval) := by
  have hread : RegisterSteps record s (s.addChange ⟨record, readval, vcValoutIndex⟩) :=
    addChange s readval (Nat.le_refl vcValoutIndex)
  unfold PlannerState.doRMWRFChange
  simp only
  split_ifs
  · exact hread
  · exact hread.trans (announce _ _ readval (by decide))
  · exact hread

theorem doRMWBaseChange (s : PlannerState R) (baseval : UInt64) :
    RegisterSteps record s (s.doRMWBaseChange info record baseval) := by
  unfold PlannerState.doRMWBaseChange
  split_ifs
  · exact refl s
  · exact announce s _ baseval (by decide)
  · exact refl s

theorem registerRMWRead (s : PlannerState R) (val : UInt64) :
    RegisterSteps record s (s.registerRMWRead info record val) := by
  unfold PlannerState.registerRMWRead
  split_ifs
  · exact refl s
  · exact (addValue s vcRfIndex val).trans (doRMWRFChange _ val)

private theorem doRMWNewAddrChange (s : PlannerState R) (val : UInt64) :
    RegisterSteps record s (s.doRMWNewAddrChange info record val) := by
  have htables : RegisterSteps record s ((s.addLoadTable val record).addStoreTable val record) :=
    (addLoadTable s val).trans (addStoreTable _ val)
  have hchange := htables.trans (addChange _ val (Nat.zero_le vcValoutIndex))
  apply hchange.trans
  apply foldl
  intro t store
  split_ifs
  · exact foldl _ t fun t stval => registerRMWRead t stval
  · exact refl t

theorem registerLoadValue (s : PlannerState R) (val : UInt64) (index : Nat) :
    RegisterSteps record s (s.registerLoadValue info record val index) := by
  unfold PlannerState.registerLoadValue
  simp only
  split_ifs
  · exact refl s
  · split
    · exact ((addValue s _ _).trans (addLoadTable _ _)).trans (addChange _ _ (Nat.zero_le _))
    · exact announce s _ _ (Nat.le_refl vcValoutIndex)
    · exact addValue s index _

private theorem registerRMWValue (s : PlannerState R) (val : UInt64) (index : Nat) :
    RegisterSteps record s (s.registerRMWValue info record val index) := by
  unfold PlannerState.registerRMWValue
  simp only
  split_ifs
  · exact refl s
  · split
    · exact (addValue s _ _).trans (doRMWNewAddrChange _ _)
    · exact (addValue s _ _).trans (doRMWRFChange _ _)
    · exact (addValue s _ _).trans (doRMWBaseChange _ _)
    · exact addValue s index _

private theorem registerStoreValue (s : PlannerState R) (val : UInt64) (index : Nat) :
    RegisterSteps record s (s.registerStoreValue info record val index) := by
  unfold PlannerState.registerStoreValue
  simp only
  split
  · split_ifs
    · exact announce s _ _ (Nat.zero_le _)
    · exact ((addValue s _ _).trans (addStoreTable _ _)).trans (addChange _ _ (Nat.zero_le _))
  · exact announce s _ _ (by decide)
  · exact addValue s index _

private theorem registerFunctionValue (s : PlannerState R) (val : UInt64) (index : Nat) :
    RegisterSteps record s (s.registerFunctionValue info record val index) := by
  unfold PlannerState.registerFunctionValue
  simp only
  split_ifs
  · exact announce s _ val (by decide)
  · apply (addValue s index val).trans
    apply foldl
    intro t goal
    split_ifs
    · exact evalGoal t goal
    · exact refl t
  · exact addValue s index val

variable (info record) in
theorem registerValue (s : PlannerState R) (val : UInt64) (index : Nat) :
    RegisterSteps record s (s.registerValue info record val index) := by
  unfold PlannerState.registerValue
  split
  · exact registerLoadValue s val index
  · exact registerRMWValue s val index
  · exact registerStoreValue s val index
  · exact registerFunctionValue s val index
  · exact addValue s index val
  · exact addValue s index val
  · exact refl s

/-! ## What they keep -/

theorem rel {P : PlannerState R → PlannerState R → Prop} (hrefl : ∀ s, P s s)
    (htrans : ∀ s s' s'', P s s' → P s' s'' → P s s'')
    (hstep : ∀ s s', RegisterStep record s s' → P s s') (h : RegisterSteps record s s') :
    P s s' := by
  induction h with
  | refl => exact hrefl s
  | tail _ hlast ih => exact htrans _ _ _ ih (hstep _ _ hlast)

theorem sets_of_ne (h : RegisterSteps record s s') {r : R} (hne : r ≠ record) :
    s'.sets r = s.sets r := by
  apply h.rel (P := fun s s' => s'.sets r = s.sets r) (fun _ => rfl)
    (fun _ _ _ h h' => h'.trans h)
  intro s s' hstep
  cases hstep with
  | addValue index val =>
    funext i
    simp [PlannerState.addValue, hne]
  | _ => rfl

theorem subset (h : RegisterSteps record s s') : Subset s s' := by
  apply h.rel (P := Subset) Subset.refl (fun _ _ _ h h' => h.trans h')
  intro s s' hstep
  cases hstep with
  | addValue index val =>
    exact { Subset.refl s with sets := fun _ _ _ hv => mem_sets_addValue.mpr (.inl hv) }
  | addLoadTable addr =>
    exact { Subset.refl s with
      loadtable := fun _ _ hr => mem_loadtable_addLoadTable.mpr (.inl hr) }
  | addStoreTable addr =>
    exact { Subset.refl s with
      storetable := fun _ _ hr => mem_storetable_addStoreTable.mpr (.inl hr) }
  | addChange val hindex => exact { Subset.refl s with }

theorem keeps (h : RegisterSteps record s s') : Keeps s s' := by
  apply h.rel (P := Keeps) Keeps.refl (fun _ _ _ h h' => h.trans h')
  intro s s' hstep
  cases hstep <;> constructor <;> rfl

theorem mem_changeset (h : RegisterSteps record s s') :
    ∀ c ∈ s'.changeset, c ∈ s.changeset ∨ c.index ≤ vcValoutIndex := by
  apply h.rel (P := fun s s' => ∀ c ∈ s'.changeset, c ∈ s.changeset ∨ c.index ≤ vcValoutIndex)
    (fun _ _ hc => .inl hc)
  · intro s s' s'' h h' c hc
    exact (h' c hc).elim (h c) .inr
  · intro s s' hstep c hc
    cases hstep with
    | addChange val hindex =>
      rcases HashSet.mem_add.mp hc with hc | rfl
      · exact .inl hc
      · exact .inr hindex
    | _ => exact .inl hc

end RegisterSteps

/-! ## Processing a change -/

def IsReturn (info : R → RecordInfo) (c : MCChange R) : Prop :=
  (info c.record).event = .function ∨ (info c.record).event = .equals ∨
    ((info c.record).event = .load ∨ (info c.record).event = .rmw) ∧ c.index = vcValoutIndex

/-- The values that processing a change registers, each in the state it is registered in. -/
inductive ProcessCall (info : R → RecordInfo) (c : MCChange R) (s : PlannerState R) :
    R → UInt64 → Nat → Prop
  | dependence {dep : R × Nat} (hreturn : IsReturn info c) (hdep : dep ∈ s.eprecorddep c.record) :
      ProcessCall info c s dep.1 c.value dep.2
  | loadAddress {store : R} {val : UInt64} (hload : (info c.record).event = .load)
      (hindex : c.index = vcAddrIndex) (hstore : store ∈ s.storetable c.value)
      (hne : store ≠ c.record) (hval : val ∈ s.getStoreSet info store) :
      ProcessCall info c s c.record val vcRfIndex
  | storeAddress {load : R} {val : UInt64} (hstore : (info c.record).isStore)
      (hindex : c.index = vcAddrIndex) (hload : load ∈ s.loadtable c.value)
      (hne : c.record ≠ load) (hval : val ∈ s.getStoreSet info c.record) :
      ProcessCall info c s load val vcRfIndex
  | storeValue {addr : UInt64} {load : R} (hstore : (info c.record).isStore)
      (hindex : c.index = (info c.record).storeIndex) (haddr : addr ∈ s.sets c.record vcAddrIndex)
      (hload : load ∈ s.loadtable addr) (hne : c.record ≠ load) :
      ProcessCall info c s load c.value vcRfIndex

abbrev Registers (info : R → RecordInfo) (c : MCChange R) :
    PlannerState R → PlannerState R → Prop :=
  Relation.ReflTransGen fun s s' =>
    ∃ record val index, ProcessCall info c s record val index ∧
      s' = s.registerValue info record val index

namespace Registers

variable {c : MCChange R}

theorem refl (s : PlannerState R) : Registers info c s s := Relation.ReflTransGen.refl

theorem registerValue {record : R} {val : UInt64} {index : Nat}
    (h : ProcessCall info c s record val index) :
    Registers info c s (s.registerValue info record val index) :=
  .single ⟨record, val, index, h, rfl⟩

theorem foldl {α : Type*} {f : PlannerState R → α → PlannerState R} {l : List α}
    (hf : ∀ s', Registers info c s s' → ∀ x ∈ l, Registers info c s' (f s' x)) :
    Registers info c s (l.foldl f s) := by
  induction l generalizing s with
  | nil => exact refl s
  | cons x l ih =>
    have hx := hf s (refl s) x (by simp)
    exact hx.trans (ih fun s' hs' y hy => hf s' (hx.trans hs') y (List.mem_cons_of_mem x hy))

theorem rel {P : PlannerState R → PlannerState R → Prop} (hrefl : ∀ s, P s s)
    (htrans : ∀ s s' s'', P s s' → P s' s'' → P s s'')
    (hregister : ∀ s record val index, P s (s.registerValue info record val index))
    (h : Registers info c s s') : P s s' := by
  induction h with
  | refl => exact hrefl s
  | tail _ hlast ih =>
    obtain ⟨record, val, index, -, rfl⟩ := hlast
    exact htrans _ _ _ ih (hregister _ record val index)

theorem keeps (h : Registers info c s s') : Keeps s s' :=
  h.rel Keeps.refl (fun _ _ _ h h' => h.trans h')
    fun s record val index => (RegisterSteps.registerValue info record s val index).keeps

theorem subset (h : Registers info c s s') : Subset s s' :=
  h.rel Subset.refl (fun _ _ _ h h' => h.trans h')
    fun s record val index => (RegisterSteps.registerValue info record s val index).subset

theorem processNewReturnValue (hreturn : IsReturn info c) :
    Registers info c s (s.processNewReturnValue info c) := by
  apply foldl
  intro t hsteps dep hdep
  apply registerValue
  apply ProcessCall.dependence hreturn
  rwa [hsteps.keeps.eprecorddep]

theorem processNewLoadAddress (hload : (info c.record).event = .load)
    (hindex : c.index = vcAddrIndex) :
    Registers info c s (s.processNewLoadAddress info c) := by
  apply foldl
  intro t hsteps store hstore
  split_ifs with hne
  · apply foldl
    intro t' hsteps' val hval
    apply registerValue
    have hsubset := hsteps.subset.trans hsteps'.subset
    exact .loadAddress hload hindex (hsubset.storetable _ _ hstore)
      (by simpa [compatibleStoreLoad] using hne) (hsteps'.subset.sets _ _ _ hval)
  · exact refl t

theorem processNewStoreAddress (hstore : (info c.record).isStore)
    (hindex : c.index = vcAddrIndex) :
    Registers info c s (s.processNewStoreAddress info c) := by
  apply foldl
  intro t hsteps load hload
  split_ifs with hne
  · apply foldl
    intro t' hsteps' val hval
    apply registerValue
    have hsubset := hsteps.subset.trans hsteps'.subset
    exact .storeAddress hstore hindex (hsubset.loadtable _ _ hload)
      (by simpa [compatibleStoreLoad] using hne) (hsteps'.subset.sets _ _ _ hval)
  · exact refl t

private theorem processNewStoreValue (hstore : (info c.record).isStore)
    (hindex : c.index = (info c.record).storeIndex) :
    Registers info c s (s.processNewStoreValue info c) := by
  apply foldl
  intro t hsteps addr haddr
  apply foldl
  intro t' hsteps' load hload
  split_ifs with hne
  · apply registerValue
    have hsubset := hsteps.subset.trans hsteps'.subset
    exact .storeValue hstore hindex (hsubset.sets _ _ _ haddr) (hsteps'.subset.loadtable _ _ hload)
      (by simpa [compatibleStoreLoad] using hne)
  · exact refl t'

variable (info) in
theorem processChange (s : PlannerState R) (c : MCChange R) :
    Registers info c s (s.processChange info c) := by
  unfold PlannerState.processChange
  split
  next hevent => exact processNewReturnValue (.inl hevent)
  next hevent => exact processNewReturnValue (.inr (.inl hevent))
  next hevent =>
    unfold processLoad
    split
    next hindex => exact processNewLoadAddress hevent hindex
    next hindex => exact processNewReturnValue (.inr (.inr ⟨.inl hevent, hindex⟩))
    next => exact refl s
  next hevent =>
    unfold processRMW
    split
    next hindex => exact processNewStoreAddress (.inr hevent) hindex
    next hindex =>
      apply processNewStoreValue (.inr hevent)
      rw [hindex, RecordInfo.storeIndex, if_pos hevent]
    next hindex => exact processNewReturnValue (.inr (.inr ⟨.inr hevent, hindex⟩))
    next => exact refl s
  next hevent =>
    unfold processStore
    split
    next hindex => exact processNewStoreAddress (.inl hevent) hindex
    next hindex =>
      apply processNewStoreValue (.inl hevent)
      rw [hindex, RecordInfo.storeIndex, if_neg (by simp [hevent])]
    next => exact refl s
  next => exact refl s

end Registers

omit [DecidableEq R] in
theorem ProcessCall.inputIndex {c : MCChange R} {val : UInt64} {index : Nat}
    (h : ProcessCall info c s record val index) (hcons : Consistent info s) :
    (info record).InputIndex index := by
  cases h with
  | dependence _ hdep => exact hcons.dependences _ _ hdep
  | loadAddress hload => exact RecordInfo.inputIndex_rf (.inl hload)
  | storeAddress _ _ hload => exact RecordInfo.inputIndex_rf (hcons.loadEntries _ _ hload)
  | storeValue _ _ _ hload => exact RecordInfo.inputIndex_rf (hcons.loadEntries _ _ hload)

variable (info) in
/-- Every change that is dispatched in the iterations meets the condition. -/
def EachChange (changeOk : PlannerState R → MCChange R → Prop) (s : PlannerState R) : Nat → Prop
  | 0 => True
  | fuel + 1 =>
      match s.changeset with
      | [] => True
      | change :: _ =>
          (change ∉ s.completedset → changeOk s change) ∧
            EachChange changeOk (s.processNext info change) fuel

instance decidableEachChange (changeOk : PlannerState R → MCChange R → Prop)
    [∀ s c, Decidable (changeOk s c)] :
    (s : PlannerState R) → (fuel : Nat) → Decidable (s.EachChange info changeOk fuel)
  | _, 0 => .isTrue trivial
  | s, fuel + 1 =>
      match hset : s.changeset with
      | [] => .isTrue (by rw [EachChange, hset]; trivial)
      | change :: _ =>
          have := decidableEachChange changeOk (s.processNext info change) fuel
          decidable_of_iff ((change ∉ s.completedset → changeOk s change) ∧
            (s.processNext info change).EachChange info changeOk fuel) (by rw [EachChange, hset])

theorem eachChange_of_forall {changeOk : PlannerState R → MCChange R → Prop}
    (h : ∀ s c, changeOk s c) (s : PlannerState R) (fuel : Nat) :
    s.EachChange info changeOk fuel := by
  induction fuel generalizing s with
  | zero => trivial
  | succ fuel ih =>
    unfold EachChange
    split
    · trivial
    · exact ⟨fun _ => h _ _, ih _⟩

theorem processChanges_induction_of {changeOk : PlannerState R → MCChange R → Prop}
    {Inv : PlannerState R → Prop}
    (hnext : ∀ s c, Inv s → c ∈ s.changeset → (c ∉ s.completedset → changeOk s c) →
      Inv (s.processNext info c)) {fuel : Nat}
    (h : Inv s) (hok : s.EachChange info changeOk fuel)
    (hrun : s.processChanges info fuel = some s') :
    ∃ t, Inv t ∧ t.changeset = [] ∧ s' = { t with completedset := [] } := by
  induction fuel generalizing s with
  | zero => simp [processChanges] at hrun
  | succ fuel ih =>
    unfold processChanges at hrun
    unfold EachChange at hok
    split at hrun
    next hempty => exact ⟨s, h, hempty, (Option.some.inj hrun).symm⟩
    next c rest hcons =>
      rw [hcons] at hok
      exact ih (hnext s c h (by rw [hcons]; simp) hok.1) hok.2 hrun

theorem subset_processChanges {fuel : Nat} (hrun : s.processChanges info fuel = some s') :
    Subset s s' := by
  have hnext : ∀ t c, Subset s t → c ∈ t.changeset → Subset s (t.processNext info c) := by
    intro t c hsub _
    apply hsub.trans
    unfold processNext
    simp only
    split_ifs
    · exact { Subset.refl t with }
    · have hsteps := (Registers.processChange info { t with changeset := t.changeset.erase c }
        c).subset
      exact ⟨hsteps.sets, hsteps.loadtable, hsteps.storetable⟩
  obtain ⟨t, hsub, -, rfl⟩ := processChanges_induction hnext (Subset.refl s) hrun
  exact ⟨hsub.sets, hsub.loadtable, hsub.storetable⟩

/-! ## Calls -/

theorem recordContext_eq (s : PlannerState R) (currrecord : R) (rf addr : Option R)
    (mcids : List (Option R)) :
    ∃ deps, s.recordContext currrecord rf addr mcids = { s with eprecorddep := deps } := by
  obtain ⟨deps, heq, -⟩ := addsEdges_recordContext (s := s) currrecord rf addr mcids
  exact ⟨deps, heq⟩

namespace RegisterSteps

theorem loadChanges (s : PlannerState R) (addr : UInt64) :
    RegisterSteps record (s.getOrCreateCurrRecord record) (s.loadChanges record addr) :=
  (recordNewValue _ (Nat.zero_le _) addr).trans (addLoadTable _ addr)

theorem recordStoreChange (s : PlannerState R) (addr val : UInt64) :
    RegisterSteps record s (s.recordStoreChange record addr val) := by
  have haddr : RegisterSteps record s (s.recordNewValue record vcAddrIndex addr) :=
    recordNewValue s (Nat.zero_le _) addr
  unfold PlannerState.recordStoreChange
  simp only
  split_ifs
  · exact haddr
  · exact haddr.trans (announce _ _ val (by decide))

variable (info) in
theorem recordRMWChange (s : PlannerState R) (addr valarg oldval newval : UInt64) :
    RegisterSteps record s (s.recordRMWChange info record addr valarg oldval newval) := by
  have hbase : RegisterSteps record s
      ((s.recordNewValue record vcAddrIndex addr).addValue record vcBaseIndex valarg) :=
    (recordNewValue s (Nat.zero_le _) addr).trans (addValue _ _ valarg)
  unfold PlannerState.recordRMWChange
  simp only
  split_ifs
  · exact (hbase.trans (addValue _ _ oldval)).trans (recordNewValue _ (by decide) newval)
  · exact hbase.trans (recordNewValue _ (by decide) newval)

variable (info) in
theorem rmwChanges (s : PlannerState R) (addr : UInt64) (len : Nat)
    (currval oldval valarg : UInt64) :
    RegisterSteps record (s.getOrCreateCurrRecord record)
      (s.rmwChanges info record addr len currval oldval valarg) :=
  ((recordRMWChange info _ addr valarg oldval _).trans (addLoadTable _ addr)).trans
    (addStoreTable _ addr)

theorem equalsOutput (s : PlannerState R) (isNew : Bool) (op1 op2 : Option R)
    (val1 val2 : UInt64) :
    RegisterSteps record s (s.equalsOutput isNew record op1 op2 val1 val2) := by
  have hnew : RegisterSteps record s (if isNew then
      (s.recordFunctionChange record 0).recordFunctionChange record 1 else s) := by
    split_ifs
    · exact (recordNewValue s (by decide) 0).trans (recordNewValue _ (by decide) 1)
    · exact refl s
  have hvalue : ∀ (t : PlannerState R) (op : Option R) (index : Nat) (val : UInt64),
      RegisterSteps record t (if op = none then t.addValue record index val else t) := by
    intro t op index val
    split_ifs
    · exact addValue t index val
    · exact refl t
  exact (hnew.trans (hvalue _ op1 _ val1)).trans (hvalue _ op2 _ val2)

end RegisterSteps

/-- What a call does beside the sets, tables and changes of its record. -/
structure CallFrame (record : R) (s s' : PlannerState R) : Prop where
  eptable : s'.eptable = HashSet.add s.eptable record
  sharedgoals : s'.sharedgoals = s.sharedgoals
  sharedfuncrecords : s'.sharedfuncrecords = s.sharedfuncrecords
  completedset : s'.completedset = s.completedset
  sets : ∀ r, r ≠ record → s'.sets r = s.sets r

theorem CallFrame.of_steps (h : RegisterSteps record (s.getOrCreateCurrRecord record) s') :
    CallFrame record s s' where
  eptable := h.keeps.eptable
  sharedgoals := h.keeps.sharedgoals
  sharedfuncrecords := h.keeps.sharedfuncrecords
  completedset := h.keeps.completedset
  sets _ hne := h.sets_of_ne hne

theorem CallFrame.recordContext (h : CallFrame record s s') (rf addr : Option R)
    (mcids : List (Option R)) :
    CallFrame record s (s'.recordContext record rf addr mcids) := by
  obtain ⟨deps, heq⟩ := recordContext_eq s' record rf addr mcids
  rw [heq]
  exact { h with }

theorem CallFrame.steps {s'' : PlannerState R} (h : CallFrame record s s')
    (hsteps : RegisterSteps record s' s'') : CallFrame record s s'' where
  eptable := hsteps.keeps.eptable.trans h.eptable
  sharedgoals := hsteps.keeps.sharedgoals.trans h.sharedgoals
  sharedfuncrecords := hsteps.keeps.sharedfuncrecords.trans h.sharedfuncrecords
  completedset := hsteps.keeps.completedset.trans h.completedset
  sets r hne := (hsteps.sets_of_ne hne).trans (h.sets r hne)

end PlannerState

open PlannerState in
theorem Call.frame {R : Type} [DecidableEq R] {info : R → RecordInfo} (s : PlannerState R)
    (call : Call R) (hown : call.OnOwnRecord info) (hfunction : ¬ (info call.record).isFunction) :
    CallFrame call.record s (call.exec info s) := by
  have hcreate : ∀ record, CallFrame record s (s.getOrCreateCurrRecord record) :=
    fun record => .of_steps (.refl _)
  cases call with
  | load record addr rf idAddr =>
    exact (CallFrame.of_steps (.loadChanges s addr)).recordContext _ _ _
  | store record addr val len idAddr idValue =>
    have hsteps : RegisterSteps record (s.getOrCreateCurrRecord record)
        ((s.getOrCreateCurrRecord record).recordStoreChange record addr val) :=
      RegisterSteps.recordStoreChange _ addr val
    have hframe := CallFrame.of_steps (hsteps.trans (RegisterSteps.addStoreTable _ addr))
    have hstore : CallFrame record s (s.storeChanges record addr val len) := { hframe with }
    exact hstore.recordContext _ _ _
  | rmw record addr len currval oldval valarg =>
    exact (CallFrame.of_steps (.rmwChanges info s addr len currval oldval
      valarg)).recordContext _ _ _
  | function record inputs len val => exact absurd hown hfunction
  | phi record input => exact (hcreate record).recordContext none none [some input]
  | equals record op1 op2 val1 val2 =>
    exact ((hcreate record).recordContext none none [op1, op2]).steps
      (RegisterSteps.equalsOutput _ _ op1 op2 val1 val2)
  | branchDir record dirid => exact (hcreate record).recordContext none none [dirid]

namespace PlannerState

variable {R : Type} [DecidableEq R] {info : R → RecordInfo} {s s' : PlannerState R} {record : R}

variable (info record) in
theorem RegisterSteps.copyInputs (s : PlannerState R) (inputs : List R) :
    RegisterSteps record s (s.copyInputs info record inputs) := by
  apply RegisterSteps.foldl
  intro s p
  exact RegisterSteps.foldl _ s fun s val => RegisterSteps.addValue s _ val

theorem mem_sets_rmw (s : PlannerState R) (r : R) (addr : UInt64) (len : Nat)
    (currval oldval valarg : UInt64) (rf idAddr idValue idOldvalue : Option R) (i : Nat)
    (v : UInt64) :
    v ∈ (s.rmw info r addr len currval oldval valarg rf idAddr idValue idOldvalue).sets r i ↔
      v ∈ s.sets r i ∨ i = vcAddrIndex ∧ v = addr ∨ i = vcBaseIndex ∧ v = valarg ∨
        ((info r).op = .cas ∧ i = vcOldvalcasIndex ∧ v = oldval) ∨
        i = vcRmwoutIndex ∧ v = dormwaction (info r).op len currval oldval valarg := by
  obtain ⟨deps, heq⟩ := recordContext_eq (s.rmwChanges info r addr len currval oldval valarg)
    r rf idAddr (rmwOperands info r idValue idOldvalue)
  unfold rmw
  rw [heq]
  show v ∈ (PlannerState.recordRMWChange info (s.getOrCreateCurrRecord r) r addr valarg oldval
    _).sets r i ↔ _
  unfold recordRMWChange
  simp only
  split_ifs with hop
  · simp [mem_sets_addValue, mem_sets_recordNewValue, getOrCreateCurrRecord, hop, or_assoc]
  · simp [mem_sets_addValue, mem_sets_recordNewValue, getOrCreateCurrRecord, hop, or_assoc]

omit [DecidableEq R] in
theorem sets_foldl {α : Type*} {f : PlannerState R → α → PlannerState R} {l : List α} {r : R}
    {i : Nat} (hf : ∀ s, ∀ x ∈ l, (f s x).sets r i = s.sets r i) (s : PlannerState R) :
    (l.foldl f s).sets r i = s.sets r i := by
  induction l generalizing s with
  | nil => rfl
  | cons x l ih =>
    rw [List.foldl_cons, ih fun s y hy => hf s y (List.mem_cons_of_mem x hy)]
    exact hf s x List.mem_cons_self

theorem sets_functionOutput
    (hfunctions : ∀ id, ∀ f ∈ s.sharedfuncrecords id, (info f).isFunction)
    (hfunction : (info record).isFunction) (goal : CGoal) {r : R}
    (hr : (info r).event ≠ .function) :
    (s.functionOutput info record goal).sets r = s.sets r := by
  have hne : ∀ f : R, (info f).isFunction → r ≠ f := by
    rintro f hf rfl
    exact hr hf.1
  have hadd : (s.addGoal info record goal).sets = s.sets ∧
      (s.addGoal info record goal).sharedfuncrecords = s.sharedfuncrecords := by
    unfold addGoal
    split_ifs <;> exact ⟨rfl, rfl⟩
  have hrecorded : RegisterSteps record (s.addGoal info record goal)
      ((s.addGoal info record goal).recordFunctionChange record goal.output) :=
    RegisterSteps.recordNewValue _ (by decide) goal.output
  have hsets := (hrecorded.sets_of_ne (hne record hfunction)).trans (congrFun hadd.1 r)
  unfold functionOutput
  simp only
  split_ifs
  · rfl
  · funext i
    rw [sets_foldl _ _, hsets]
    intro t f hf
    rw [hrecorded.keeps.sharedfuncrecords, hadd.2] at hf
    split_ifs
    · rfl
    · rw [(RegisterSteps.evalGoal t goal).sets_of_ne (hne f (hfunctions _ f hf))]
  · exact hsets

private theorem functionChanges_frame (hfunction : (info record).isFunction) (inputs : List R) :
    (∀ id, ∀ f ∈ (s.functionChanges info record inputs).sharedfuncrecords id,
      f ∈ s.sharedfuncrecords id ∨ (info f).isFunction) ∧
      ∀ r, r ≠ record → (s.functionChanges info record inputs).sets r = s.sets r := by
  refine ⟨(grows_functionChanges inputs hfunction).functions, fun r hne => ?_⟩
  unfold functionChanges
  simp only
  split_ifs
  · have hcopy := RegisterSteps.copyInputs info record
      ((s.getOrCreateCurrRecord record).addSharedFunction info record) inputs
    funext i
    rw [sets_foldl fun t goal _ => congrFun ((RegisterSteps.evalGoal t goal).sets_of_ne hne) i,
      hcopy.sets_of_ne hne]
    rfl
  · rfl

end PlannerState

open PlannerState in
/-- A call leaves the sets of the other records alone, if they are no functions. -/
theorem Call.sets_of_ne {R : Type} [DecidableEq R] {info : R → RecordInfo} {s : PlannerState R}
    (hfunctions : ∀ id, ∀ f ∈ s.sharedfuncrecords id, (info f).isFunction) (call : Call R)
    (hown : call.OnOwnRecord info) {r : R} (hne : r ≠ call.record)
    (hr : (info r).event ≠ .function) : (call.exec info s).sets r = s.sets r := by
  by_cases hfunction : (info call.record).isFunction
  · cases call with
    | function record inputs len val =>
      have hfunction : (info record).isFunction := hfunction
      obtain ⟨hfuncs, hsets⟩ := functionChanges_frame (s := s) hfunction (inputs.map Prod.fst)
      obtain ⟨deps, heq⟩ := recordContext_eq
        (s.functionChanges info record (inputs.map Prod.fst)) record none none
        (inputs.map fun p => some p.1)
      show (((s.functionChanges info record (inputs.map Prod.fst)).recordContext record none none
        (inputs.map fun p => some p.1)).functionOutput info record _).sets r = s.sets r
      rw [heq, sets_functionOutput _ hfunction _ hr]
      · exact hsets r hne
      · intro id f hf
        exact (hfuncs id f hf).elim (hfunctions id f) fun h => h
    | phi record input => exact absurd (hown.2.symm.trans hfunction.2) (by decide)
    | _ => exact absurd (hown.symm.trans hfunction.1) (by decide)
  · exact (call.frame s hown hfunction).sets r hne

/-- The states of runs all of whose calls, and all changes that `processChanges` handles, meet a
condition. -/
inductive PlannerRun {R : Type} [DecidableEq R] (info : R → RecordInfo)
    (callOk : PlannerState R → Call R → Prop) (changeOk : PlannerState R → MCChange R → Prop) :
    PlannerState R → Prop
  | empty : PlannerRun info callOk changeOk .empty
  | call {s : PlannerState R} (h : PlannerRun info callOk changeOk s) (call : Call R)
      (hown : call.OnOwnRecord info) (hok : callOk s call) :
      PlannerRun info callOk changeOk (call.exec info s)
  | processChanges {s s' : PlannerState R} (h : PlannerRun info callOk changeOk s) (fuel : Nat)
      (hok : s.EachChange info changeOk fuel) (hrun : s.processChanges info fuel = some s') :
      PlannerRun info callOk changeOk s'

end SatCheck
