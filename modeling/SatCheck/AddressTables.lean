import SatCheck.PlannerSteps
/-!
# The tables of the addresses

A record is in the load or store table of an address only if the address is in its set.
-/

namespace SatCheck

namespace PlannerState

variable {R : Type} [DecidableEq R] {info : R → RecordInfo} {s s' : PlannerState R} {record : R}

/-- Records come into the tables of the addresses in their sets. -/
structure Addressed (info : R → RecordInfo) (s : PlannerState R) : Prop where
  loadtable : ∀ a, ∀ r ∈ s.loadtable a, a ∈ s.sets r vcAddrIndex
  storetable : ∀ a, ∀ r ∈ s.storetable a, (info r).isStore ∧ a ∈ s.sets r vcAddrIndex

namespace Addressed

omit [DecidableEq R] in
theorem congr (h : Addressed info s) (hsets : s'.sets = s.sets)
    (hloads : s'.loadtable = s.loadtable) (hstores : s'.storetable = s.storetable) :
    Addressed info s' := by
  constructor
  · rw [hloads, hsets]
    exact h.loadtable
  · rw [hstores, hsets]
    exact h.storetable

theorem addChange (h : Addressed info s) (c : MCChange R) : Addressed info (s.addChange c) :=
  h.congr rfl rfl rfl

theorem addValue (h : Addressed info s) (record : R) (index : Nat) (val : UInt64) :
    Addressed info (s.addValue record index val) := by
  have hstep : RegisterSteps record s (s.addValue record index val) := .addValue s index val
  have hsets := hstep.subset.sets
  constructor
  · exact fun a r hr => hsets _ _ _ (h.loadtable a r hr)
  · exact fun a r hr => ⟨(h.storetable a r hr).1, hsets _ _ _ (h.storetable a r hr).2⟩

theorem addLoadTable (h : Addressed info s) {addr : UInt64}
    (haddr : addr ∈ s.sets record vcAddrIndex) : Addressed info (s.addLoadTable addr record) := by
  refine ⟨fun a r hr => ?_, h.storetable⟩
  rcases mem_loadtable_addLoadTable.mp hr with hr | ⟨rfl, rfl⟩
  · exact h.loadtable a r hr
  · exact haddr

theorem addStoreTable (h : Addressed info s) {addr : UInt64} (hstore : (info record).isStore)
    (haddr : addr ∈ s.sets record vcAddrIndex) :
    Addressed info (s.addStoreTable addr record) := by
  refine ⟨h.loadtable, fun a r hr => ?_⟩
  rcases mem_storetable_addStoreTable.mp hr with hr | ⟨rfl, rfl⟩
  · exact h.storetable a r hr
  · exact ⟨hstore, haddr⟩

theorem recordNewValue (h : Addressed info s) (record : R) (index : Nat) (val : UInt64) :
    Addressed info (s.recordNewValue record index val) := by
  unfold PlannerState.recordNewValue
  split_ifs
  · exact h
  · exact (h.addValue record index val).addChange _

theorem evalGoal (h : Addressed info s) (record : R) (goal : CGoal) :
    Addressed info (s.evalGoal record goal) := by
  unfold PlannerState.evalGoal
  split_ifs
  · exact h.recordNewValue record _ _
  · exact h

/-! ## Registering a value -/

theorem doRMWRFChange (h : Addressed info s) (record : R) (val : UInt64) :
    Addressed info (s.doRMWRFChange info record val) := by
  unfold PlannerState.doRMWRFChange
  simp only
  split_ifs
  · exact h.addChange _
  · exact ((h.addChange _).addValue _ _ _).addChange _
  · exact h.addChange _

theorem doRMWBaseChange (h : Addressed info s) (record : R) (val : UInt64) :
    Addressed info (s.doRMWBaseChange info record val) := by
  unfold PlannerState.doRMWBaseChange
  split_ifs
  · exact h
  · exact (h.addValue _ _ _).addChange _
  · exact h

private theorem registerRMWRead (h : Addressed info s) (record : R) (val : UInt64) :
    Addressed info (s.registerRMWRead info record val) := by
  unfold PlannerState.registerRMWRead
  split_ifs
  · exact h
  · exact (h.addValue _ _ _).doRMWRFChange record val

private theorem doRMWNewAddrChange (h : Addressed info s) (hrmw : (info record).event = .rmw)
    {addr : UInt64} (haddr : addr ∈ s.sets record vcAddrIndex) :
    Addressed info (s.doRMWNewAddrChange info record addr) := by
  have htables : Addressed info ((s.addLoadTable addr record).addStoreTable addr record) :=
    (h.addLoadTable haddr).addStoreTable (.inr hrmw) haddr
  refine List.foldlRecOn (motive := Addressed info) _ _ (htables.addChange _) fun t ht st _ => ?_
  split_ifs
  · exact List.foldlRecOn (motive := Addressed info) _ _ ht fun u hu val _ =>
      hu.registerRMWRead record val
  · exact ht

theorem registerValue (h : Addressed info s) (record : R) (val : UInt64) (index : Nat) :
    Addressed info (s.registerValue info record val index) := by
  have hadd := h.addValue record index (shiftAddress info record val index)
  have hnew : shiftAddress info record val index ∈
      (s.addValue record index (shiftAddress info record val index)).sets record index :=
    mem_sets_addValue.mpr (.inr ⟨rfl, rfl, rfl⟩)
  unfold PlannerState.registerValue
  split
  · unfold registerLoadValue
    simp only
    split_ifs
    · exact h
    · split
      · exact (hadd.addLoadTable hnew).addChange _
      · exact hadd.addChange _
      · exact hadd
  next hevent =>
    unfold registerRMWValue
    simp only
    split_ifs
    · exact h
    · split
      · exact hadd.doRMWNewAddrChange hevent hnew
      · exact hadd.doRMWRFChange _ _
      · exact hadd.doRMWBaseChange _ _
      · exact hadd
  next hevent =>
    unfold registerStoreValue
    simp only
    split
    · split_ifs
      · exact hadd.addChange _
      · exact (hadd.addStoreTable (.inl hevent) hnew).addChange _
    · exact hadd.addChange _
    · exact hadd
  · unfold registerFunctionValue
    simp only
    split_ifs
    · exact (h.addValue _ _ _).addChange _
    · refine List.foldlRecOn (motive := Addressed info) _ _ (h.addValue _ _ _)
        fun t ht goal _ => ?_
      split_ifs
      · exact ht.evalGoal record goal
      · exact ht
    · exact h.addValue _ _ _
  · exact h.addValue _ _ _
  · exact h.addValue _ _ _
  · exact h

private theorem registers (h : Addressed info s) {c : MCChange R} (hsteps : Registers info c s s') :
    Addressed info s' := by
  induction hsteps with
  | refl => exact h
  | tail _ hlast ih =>
    obtain ⟨record, val, index, -, rfl⟩ := hlast
    exact ih.registerValue record val index

theorem processChanges (h : Addressed info s) {fuel : Nat}
    (hrun : s.processChanges info fuel = some s') : Addressed info s' := by
  have hnext : ∀ t c, Addressed info t → c ∈ t.changeset →
      Addressed info (t.processNext info c) := by
    intro t c ht _
    unfold processNext
    simp only
    split_ifs
    · exact ht.congr rfl rfl rfl
    · have herase : Addressed info { t with changeset := t.changeset.erase c } :=
        ht.congr rfl rfl rfl
      exact (herase.registers (Registers.processChange info _ c)).congr rfl rfl rfl
  obtain ⟨t, ht, -, rfl⟩ := processChanges_induction hnext h hrun
  exact ht.congr rfl rfl rfl

/-! ## Calls -/

theorem recordContext (h : Addressed info s) (record : R) (rf addr : Option R)
    (mcids : List (Option R)) : Addressed info (s.recordContext record rf addr mcids) := by
  obtain ⟨deps, heq⟩ := recordContext_eq s record rf addr mcids
  rw [heq]
  exact h.congr rfl rfl rfl

variable (record) in
/-- The address is in its set before the record comes into the tables. -/
theorem recordAddress (h : Addressed info s) (addr : UInt64) :
    Addressed info (s.recordNewValue record vcAddrIndex addr) ∧
      addr ∈ (s.recordNewValue record vcAddrIndex addr).sets record vcAddrIndex :=
  ⟨h.recordNewValue _ _ _, mem_sets_recordNewValue.mpr (.inr ⟨rfl, rfl, rfl⟩)⟩

variable (record) in
theorem getOrCreateCurrRecord (h : Addressed info s) :
    Addressed info (s.getOrCreateCurrRecord record) := h.congr rfl rfl rfl

theorem loadChanges (h : Addressed info s) (addr : UInt64) :
    Addressed info (s.loadChanges record addr) := by
  obtain ⟨haddr, hmem⟩ := (h.getOrCreateCurrRecord record).recordAddress record addr
  exact haddr.addLoadTable hmem

variable (record) in
theorem recordStoreChange (h : Addressed info s) (addr val : UInt64) :
    Addressed info (s.recordStoreChange record addr val) ∧
      addr ∈ (s.recordStoreChange record addr val).sets record vcAddrIndex := by
  obtain ⟨haddr, hmem⟩ := h.recordAddress record addr
  unfold PlannerState.recordStoreChange
  simp only
  split_ifs
  · exact ⟨haddr, hmem⟩
  · exact ⟨(haddr.addValue _ _ _).addChange _, mem_sets_addValue.mpr (.inl hmem)⟩

theorem storeChanges (h : Addressed info s) (hevent : (info record).event = .store)
    (addr val : UInt64) (len : Nat) : Addressed info (s.storeChanges record addr val len) := by
  obtain ⟨hchange, hmem⟩ := (h.getOrCreateCurrRecord record).recordStoreChange record addr val
  exact (hchange.addStoreTable (.inl hevent) hmem).congr rfl rfl rfl

variable (record) in
private theorem recordRMWChange (h : Addressed info s) (addr valarg oldval newval : UInt64) :
    Addressed info (s.recordRMWChange info record addr valarg oldval newval) ∧
      addr ∈ (s.recordRMWChange info record addr valarg oldval newval).sets record
        vcAddrIndex := by
  obtain ⟨haddr, hmem⟩ := h.recordAddress record addr
  have hbase := haddr.addValue record vcBaseIndex valarg
  unfold PlannerState.recordRMWChange
  simp only
  split_ifs
  · constructor
    · exact (hbase.addValue _ _ _).recordNewValue _ _ _
    · apply mem_sets_recordNewValue.mpr
      exact .inl (mem_sets_addValue.mpr (.inl (mem_sets_addValue.mpr (.inl hmem))))
  · constructor
    · exact hbase.recordNewValue _ _ _
    · exact mem_sets_recordNewValue.mpr (.inl (mem_sets_addValue.mpr (.inl hmem)))

theorem rmwChanges (h : Addressed info s) (hevent : (info record).event = .rmw) (addr : UInt64)
    (len : Nat) (currval oldval valarg : UInt64) :
    Addressed info (s.rmwChanges info record addr len currval oldval valarg) := by
  obtain ⟨hchange, hmem⟩ := (h.getOrCreateCurrRecord record).recordRMWChange record addr
    valarg oldval (dormwaction (info record).op len currval oldval valarg)
  exact (hchange.addLoadTable hmem).addStoreTable (.inr hevent) hmem

theorem functionChanges (h : Addressed info s) (inputs : List R) :
    Addressed info (s.functionChanges info record inputs) := by
  unfold PlannerState.functionChanges
  simp only
  split_ifs
  · have hshared : Addressed info
        ((s.getOrCreateCurrRecord record).addSharedFunction info record) := h.congr rfl rfl rfl
    have hcopy : Addressed info (((s.getOrCreateCurrRecord record).addSharedFunction info
        record).copyInputs info record inputs) :=
      List.foldlRecOn (motive := Addressed info) _ _ hshared fun t ht p _ =>
        List.foldlRecOn (motive := Addressed info) _ _ ht fun u hu val _ => hu.addValue _ _ _
    exact List.foldlRecOn (motive := Addressed info) _ _ hcopy fun t ht goal _ =>
      ht.evalGoal record goal
  · exact h.getOrCreateCurrRecord record

theorem functionOutput (h : Addressed info s) (goal : CGoal) :
    Addressed info (s.functionOutput info record goal) := by
  have hgoal : Addressed info (s.addGoal info record goal) := by
    unfold addGoal
    split_ifs <;> exact h.congr rfl rfl rfl
  unfold PlannerState.functionOutput
  simp only
  split_ifs
  · exact h
  · refine List.foldlRecOn (motive := Addressed info) _ _ (hgoal.recordNewValue _ _ _)
      fun t ht f _ => ?_
    split_ifs
    · exact ht
    · exact ht.evalGoal f goal
  · exact hgoal.recordNewValue _ _ _

private theorem equalsOutput (h : Addressed info s) (isNew : Bool) (op1 op2 : Option R)
    (val1 val2 : UInt64) : Addressed info (s.equalsOutput isNew record op1 op2 val1 val2) := by
  have hvalue : ∀ (t : PlannerState R) (op : Option R) (index : Nat) (val : UInt64),
      Addressed info t →
      Addressed info (if op = none then t.addValue record index val else t) := by
    intro t op index val ht
    split_ifs
    · exact ht.addValue _ _ _
    · exact ht
  have hnew : Addressed info (if isNew then
      (s.recordFunctionChange record 0).recordFunctionChange record 1 else s) := by
    split_ifs
    · exact (h.recordNewValue _ _ _).recordNewValue _ _ _
    · exact h
  exact hvalue _ op2 _ val2 (hvalue _ op1 _ val1 hnew)

end Addressed

end PlannerState

namespace Call

open PlannerState

variable {R : Type} [DecidableEq R] {info : R → RecordInfo} {s : PlannerState R}

theorem addressed_exec (h : Addressed info s) (call : Call R) (hown : call.OnOwnRecord info) :
    Addressed info (call.exec info s) := by
  cases call with
  | load record addr rf idAddr => exact (h.loadChanges addr).recordContext _ _ _ _
  | store record addr val len idAddr idValue =>
    exact (h.storeChanges hown addr val len).recordContext _ _ _ _
  | rmw record addr len currval oldval valarg rf idAddr idValue idOldvalue =>
    exact (h.rmwChanges hown addr len currval oldval valarg).recordContext _ _ _ _
  | function record inputs len val =>
    exact ((h.functionChanges _).recordContext _ _ _ _).functionOutput _
  | phi record input =>
    exact (h.getOrCreateCurrRecord record).recordContext record none none [some input]
  | equals record op1 op2 val1 val2 =>
    exact ((h.getOrCreateCurrRecord _).recordContext _ _ _ _).equalsOutput _ op1 op2 val1 val2
  | branchDir record dirid =>
    exact (h.getOrCreateCurrRecord record).recordContext record none none [dirid]

def address : Call R → Option UInt64
  | load _ addr .. | store _ addr .. | rmw _ addr .. => some addr
  | _ => none

theorem mem_sets_exec (h : Addressed info s) {call : Call R} {addr : UInt64}
    (haddr : call.address = some addr) :
    addr ∈ (call.exec info s).sets call.record vcAddrIndex := by
  cases call with
  | load record a rf idAddr =>
    obtain rfl := Option.some.inj haddr
    obtain ⟨deps, heq⟩ := recordContext_eq (s.loadChanges record a) record rf idAddr []
    show a ∈ ((s.loadChanges record a).recordContext record rf idAddr []).sets record vcAddrIndex
    rw [heq]
    exact mem_sets_recordNewValue.mpr (.inr ⟨rfl, rfl, rfl⟩)
  | store record a val len idAddr idValue =>
    obtain rfl := Option.some.inj haddr
    obtain ⟨deps, heq⟩ := recordContext_eq (s.storeChanges record a val len) record none idAddr
      [idValue]
    show a ∈ ((s.storeChanges record a val len).recordContext record none idAddr
      [idValue]).sets record vcAddrIndex
    rw [heq]
    exact ((h.getOrCreateCurrRecord record).recordStoreChange record a val).2
  | rmw record a len currval oldval valarg rf idAddr idValue idOldvalue =>
    obtain rfl := Option.some.inj haddr
    exact (mem_sets_rmw s record a len currval oldval valarg rf idAddr idValue idOldvalue _
      _).mpr (.inr (.inl ⟨rfl, rfl⟩))
  | _ => exact absurd haddr (by simp [address])

end Call

open PlannerState in
theorem PlannerReachable.addressed {R : Type} [DecidableEq R] {info : R → RecordInfo}
    {s : PlannerState R} (h : PlannerReachable info s) : Addressed info s := by
  induction h with
  | empty => exact ⟨fun _ _ hr => absurd hr List.not_mem_nil,
      fun _ _ hr => absurd hr List.not_mem_nil⟩
  | call _ call hown ih => exact Call.addressed_exec ih call hown
  | processChanges _ fuel hrun ih => exact ih.processChanges hrun

end SatCheck
