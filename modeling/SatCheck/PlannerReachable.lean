import SatCheck.PlannerInvariant
/-!
# Calls keep the planner consistent

Every call grows the state, records its dependences and grows the state again.
-/

namespace SatCheck

namespace PlannerState

variable {R : Type} [DecidableEq R] {info : R → RecordInfo} {s s' : PlannerState R}

variable (info s) in
theorem grows_getOrCreateCurrRecord (record : R) :
    Grows info s (s.getOrCreateCurrRecord record) :=
  { Grows.refl info s with }

theorem grows_addEPValue (record : R) (val : UInt64) :
    Grows info s (s.addEPValue record val) :=
  { Grows.refl info s with }

theorem grows_addGoal (record : R) (goal : CGoal) :
    Grows info s (s.addGoal info record goal) := by
  unfold addGoal
  split_ifs
  · exact { Grows.refl info s with }
  · exact { Grows.refl info s with }

theorem grows_addSharedFunction {record : R} (h : (info record).isFunction) :
    Grows info s (s.addSharedFunction info record) :=
  { Grows.refl info s with
    functions := by
      intro id r hr
      simp only [addSharedFunction] at hr
      split_ifs at hr
      · rcases HashSet.mem_add.mp hr with hr | rfl
        · exact .inl hr
        · exact .inr h
      · exact .inl hr }

/-! ## Changes recorded by a call -/

theorem addLoadTable_addValue (record r : R) (index : Nat) (val addr : UInt64) :
    (s.addValue record index val).addLoadTable addr r =
      (s.addLoadTable addr r).addValue record index val := rfl

theorem addStoreTable_addValue (record r : R) (index : Nat) (val addr : UInt64) :
    (s.addValue record index val).addStoreTable addr r =
      (s.addStoreTable addr r).addValue record index val := rfl

theorem addLoadTable_recordNewValue (record r : R) (index : Nat) (val addr : UInt64) :
    (s.recordNewValue record index val).addLoadTable addr r =
      (s.addLoadTable addr r).recordNewValue record index val := by
  unfold recordNewValue
  by_cases h : val ∈ s.sets record index
  · rw [if_pos h, if_pos (by exact h)]
  · rw [if_neg h, if_neg (by exact h)]
    rfl

theorem addStoreTable_recordNewValue (record r : R) (index : Nat) (val addr : UInt64) :
    (s.recordNewValue record index val).addStoreTable addr r =
      (s.addStoreTable addr r).recordNewValue record index val := by
  unfold recordNewValue
  by_cases h : val ∈ s.sets record index
  · rw [if_pos h, if_pos (by exact h)]
  · rw [if_neg h, if_neg (by exact h)]
    rfl

theorem grows_loadChanges {record : R} (addr : UInt64) (hevent : (info record).event = .load) :
    Grows info s (s.loadChanges record addr) := by
  unfold loadChanges recordLoadChange
  simp only
  rw [addLoadTable_recordNewValue]
  refine ((grows_getOrCreateCurrRecord info s record).trans
    (grows_addLoadTable addr (.inl hevent))).trans (grows_recordNewValue ?_ ?_ ?_)
  · simp [RecordInfo.announceIndex, hevent]
  · intro _ _
    exact mem_loadtable_addLoadTable.mpr (.inr ⟨rfl, rfl⟩)
  · intro _ h
    rcases h with h | h <;> simp [hevent] at h

private theorem addStoreTable_recordStoreChange (record : R) (addr val : UInt64) :
    (s.recordStoreChange record addr val).addStoreTable addr record =
      (s.addStoreTable addr record).recordStoreChange record addr val := by
  unfold recordStoreChange
  simp only
  rw [← addStoreTable_recordNewValue]
  by_cases h : val ∈ (s.recordNewValue record vcAddrIndex addr).values record
  · rw [if_pos h, if_pos (by exact h)]
  · rw [if_neg h, if_neg (by exact h)]
    rfl

private theorem grows_recordStoreChange {record : R} (addr val : UInt64)
    (hevent : (info record).event = .store) (htable : record ∈ s.storetable addr) :
    Grows info s (s.recordStoreChange record addr val) := by
  have haddress : Grows info s (s.recordNewValue record vcAddrIndex addr) := by
    refine grows_recordNewValue ?_ ?_ fun _ _ => htable
    · simp [RecordInfo.announceIndex, hevent]
    · intro _ h
      rcases h with h | h <;> simp [hevent] at h
  unfold recordStoreChange
  simp only
  split_ifs
  · exact haddress
  · refine haddress.trans (grows_announceValue ?_ (by decide))
    simp [RecordInfo.announceIndex, hevent]

theorem grows_storeChanges {record : R} (addr val : UInt64) (len : Nat)
    (hevent : (info record).event = .store) :
    Grows info s (s.storeChanges record addr val len) := by
  unfold storeChanges
  simp only
  rw [addStoreTable_recordStoreChange]
  have htable := (grows_getOrCreateCurrRecord info s record).trans
    (grows_addStoreTable addr record)
  refine (htable.trans (grows_recordStoreChange addr val hevent ?_)).trans
    (grows_addEPValue record _)
  exact mem_storetable_addStoreTable.mpr (.inr ⟨rfl, rfl⟩)

private theorem addTables_recordRMWChange (record : R) (addr valarg oldval newval : UInt64) :
    ((s.recordRMWChange info record addr valarg oldval newval).addLoadTable addr
        record).addStoreTable addr record =
      ((s.addLoadTable addr record).addStoreTable addr record).recordRMWChange info record
        addr valarg oldval newval := by
  by_cases hop : (info record).op = .cas
  · simp only [recordRMWChange, if_pos hop, addLoadTable_recordNewValue,
      addStoreTable_recordNewValue, addLoadTable_addValue, addStoreTable_addValue]
  · simp only [recordRMWChange, if_neg hop, addLoadTable_recordNewValue,
      addStoreTable_recordNewValue, addLoadTable_addValue, addStoreTable_addValue]

private theorem grows_recordRMWChange {record : R} (addr valarg oldval newval : UInt64)
    (hevent : (info record).event = .rmw) (hload : record ∈ s.loadtable addr)
    (hstore : record ∈ s.storetable addr) :
    Grows info s (s.recordRMWChange info record addr valarg oldval newval) := by
  have haddress : Grows info s (s.recordNewValue record vcAddrIndex addr) :=
    grows_recordNewValue (by simp [RecordInfo.announceIndex, hevent])
      (fun _ _ => hload) (fun _ _ => hstore)
  have hvalarg : ∀ t : PlannerState R, Grows info t (t.addValue record vcBaseIndex valarg) :=
    fun t => grows_addValue valarg (by simp [RecordInfo.announceIndex, hevent])
  have hbase := haddress.trans (hvalarg _)
  have hnewval : ∀ t : PlannerState R,
      Grows info t (t.recordNewValue record vcRmwoutIndex newval) := fun t =>
    grows_recordNewValue (by simp [RecordInfo.announceIndex, hevent])
      (fun h => absurd h (by decide)) (fun h => absurd h (by decide))
  unfold recordRMWChange
  simp only
  by_cases hop : (info record).op = .cas
  · rw [if_pos hop]
    exact (hbase.trans (grows_addValue oldval
      (by simp [RecordInfo.announceIndex, hevent]))).trans (hnewval _)
  · rw [if_neg hop]
    exact hbase.trans (hnewval _)

theorem grows_rmwChanges {record : R} (addr : UInt64) (len : Nat)
    (currval oldval valarg : UInt64) (hevent : (info record).event = .rmw) :
    Grows info s (s.rmwChanges info record addr len currval oldval valarg) := by
  unfold rmwChanges
  simp only
  rw [addTables_recordRMWChange]
  have htables := ((grows_getOrCreateCurrRecord info s record).trans
    (grows_addLoadTable addr (.inr hevent))).trans (grows_addStoreTable addr record)
  refine htables.trans (grows_recordRMWChange addr _ _ _ hevent ?_ ?_)
  · exact mem_loadtable_addLoadTable.mpr (.inr ⟨rfl, rfl⟩)
  · exact mem_storetable_addStoreTable.mpr (.inr ⟨rfl, rfl⟩)

omit [DecidableEq R] in
theorem announceIndex_of_isFunction {record : R} (h : (info record).isFunction) :
    (info record).announceIndex vcFuncoutIndex = some vcFuncoutIndex ∧
      ∀ index, vcBaseIndex ≤ index → (info record).announceIndex index = none :=
  (RecordInfo.announceIndex_function h.1).2 h.2

private theorem grows_copyInputs {record : R} (inputs : List R) (h : (info record).isFunction) :
    Grows info s (s.copyInputs info record inputs) :=
  Grows.foldl fun _ _ _ _ => Grows.foldl fun _ _ val _ =>
    grows_addValue val ((announceIndex_of_isFunction h).2 _ (Nat.le_add_right _ _))

theorem grows_functionChanges {record : R} (inputs : List R) (h : (info record).isFunction) :
    Grows info s (s.functionChanges info record inputs) := by
  have hrecord := grows_getOrCreateCurrRecord info s record
  unfold functionChanges
  simp only
  split_ifs
  · have hshared := hrecord.trans (grows_addSharedFunction h)
    have hcopy := hshared.trans (grows_copyInputs inputs h)
    exact hcopy.trans (Grows.foldl fun _ _ goal _ =>
      grows_evalGoal goal (announceIndex_of_isFunction h).1)
  · exact hrecord

theorem grows_functionOutput {record : R} (goal : CGoal) (hcons : Consistent info s)
    (h : (info record).isFunction) :
    Grows info s (s.functionOutput info record goal) := by
  unfold functionOutput
  simp only
  split_ifs
  · exact Grows.refl info s
  · have houtput := (grows_addGoal (s := s) record goal).trans
      (grows_recordFunctionChange goal.output (announceIndex_of_isFunction h).1)
    refine houtput.trans (Grows.foldl fun s' _ func hfunc => ?_)
    split_ifs
    · exact Grows.refl info s'
    · have hfun := (hcons.grows houtput).functions _ func hfunc
      exact grows_evalGoal goal (announceIndex_of_isFunction hfun).1
  · exact (grows_addGoal record goal).trans
      (grows_recordFunctionChange goal.output (announceIndex_of_isFunction h).1)

theorem grows_equalsOutput {record : R} (isNew : Bool) (op1 op2 : Option R)
    (val1 val2 : UInt64) (hevent : (info record).event = .equals) :
    Grows info s (s.equalsOutput isNew record op1 op2 val1 val2) := by
  have hout : ∀ t val, Grows info t (recordFunctionChange t record val) := fun t val =>
    grows_recordFunctionChange val (by simp [RecordInfo.announceIndex, hevent])
  have hnew : Grows info s (if isNew then
      (s.recordFunctionChange record 0).recordFunctionChange record 1 else s) := by
    split_ifs
    · exact (hout s 0).trans (hout _ 1)
    · exact Grows.refl info s
  have hvalue : ∀ (t : PlannerState R) (op : Option R) (index : Nat) (val : UInt64),
      (info record).announceIndex index = none →
      Grows info t (if op = none then t.addValue record index val else t) := by
    intro t op index val hidx
    split_ifs
    · exact grows_addValue val hidx
    · exact Grows.refl info t
  unfold equalsOutput
  exact (hnew.trans (hvalue _ op1 _ val1 (by simp [RecordInfo.announceIndex, hevent]))).trans
    (hvalue _ op2 _ val2 (by simp [RecordInfo.announceIndex, hevent]))

/-! ## Dependences recorded by a call -/

/-- The slot `index` of the current record is fed by `record`. -/
def ContextEdge (rf addr : Option R) (mcids : List (Option R)) (record : R) (index : Nat) :
    Prop :=
  (rf = some record ∧ index = vcRfIndex) ∨ (addr = some record ∧ index = vcAddrIndex) ∨
    ∃ k, mcids[k]? = some (some record) ∧ index = vcBaseIndex + k

omit [DecidableEq R] in
theorem ContextEdge.operand {mcids : List (Option R)} {record : R} {index : Nat}
    (h : ContextEdge none none mcids record index) :
    ∃ k, k < mcids.length ∧ index = vcBaseIndex + k := by
  rcases h with ⟨h, -⟩ | ⟨h, -⟩ | ⟨k, hk, hindex⟩
  · cases h
  · cases h
  · exact ⟨k, (List.getElem?_eq_some_iff.mp hk).1, hindex⟩

/-- The state with new dependences of `currrecord`, each allowed by `edge`. -/
def AddsEdges (currrecord : R) (edge : R → Nat → Prop) (s s' : PlannerState R) : Prop :=
  ∃ deps, s' = { s with eprecorddep := deps } ∧ ∀ r, ∀ dep ∈ deps r,
    dep ∈ s.eprecorddep r ∨ dep.1 = currrecord ∧ edge r dep.2

omit [DecidableEq R] in
theorem AddsEdges.refl (currrecord : R) (edge : R → Nat → Prop) (s : PlannerState R) :
    AddsEdges currrecord edge s s := ⟨s.eprecorddep, rfl, fun _ _ h => .inl h⟩

omit [DecidableEq R] in
theorem AddsEdges.trans {currrecord : R} {edge : R → Nat → Prop} {s'' : PlannerState R}
    (h : AddsEdges currrecord edge s s') (h' : AddsEdges currrecord edge s' s'') :
    AddsEdges currrecord edge s s'' := by
  obtain ⟨deps, rfl, hdeps⟩ := h
  obtain ⟨deps', rfl, hdeps'⟩ := h'
  refine ⟨deps', rfl, fun r dep hdep => ?_⟩
  rcases hdeps' r dep hdep with hdep | hdep
  · exact hdeps r dep hdep
  · exact .inr hdep

private theorem addsEdges_addDependence (currrecord : R) (s : PlannerState R)
    {edge : R → Nat → Prop} (id : Option R)
    (index : Nat) (hedge : ∀ r, id = some r → edge r index) :
    AddsEdges currrecord edge s (s.addDependence id currrecord index) := by
  cases id with
  | none => exact AddsEdges.refl currrecord edge s
  | some record =>
    refine ⟨(s.addRecordDepTable record currrecord index).eprecorddep, rfl, ?_⟩
    rintro r ⟨d, i⟩ hdep
    rcases mem_eprecorddep_addRecordDepTable.mp hdep with hdep | ⟨rfl, rfl, rfl⟩
    · exact .inl hdep
    · exact .inr ⟨rfl, hedge r rfl⟩

theorem addsEdges_recordContext (currrecord : R) (rf addr : Option R)
    (mcids : List (Option R)) :
    AddsEdges currrecord (ContextEdge rf addr mcids) s
      (s.recordContext currrecord rf addr mcids) := by
  have hids : ∀ (l : List (Option R × Nat)) (t : PlannerState R),
      (∀ p ∈ l, ∀ r, p.1 = some r → ContextEdge rf addr mcids r (vcBaseIndex + p.2)) →
      AddsEdges currrecord (ContextEdge rf addr mcids) t (l.foldl
        (fun s p => s.addDependence p.1 currrecord (vcBaseIndex + p.2)) t) := by
    intro l
    induction l with
    | nil => exact fun t _ => AddsEdges.refl _ _ t
    | cons p l ih =>
      intro t hl
      have hp := addsEdges_addDependence currrecord t p.1
        (vcBaseIndex + p.2) (hl p (by simp))
      exact hp.trans (ih _ fun q hq => hl q (List.mem_cons_of_mem p hq))
  unfold recordContext
  refine ((hids _ s ?_).trans (addsEdges_addDependence currrecord _ rf vcRfIndex ?_)).trans
    (addsEdges_addDependence currrecord _ addr vcAddrIndex ?_)
  · rintro ⟨id, k⟩ hp r rfl
    exact .inr (.inr ⟨k, List.mk_mem_zipIdx_iff_getElem?.mp hp, rfl⟩)
  · exact fun r hr => .inl ⟨hr, rfl⟩
  · exact fun r hr => .inr (.inl ⟨hr, rfl⟩)

omit [DecidableEq R] in
theorem Consistent.addsEdges {currrecord : R} {edge : R → Nat → Prop} (h : Consistent info s)
    (hadds : AddsEdges currrecord edge s s')
    (hedge : ∀ r i, edge r i → (info currrecord).InputIndex i) : Consistent info s' := by
  obtain ⟨deps, rfl, hdeps⟩ := hadds
  refine { h with dependences := fun r dep hdep => ?_ }
  rcases hdeps r dep hdep with hdep | ⟨hrecord, hdep⟩
  · exact h.dependences r dep hdep
  · rw [hrecord]
    exact hedge r dep.2 hdep

end PlannerState

/-! ## What a call does -/

namespace Call

open PlannerState

variable {R : Type} [DecidableEq R] (info : R → RecordInfo)

def record : Call R → R
  | load record .. | store record .. | rmw record .. | function record .. | phi record _
  | equals record .. | branchDir record _ => record

def contextState (s : PlannerState R) : Call R → PlannerState R
  | load record addr _ _ => s.loadChanges record addr
  | store record addr val len _ _ => s.storeChanges record addr val len
  | rmw record addr len currval oldval valarg _ _ _ _ =>
      s.rmwChanges info record addr len currval oldval valarg
  | function record inputs _ _ => s.functionChanges info record (inputs.map Prod.fst)
  | phi record _ | equals record .. | branchDir record _ => s.getOrCreateCurrRecord record

/-- `source` feeds the slot `index` of the call's record. -/
def Feeds : Call R → R → Nat → Prop
  | load _ _ rf idAddr => ContextEdge rf idAddr []
  | store _ _ _ _ idAddr idValue => ContextEdge none idAddr [idValue]
  | rmw record _ _ _ _ _ rf idAddr idValue idOldvalue =>
      ContextEdge rf idAddr (rmwOperands info record idValue idOldvalue)
  | function _ inputs _ _ => ContextEdge none none (inputs.map fun p => some p.1)
  | phi _ input => ContextEdge none none [some input]
  | equals _ op1 op2 _ _ => ContextEdge none none [op1, op2]
  | branchDir _ dirid => ContextEdge none none [dirid]

variable {info} {s : PlannerState R}

omit [DecidableEq R] in
variable (info) in
private theorem length_rmwOperands (r : R) (idValue idOldvalue : Option R) :
    (rmwOperands info r idValue idOldvalue).length ≤ 2 := by
  unfold rmwOperands
  split_ifs <;> simp

omit [DecidableEq R] in
theorem inputIndex_of_feeds {call : Call R} (hown : call.OnOwnRecord info) {source : R}
    {index : Nat} (h : call.Feeds info source index) :
    (info call.record).InputIndex index := by
  unfold RecordInfo.InputIndex
  cases call with
  | load => simp [record, show (info _).event = _ from hown]
  | store => simp [record, show (info _).event = _ from hown]
  | branchDir => simp [record, show (info _).event = _ from hown]
  | rmw r _ _ _ _ _ _ _ idValue idOldvalue =>
    simp only [record, show (info r).event = _ from hown]
    rcases h with ⟨-, rfl⟩ | ⟨-, rfl⟩ | ⟨k, hk, rfl⟩
    · decide
    · decide
    · have hk := (List.getElem?_eq_some_iff.mp hk).1
      have hlen := length_rmwOperands info r idValue idOldvalue
      change 2 + k < 4
      omega
  | function r inputs =>
    obtain ⟨k, -, rfl⟩ := ContextEdge.operand h
    simp [record, show (info r).event = _ from hown.1, show (info r).phi = _ from hown.2]
  | phi r input =>
    obtain ⟨k, hk, rfl⟩ := ContextEdge.operand h
    have hzero : k = 0 := by simpa using hk
    simp [record, show (info r).event = _ from hown.1, hzero]
  | equals r =>
    obtain ⟨k, -, rfl⟩ := ContextEdge.operand h
    simp [record, show (info r).event = _ from hown]

/-- A call grows the state, records its dependences and grows the state again. -/
theorem exec_cases (hcons : Consistent info s) (call : Call R) (hown : call.OnOwnRecord info) :
    Grows info s (call.contextState info s) ∧
      ∃ t, AddsEdges call.record (call.Feeds info) (call.contextState info s) t ∧
        Grows info t (call.exec info s) := by
  have hgrows : Grows info s (call.contextState info s) := by
    cases call with
    | load r addr => exact grows_loadChanges addr hown
    | store r addr val len => exact grows_storeChanges addr val len hown
    | rmw r addr len currval oldval valarg =>
      exact grows_rmwChanges addr len currval oldval valarg hown
    | function r inputs => exact grows_functionChanges _ hown
    | phi r => exact grows_getOrCreateCurrRecord info s r
    | equals r => exact grows_getOrCreateCurrRecord info s r
    | branchDir r => exact grows_getOrCreateCurrRecord info s r
  have hedges : ∀ t, AddsEdges call.record (call.Feeds info) (call.contextState info s) t →
      Consistent info t := fun t ht =>
    (hcons.grows hgrows).addsEdges ht fun _ _ => inputIndex_of_feeds hown
  refine ⟨hgrows, ?_⟩
  cases call with
  | load => exact ⟨_, addsEdges_recordContext _ _ _ _, Grows.refl info _⟩
  | store => exact ⟨_, addsEdges_recordContext _ _ _ _, Grows.refl info _⟩
  | rmw => exact ⟨_, addsEdges_recordContext _ _ _ _, Grows.refl info _⟩
  | function r inputs len val =>
    have hadds := addsEdges_recordContext
      (s := s.functionChanges info r (inputs.map Prod.fst)) r none none
      (inputs.map fun p => some p.1)
    exact ⟨_, hadds, grows_functionOutput _ (hedges _ hadds) hown⟩
  | phi => exact ⟨_, addsEdges_recordContext _ _ _ _, Grows.refl info _⟩
  | equals r op1 op2 val1 val2 =>
    exact ⟨_, addsEdges_recordContext _ _ _ _, grows_equalsOutput _ op1 op2 val1 val2 hown⟩
  | branchDir => exact ⟨_, addsEdges_recordContext _ _ _ _, Grows.refl info _⟩

theorem consistent_exec (hcons : Consistent info s) (call : Call R)
    (hown : call.OnOwnRecord info) : Consistent info (call.exec info s) := by
  obtain ⟨hgrows, t, hadds, hafter⟩ := exec_cases hcons call hown
  exact ((hcons.grows hgrows).addsEdges hadds fun _ _ => inputIndex_of_feeds hown).grows hafter

end Call

theorem PlannerReachable.consistent {R : Type} [DecidableEq R] {info : R → RecordInfo}
    {s : PlannerState R} (h : PlannerReachable info s) : PlannerState.Consistent info s := by
  induction h with
  | empty => exact PlannerState.consistent_empty
  | call _ call hown ih => exact Call.consistent_exec ih call hown
  | processChanges _ fuel hrun ih => exact ih.processChanges hrun

end SatCheck
