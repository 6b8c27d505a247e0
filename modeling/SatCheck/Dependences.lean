import SatCheck.PlannerReachable
/-!
# Values flow along the dependences

A new return value of a record is pushed along the dependences recorded so far.
`addRecordDepTable` pushes nothing, so a dependence recorded after a value has been
processed misses that value unless it is there for another reason.
-/

namespace SatCheck

def RecordInfo.isSource (info : RecordInfo) : Prop :=
  info.event = .load ∨ info.event = .rmw ∨ info.event = .function ∨ info.event = .equals

def RecordInfo.returnIndex (info : RecordInfo) : Nat :=
  match info.event with
  | .load | .rmw => vcRfIndex
  | .function => if info.phi then vcBaseIndex else vcFuncoutIndex
  | _ => vcFuncoutIndex

theorem RecordInfo.isSource.announceIndex {info : RecordInfo} (h : info.isSource) :
    ∃ idx, info.announceIndex info.returnIndex = some idx := by
  rcases h with h | h | h | h
  · exact ⟨vcValoutIndex, by simp [RecordInfo.announceIndex, returnIndex, h]⟩
  · exact ⟨vcValoutIndex, by simp [RecordInfo.announceIndex, returnIndex, h]⟩
  · cases hphi : info.phi <;>
      exact ⟨vcFuncoutIndex, by simp [RecordInfo.announceIndex, returnIndex, h, hphi]⟩
  · exact ⟨vcFuncoutIndex, by simp [RecordInfo.announceIndex, returnIndex, h]⟩

namespace PlannerState

open Saturation

variable {R : Type} [DecidableEq R] {info : R → RecordInfo} {s s' : PlannerState R}

/-- Every value a record may return is in the slots that depend on it; the read-from
slot is not one of them. -/
def DependencesClosed (info : R → RecordInfo) (s : PlannerState R) : Prop :=
  ∀ source, (info source).isSource → ∀ dep ∈ s.eprecorddep source,
    HasInputs (info dep.1) → dep.2 ≠ vcRfIndex →
    ∀ val ∈ s.sets source (info source).returnIndex,
      shiftAddress info dep.1 val dep.2 ∈ s.sets dep.1 dep.2

def dependenceRules (info : R → RecordInfo) (deps : R → List (R × Nat)) (ps : Set (Fact R))
    (c : Fact R) : Prop :=
  ∃ source val, ∃ dep ∈ deps source, (info source).isSource ∧ HasInputs (info dep.1) ∧
    dep.2 ≠ vcRfIndex ∧ ps = {⟨source, (info source).returnIndex, val⟩} ∧
    c = ⟨dep.1, dep.2, shiftAddress info dep.1 val dep.2⟩

omit [DecidableEq R] in
theorem dependencesClosed_of_closed
    (h : Closed (dependenceRules info s.eprecorddep) s.known) : DependencesClosed info s := by
  intro source hsource dep hdep hinputs hrf val hval
  refine h _ _ ⟨source, val, dep, hdep, hsource, hinputs, hrf, rfl, rfl⟩ ?_
  rintro f rfl
  exact hval

omit [DecidableEq R] in
theorem watches_dependenceRules (deps : R → List (R × Nat)) :
    Watches (watched info) (dependenceRules info deps) := by
  rintro ps c ⟨source, val, dep, -, hsource, -, -, rfl, -⟩ f rfl
  exact hsource.announceIndex

private theorem processChange_of_return {c : MCChange R} (hsource : (info c.record).isSource)
    (hi : (info c.record).announceIndex (info c.record).returnIndex = some c.index) :
    s.processChange info c = s.processNewReturnValue info c := by
  obtain ⟨record, value, index⟩ := c
  simp only at hsource hi
  rcases hsource with h | h | h | h
  · have hindex : index = vcValoutIndex := by
      simpa [RecordInfo.announceIndex, RecordInfo.returnIndex, h, eq_comm] using hi
    simp [processChange, processLoad, h, hindex]
  · have hindex : index = vcValoutIndex := by
      simpa [RecordInfo.announceIndex, RecordInfo.returnIndex, h, eq_comm] using hi
    simp [processChange, processRMW, h, hindex]
  · simp [processChange, h]
  · simp [processChange, h]

private theorem dependenceRules_fire {c : MCChange R} (h : Consistent info s) {i : Nat}
    (hi : (info c.record).announceIndex i = some c.index) {ps : Set (Fact R)} {concl : Fact R}
    (hrule : dependenceRules info s.eprecorddep ps concl)
    (hmem : ⟨c.record, i, c.value⟩ ∈ ps) : concl ∈ (s.processChange info c).known := by
  obtain ⟨source, val, dep, hdep, hsource, hinputs, -, rfl, rfl⟩ := hrule
  simp only [Set.mem_singleton_iff, Fact.mk.injEq] at hmem
  obtain ⟨rfl, rfl, rfl⟩ := hmem
  rw [processChange_of_return hsource hi]
  exact mem_processNewReturnValue h hdep hinputs

def DependenceInv (info : R → RecordInfo) (s : PlannerState R) : Prop :=
  Consistent info s ∧
    ClosedUpTo (dependenceRules info s.eprecorddep) s.known (s.pending info)

private theorem eprecorddep_processNext {c : MCChange R} (h : Consistent info s) :
    (s.processNext info c).eprecorddep = s.eprecorddep := by
  unfold processNext
  simp only
  split_ifs
  · rfl
  · exact (grows_processChange (c := c) (h.erase c)).eprecorddep

theorem DependenceInv.processNext {c : MCChange R} (h : DependenceInv info s)
    (hc : c ∈ s.changeset) : DependenceInv info (s.processNext info c) := by
  refine ⟨h.1.processNext hc, ?_⟩
  rw [eprecorddep_processNext h.1]
  refine ClosedUpTo.processNext (watches_dependenceRules _) h.1 hc h.2 ?_
  intro s₀ hcons _ hdeps i hi ps concl hrule hmem _
  rw [← hdeps] at hrule
  exact dependenceRules_fire hcons hi hrule hmem

omit [DecidableEq R] in
theorem DependenceInv.grows (h : DependenceInv info s) (hg : Grows info s s') :
    DependenceInv info s' := by
  refine ⟨h.1.grows hg, ?_⟩
  rw [hg.eprecorddep]
  exact h.2.extend (watches_dependenceRules _) (h.1.extends hg)

theorem DependenceInv.processChanges (h : DependenceInv info s) {fuel : Nat}
    (hrun : s.processChanges info fuel = some s') :
    DependenceInv info s' ∧ DependencesClosed info s' := by
  obtain ⟨t, ht, hempty, rfl⟩ :=
    processChanges_induction (fun s c hs hc => hs.processNext hc) h hrun
  have hclosed := ht.2
  rw [pending_of_changeset_nil hempty, closedUpTo_empty_iff] at hclosed
  refine ⟨⟨h.1.processChanges hrun, ?_⟩, dependencesClosed_of_closed hclosed⟩
  rw [pending_of_changeset_nil (by exact hempty), closedUpTo_empty_iff]
  exact hclosed

end PlannerState

namespace Call

open PlannerState Saturation

variable {R : Type} [DecidableEq R] {info : R → RecordInfo} {s : PlannerState R}

/-- Where the call records a dependence for the first time, no value is missed: what the
source may return by then is in the slot already, or its change is still pending. -/
def Covered (info : R → RecordInfo) (s : PlannerState R) (call : Call R) : Prop :=
  ∀ source index, call.Feeds info source index → (info source).isSource →
    HasInputs (info call.record) → index ≠ vcRfIndex →
    (call.record, index) ∉ (call.contextState info s).eprecorddep source →
    ∀ val ∈ (call.contextState info s).sets source (info source).returnIndex,
      shiftAddress info call.record val index ∈
        (call.contextState info s).sets call.record index ∨
      ⟨source, (info source).returnIndex, val⟩ ∈ (call.contextState info s).pending info

theorem dependenceInv_exec (h : DependenceInv info s) (call : Call R)
    (hown : call.OnOwnRecord info) (hcovered : call.Covered info s) :
    DependenceInv info (call.exec info s) := by
  obtain ⟨hgrows, t, hadds, hafter⟩ := exec_cases h.1 call hown
  have hcontext := h.grows hgrows
  have ht : DependenceInv info t := by
    refine ⟨hcontext.1.addsEdges hadds fun _ _ => inputIndex_of_feeds hown, ?_⟩
    obtain ⟨deps, rfl, hdeps⟩ := hadds
    refine hcontext.2.addRules ?_
    rintro ps c ⟨source, val, dep, hdep, hsource, hinputs, hrf, rfl, rfl⟩
    by_cases hold : dep ∈ (call.contextState info s).eprecorddep source
    · exact .inl ⟨source, val, dep, hold, hsource, hinputs, hrf, rfl, rfl⟩
    · right
      intro hval
      obtain ⟨record, index⟩ := dep
      obtain ⟨rfl, hfeeds⟩ := (hdeps source _ hdep).resolve_left hold
      rcases hcovered source index hfeeds hsource hinputs hrf hold val
        (hval (Set.mem_singleton _)) with hmem | hpending
      · exact .inl hmem
      · exact .inr ⟨_, rfl, hpending⟩
  exact ht.grows hafter

theorem covered_store_none (record : R) (addr val : UInt64) (len : Nat) :
    (Call.store record addr val len none none).Covered info s := by
  rintro source index (⟨h, -⟩ | ⟨h, -⟩ | ⟨k, hk, -⟩)
  · cases h
  · cases h
  · rw [List.getElem?_singleton] at hk
    split_ifs at hk
    exact absurd hk (by simp)

end Call

/-- The states of runs in which no call misses a value. -/
inductive CoveredReachable {R : Type} [DecidableEq R] (info : R → RecordInfo) :
    PlannerState R → Prop
  | empty : CoveredReachable info .empty
  | call {s : PlannerState R} (h : CoveredReachable info s) (call : Call R)
      (hown : call.OnOwnRecord info) (hcovered : call.Covered info s) :
      CoveredReachable info (call.exec info s)
  | processChanges {s s' : PlannerState R} (h : CoveredReachable info s) (fuel : Nat)
      (hrun : s.processChanges info fuel = some s') : CoveredReachable info s'

theorem CoveredReachable.dependenceInv {R : Type} [DecidableEq R] {info : R → RecordInfo}
    {s : PlannerState R} (h : CoveredReachable info s) :
    PlannerState.DependenceInv info s := by
  induction h with
  | empty =>
    refine ⟨PlannerState.consistent_empty, ?_⟩
    rintro ps c ⟨source, val, dep, hdep, -⟩
    simp [PlannerState.empty] at hdep
  | call _ call hown hcovered ih => exact call.dependenceInv_exec ih hown hcovered
  | processChanges _ fuel hrun ih => exact (ih.processChanges hrun).1

/-- After every call of `processChanges` of such a run the values have reached every
dependent slot. -/
theorem dependencesClosed_processChanges {R : Type} [DecidableEq R] {info : R → RecordInfo}
    {s s' : PlannerState R} (h : CoveredReachable info s) {fuel : Nat}
    (hrun : s.processChanges info fuel = some s') : PlannerState.DependencesClosed info s' :=
  (h.dependenceInv.processChanges hrun).2

open scoped FewRecords

/-- Records 0, 1 and 3 are stores and record 2 is a load. -/
def lateCopyInfo (r : Fin 4) : RecordInfo :=
  ⟨if r = 2 then .load else .store, 0, .add, false, 0⟩

/-- The run that discovers a store of 5 to address 16 and a load of it. -/
def earlyCopyFirst : PlannerState (Fin 4) :=
  (Call.load 2 16 (some 0) none).exec lateCopyInfo
    ((Call.store 0 16 5 8 none none).exec lateCopyInfo .empty)

/-- In the next run a copy of the loaded 5 is stored. -/
def earlyCopy : Call (Fin 4) :=
  .store 3 24 5 8 none (some 2)

def earlyCopySecond (s : PlannerState (Fin 4)) : PlannerState (Fin 4) :=
  (Call.store 1 16 6 8 none none).exec lateCopyInfo (earlyCopy.exec lateCopyInfo s)

/-- The copy is recorded when 5 is all the load returns, so a 6 stored later reaches it. -/
theorem dependencesClosed_earlyCopy :
    ∃ s s', earlyCopyFirst.processChanges lateCopyInfo 20 = some s ∧
      (earlyCopySecond s).processChanges lateCopyInfo 20 = some s' ∧
      (3, vcBaseIndex) ∈ s'.eprecorddep 2 ∧ 5 ∈ s'.sets 2 vcRfIndex ∧
      6 ∈ s'.sets 2 vcRfIndex ∧ PlannerState.DependencesClosed lateCopyInfo s' := by
  have hfirst : (earlyCopyFirst.processChanges lateCopyInfo 20).any (fun s =>
      (earlyCopy.contextState lateCopyInfo s).sets 2 vcRfIndex = [5] ∧
      5 ∈ (earlyCopy.contextState lateCopyInfo s).sets 3 vcBaseIndex ∧
      ((earlyCopySecond s).processChanges lateCopyInfo 20).any fun s' =>
        (3, vcBaseIndex) ∈ s'.eprecorddep 2 ∧ 5 ∈ s'.sets 2 vcRfIndex ∧
          6 ∈ s'.sets 2 vcRfIndex) = true := by
    decide +kernel
  obtain ⟨s, hs, hval⟩ := Option.any_eq_true _ _ |>.mp hfirst
  rw [decide_eq_true_eq] at hval
  obtain ⟨hread, hstored, hsecond⟩ := hval
  obtain ⟨s', hs', hlater⟩ := Option.any_eq_true _ _ |>.mp hsecond
  rw [decide_eq_true_eq] at hlater
  have hreach : CoveredReachable lateCopyInfo earlyCopyFirst := by
    refine .call (.call .empty (.store 0 16 5 8 none none) (by rfl) ?_)
      (.load 2 16 (some 0) none) (by rfl) ?_
    · exact Call.covered_store_none 0 16 5 8
    · rintro source index (⟨h, rfl⟩ | ⟨h, -⟩ | ⟨k, hk, -⟩) _ _ hrf
      · exact absurd rfl hrf
      · cases h
      · simp at hk
  have hcopy : CoveredReachable lateCopyInfo (earlyCopy.exec lateCopyInfo s) := by
    refine .call (.processChanges hreach 20 hs) earlyCopy (by rfl) ?_
    rintro source index (⟨h, -⟩ | ⟨h, -⟩ | ⟨k, hk, rfl⟩)
    · cases h
    · cases h
    · intro _ _ _ _ val hmem
      rw [List.getElem?_singleton] at hk
      split_ifs at hk with hzero
      cases hk
      subst hzero
      obtain rfl := List.mem_singleton.mp (hread ▸ hmem)
      exact .inl hstored
  have hlast : CoveredReachable lateCopyInfo (earlyCopySecond s) :=
    .call hcopy (.store 1 16 6 8 none none) (by rfl) (Call.covered_store_none 1 16 6 8)
  obtain ⟨hdep, hfive, hsix⟩ := hlater
  exact ⟨s, s', hs, hs', hdep, hfive, hsix, dependencesClosed_processChanges hlast hs'⟩

/-- The run that discovers two stores of address 16 and a load of it. -/
def lateCopyFirst : PlannerState (Fin 4) :=
  (Call.load 2 16 (some 1) none).exec lateCopyInfo
    ((Call.store 1 16 5 8 none none).exec lateCopyInfo
      ((Call.store 0 16 0 8 none none).exec lateCopyInfo .empty))

/-- The next run reads 0 and, in code not seen before, stores a copy of it. -/
def lateCopySecond (s : PlannerState (Fin 4)) : PlannerState (Fin 4) :=
  (Call.store 1 16 5 8 none none).exec lateCopyInfo
    ((Call.store 3 24 0 8 none (some 2)).exec lateCopyInfo
      ((Call.load 2 16 (some 0) none).exec lateCopyInfo
        ((Call.store 0 16 0 8 none none).exec lateCopyInfo s)))

/-- The copy misses the value 5 that the load was known to return. -/
theorem not_dependencesClosed :
    ¬ ∀ (R : Type) [DecidableEq R] (info : R → RecordInfo) (s s' : PlannerState R) (fuel : Nat),
      PlannerReachable info s → s.processChanges info fuel = some s' →
        PlannerState.DependencesClosed info s' := by
  intro hclaim
  have hrun : (lateCopyFirst.processChanges lateCopyInfo 20).isSome = true := by decide +kernel
  obtain ⟨s, hs⟩ := Option.isSome_iff_exists.mp hrun
  have hmiss : (lateCopyFirst.processChanges lateCopyInfo 20).all (fun s =>
      ((lateCopySecond s).processChanges lateCopyInfo 20).any fun s' =>
        ((3, vcBaseIndex) ∈ s'.eprecorddep 2 ∧ 5 ∈ s'.sets 2 vcRfIndex ∧
          5 ∉ s'.sets 3 vcBaseIndex : Bool)) = true := by
    decide +kernel
  rw [hs, Option.all_some] at hmiss
  cases hs' : (lateCopySecond s).processChanges lateCopyInfo 20 with
  | none => simp [hs'] at hmiss
  | some s' =>
    rw [hs', Option.any_some, decide_eq_true_eq] at hmiss
    obtain ⟨hdep, hread, hnot⟩ := hmiss
    have hfirst : PlannerReachable lateCopyInfo lateCopyFirst :=
      .call (.call (.call .empty (.store 0 16 0 8 none none) (by rfl))
        (.store 1 16 5 8 none none) (by rfl)) (.load 2 16 (some 1) none) (by rfl)
    have hsecond : PlannerReachable lateCopyInfo (lateCopySecond s) :=
      .call (.call (.call (.call (.processChanges hfirst 20 hs)
        (.store 0 16 0 8 none none) (by rfl)) (.load 2 16 (some 0) none) (by rfl))
        (.store 3 24 0 8 none (some 2)) (by rfl)) (.store 1 16 5 8 none none) (by rfl)
    have hclosed := hclaim (Fin 4) lateCopyInfo _ s' 20 hsecond hs'
    exact hnot (hclosed 2 (.inl rfl) (3, vcBaseIndex) hdep (.inr (.inl rfl)) (by decide) 5 hread)

end SatCheck
