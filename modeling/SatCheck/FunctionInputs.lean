import SatCheck.Dependences
import SatCheck.FunctionGoals
/-!
# Inputs of a new function

A new function starts with the values that the records of its arguments are known to return.
They are read from `getReturnValueSet`, which for an RMW holds what it has stored, and for a phi
holds nothing.
-/

namespace SatCheck

namespace PlannerState

variable {R : Type} [DecidableEq R] {info : R → RecordInfo} {s : PlannerState R} {record : R}

/-- The `i`-th input set has all values that the record of the `i`-th argument may return. -/
def InputsKnown (info : R → RecordInfo) (s s' : PlannerState R) (record : R) (inputs : List R) :
    Prop :=
  ∀ i arg, inputs[i]? = some arg → ∀ v ∈ s.sets arg (info arg).returnIndex,
    v ∈ s'.sets record (vcBaseIndex + i)

/-- What may be returned is what `getReturnValueSet` has. -/
def ReturnsKnown (info : R → RecordInfo) (s : PlannerState R) (arg : R) : Prop :=
  ((info arg).event = .rmw → ∀ v ∈ s.sets arg vcRfIndex, v ∈ s.sets arg vcRmwoutIndex) ∧
    ((info arg).event = .function → (info arg).phi = true →
      ∀ v ∈ s.sets arg vcBaseIndex, v ∈ s.sets arg vcFuncoutIndex)

omit [DecidableEq R] in
theorem returnsKnown_iff {arg : R} (hsource : (info arg).isSource) :
    s.ReturnsKnown info arg ↔
      ∀ v ∈ s.sets arg (info arg).returnIndex, v ∈ s.getReturnValueSet info arg := by
  unfold ReturnsKnown getReturnValueSet RecordInfo.returnValueIndex? RecordInfo.returnIndex
  rcases hsource with h | h | h | h
  · simp [h]
  · simp [h]
  · cases hphi : (info arg).phi <;> simp [h]
  · simp [h]

private theorem mem_foldl_addValue (vals : List UInt64) (record r : R) (index i : Nat) (v : UInt64)
    (s : PlannerState R) :
    v ∈ (vals.foldl (fun s val => s.addValue record index val) s).sets r i ↔
      v ∈ s.sets r i ∨ r = record ∧ i = index ∧ v ∈ vals := by
  induction vals generalizing s with
  | nil => simp
  | cons val vals ih =>
    rw [List.foldl_cons, ih, mem_sets_addValue, List.mem_cons, or_assoc]
    apply or_congr_right
    constructor
    · rintro (⟨hr, hi, hv⟩ | ⟨hr, hi, hv⟩)
      · exact ⟨hr, hi, .inl hv⟩
      · exact ⟨hr, hi, .inr hv⟩
    · rintro ⟨hr, hi, hv | hv⟩
      · exact .inl ⟨hr, hi, hv⟩
      · exact .inr ⟨hr, hi, hv⟩

/-- The arguments are other records, so that copying does not change what is copied. -/
theorem mem_copyInputs {inputs : List R} (hargs : ∀ arg ∈ inputs, arg ≠ record) (i : Nat)
    (v : UInt64) :
    v ∈ (s.copyInputs info record inputs).sets record (vcBaseIndex + i) ↔
      v ∈ s.sets record (vcBaseIndex + i) ∨
        ∃ arg, inputs[i]? = some arg ∧ v ∈ s.getReturnValueSet info arg := by
  have hpairs : ∀ (l : List (R × Nat)) (t : PlannerState R), (∀ p ∈ l, p.1 ≠ record) →
      (v ∈ (l.foldl (fun s p => (s.getReturnValueSet info p.1).foldl
          (fun s val => s.addValue record (vcBaseIndex + p.2) val) s) t).sets record
            (vcBaseIndex + i) ↔
        v ∈ t.sets record (vcBaseIndex + i) ∨
          ∃ p ∈ l, i = p.2 ∧ v ∈ t.getReturnValueSet info p.1) := by
    intro l
    induction l with
    | nil => simp
    | cons p l ih =>
      intro t hl
      have hsame : ∀ q ∈ l, ((t.getReturnValueSet info p.1).foldl
          (fun s val => s.addValue record (vcBaseIndex + p.2) val) t).getReturnValueSet info q.1 =
            t.getReturnValueSet info q.1 := by
        intro q hq
        have hsteps : RegisterSteps record t ((t.getReturnValueSet info p.1).foldl
            (fun s val => s.addValue record (vcBaseIndex + p.2) val) t) :=
          RegisterSteps.foldl _ t fun s val => RegisterSteps.addValue s _ val
        unfold getReturnValueSet at hsteps ⊢
        rw [hsteps.sets_of_ne (hl q (List.mem_cons_of_mem _ hq))]
      rw [List.foldl_cons, ih _ fun q hq => hl q (List.mem_cons_of_mem _ hq),
        mem_foldl_addValue]
      simp only [Nat.add_left_cancel_iff, true_and, List.exists_mem_cons_iff, or_assoc]
      apply or_congr_right
      apply or_congr_right
      apply exists_congr
      intro q
      apply and_congr_right
      intro hq
      rw [hsame q hq]
  unfold copyInputs
  rw [hpairs _ _ fun p hp => hargs _ (List.fst_mem_of_mem_zipIdx hp)]
  apply or_congr_right
  constructor
  · rintro ⟨p, hp, rfl, hv⟩
    exact ⟨p.1, List.mk_mem_zipIdx_iff_getElem?.mp hp, hv⟩
  · rintro ⟨arg, harg, hv⟩
    exact ⟨(arg, i), List.mk_mem_zipIdx_iff_getElem?.mpr harg, rfl, hv⟩

/-- A record that is about to be created for a shared function, with the records of its
arguments. -/
structure NewFunction (info : R → RecordInfo) (s : PlannerState R) (record : R)
    (inputs : List R) : Prop where
  shared : IsShared info record
  fresh : record ∉ s.eptable
  empty : ∀ i, s.sets record i = []
  sources : ∀ arg ∈ inputs, arg ∈ s.eptable ∧ (info arg).isSource

/-- After its creation the function has what its arguments return exactly if that is what
`getReturnValueSet` gives. -/
theorem inputsKnown_iff {inputs : List R} (h : NewFunction info s record inputs) :
    InputsKnown info s (s.functionChanges info record inputs) record inputs ↔
      ∀ arg ∈ inputs, s.ReturnsKnown info arg := by
  have hargs : ∀ arg ∈ inputs, arg ≠ record := by
    rintro arg harg rfl
    exact h.fresh (h.sources arg harg).1
  have hsets : ∀ i v, v ∈ (s.functionChanges info record inputs).sets record (vcBaseIndex + i) ↔
      ∃ arg, inputs[i]? = some arg ∧ v ∈ s.getReturnValueSet info arg := by
    intro i v
    unfold functionChanges
    simp only
    rw [if_pos ⟨h.fresh, h.shared.2⟩]
    have houtputs := (foldl_evalGoal (fun _ => record) id (fun _ => True)
      (completedGoalSet info (((s.getOrCreateCurrRecord record).addSharedFunction info
        record).copyInputs info record inputs) record)
      (((s.getOrCreateCurrRecord record).addSharedFunction info record).copyInputs info record
        inputs)).1
    simp only [if_true, id] at houtputs
    rw [houtputs.inputs record _ (Nat.le_add_right _ _), mem_copyInputs hargs]
    have hempty : v ∉ ((s.getOrCreateCurrRecord record).addSharedFunction info record).sets record
        (vcBaseIndex + i) := by
      show v ∉ s.sets record (vcBaseIndex + i)
      rw [h.empty]
      exact List.not_mem_nil
    simp only [hempty, false_or]
    rfl
  constructor
  · intro hknown arg harg
    obtain ⟨i, hi⟩ := List.mem_iff_getElem?.mp harg
    rw [returnsKnown_iff (h.sources arg harg).2]
    intro v hv
    obtain ⟨arg', harg', hv'⟩ := (hsets i v).mp (hknown i arg hi v hv)
    obtain rfl := Option.some_inj.mp (hi.symm.trans harg')
    exact hv'
  · intro hreturns i arg hi v hv
    have harg : arg ∈ inputs := List.mem_iff_getElem?.mpr ⟨i, hi⟩
    apply (hsets i v).mpr
    exact ⟨arg, hi, (returnsKnown_iff (h.sources arg harg).2).mp (hreturns arg harg) v hv⟩

open scoped FewRecords

def loadThenFunctionInfo (r : Fin 2) : RecordInfo :=
  ⟨if r = 0 then .load else .function, 0, .add, false, if r = 0 then 0 else 1⟩

def loadThenFunction : PlannerState (Fin 2) :=
  ((Call.load 0 16 none none).exec loadThenFunctionInfo .empty).registerLoadValue
    loadThenFunctionInfo 0 7 vcRfIndex

theorem inputsKnown_loadThenFunction :
    InputsKnown loadThenFunctionInfo loadThenFunction
      (loadThenFunction.functionChanges loadThenFunctionInfo 1 [0]) 1 [0] := by
  have hnew : NewFunction loadThenFunctionInfo loadThenFunction 1 [0] := by
    constructor
    · exact ⟨⟨rfl, rfl⟩, rfl⟩
    · decide
    · exact fun i => rfl
    · intro arg harg
      obtain rfl := List.mem_singleton.mp harg
      exact ⟨by decide, .inl rfl⟩
  apply (inputsKnown_iff hnew).mpr
  intro arg harg
  obtain rfl := List.mem_singleton.mp harg
  exact ⟨fun h => absurd h (by decide), fun h => absurd h (by decide)⟩

/-- Record 0 is a store, record 1 adds to its address and record 2 is a function. -/
def addThenFunctionInfo (r : Fin 3) : RecordInfo :=
  ⟨if r = 0 then .store else if r = 1 then .rmw else .function, 0, .add, false,
    if r = 2 then 1 else 0⟩

def addAfterStore (s : PlannerState (Fin 3)) : PlannerState (Fin 3) :=
  (Call.rmw 1 16 8 0 0 1 (some 0) none none none).exec addThenFunctionInfo
    ((Call.store 0 16 0 8 none none).exec addThenFunctionInfo s)

def addThenFunction : Option (PlannerState (Fin 3)) :=
  ((addAfterStore .empty).processChanges addThenFunctionInfo 20).map addAfterStore

/-- The function starts with the sum as its input and not with the value read. -/
theorem not_inputsKnown_addThenFunction :
    ∃ s, addThenFunction = some s ∧ PlannerReachable addThenFunctionInfo s ∧
      NewFunction addThenFunctionInfo s 2 [1] ∧
      ¬ InputsKnown addThenFunctionInfo s (s.functionChanges addThenFunctionInfo 2 [1]) 2 [1] := by
  have hreach : ∀ s, PlannerReachable addThenFunctionInfo s →
      PlannerReachable addThenFunctionInfo (addAfterStore s) := fun s h =>
    .call (.call h (.store 0 16 0 8 none none) (by rfl))
      (.rmw 1 16 8 0 0 1 (some 0) none none none) (by rfl)
  have hrun : ((addAfterStore .empty).processChanges addThenFunctionInfo 20).isSome = true := by
    decide +kernel
  obtain ⟨t, ht⟩ := Option.isSome_iff_exists.mp hrun
  have hempty : ∀ i, (addThenFunction.map fun s => s.sets 2 i) = some [] := fun i => rfl
  have hmiss : addThenFunction.all (fun s =>
      (2 ∉ s.eptable ∧ 1 ∈ s.eptable ∧ 0 ∈ s.sets 1 vcRfIndex ∧
        0 ∉ (s.functionChanges addThenFunctionInfo 2 [1]).sets 2 vcBaseIndex : Bool)) = true := by
    decide +kernel
  have hsecond : addThenFunction = some (addAfterStore t) := by rw [addThenFunction, ht]; rfl
  rw [hsecond, Option.all_some, decide_eq_true_eq] at hmiss
  obtain ⟨hfresh, harg, hread, hnot⟩ := hmiss
  refine ⟨addAfterStore t, hsecond, hreach t (.processChanges (hreach _ .empty) 20 ht), ?_, ?_⟩
  · constructor
    · exact ⟨⟨rfl, rfl⟩, rfl⟩
    · exact hfresh
    · intro i
      have hi := hempty i
      rwa [hsecond, Option.map_some, Option.some_inj] at hi
    · intro arg hmem
      obtain rfl := List.mem_singleton.mp hmem
      exact ⟨harg, .inr (.inl rfl)⟩
  · exact fun hknown => hnot (hknown 0 1 rfl 0 hread)

end PlannerState

end SatCheck
