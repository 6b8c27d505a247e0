import SatCheck.ProcessBranch
import SatCheck.Planner
/-!
# Functions

`processFunction` ties the output of a function to its inputs: a phi to the inputs that are
executed, any other function to its completed goals.
-/

namespace SatCheck

open Constraint

/-- The tables with those of the functions: the number of inputs, the completed goals and, for a
phi, the records in its input vector and the pairs of its loop table. -/
structure FunctionTables (R : Type) extends BranchTables R where
  getNumFuncInputs : R → Nat
  completedGoalSet : R → List CGoal
  getLoopPhi : R → Bool
  phiInputs : R → List R
  getPhiLoopTable : R → List (R × R)

namespace FunctionTables

variable {R : Type} (t : FunctionTables R)

/-- The constraints for one input of a phi, which is passed on when `guard` is executed.  A value
that the input does not encode is left out. -/
def phiImplications (record guard input : R) : List (Option Constraint) :=
  (t.getSet record vcBaseIndex).flatMap fun value =>
    match t.getRetValueEncoding input value with
    | none => []
    | some inputencoding =>
        [EncodingTables.imply (both (some inputencoding) (t.getExecutionConstraint guard))
          (t.getRetValueEncoding record value)]

def processLoopPhi (record : R) : List (Option Constraint) :=
  (t.getPhiLoopTable record).flatMap fun rip => t.phiImplications record rip.1 rip.2

def processPhi (record : R) : List (Option Constraint) :=
  (t.phiInputs record).flatMap fun input => t.phiImplications record input input

/-- The `badvalue` loop lets the goal through. -/
def Applicable (record : R) (goal : CGoal) : Prop :=
  (t.info record).isSharedGoals = true → ∀ i < t.getNumFuncInputs record,
    goal.getValue (vcBaseIndex + i) ∈ t.getSet record (vcBaseIndex + i)

instance (record : R) (goal : CGoal) : Decidable (t.Applicable record goal) := by
  unfold Applicable
  infer_instance

/-- `carray`: every input is asserted to encode the value of the goal. -/
def inputEncodings (record : R) (goal : CGoal) : Option (List Constraint) :=
  (List.range (t.getNumFuncInputs record)).mapM fun i =>
    (t.getRevDependences record (vcBaseIndex + i)).bind fun input =>
      t.getRetValueEncoding input (goal.getValue (vcBaseIndex + i))

def functionimpl (record : R) (goal : CGoal) : Option Constraint :=
  let outputconstraint := t.getRetValueEncoding record goal.output
  if t.getNumFuncInputs record = 0 then outputconstraint
  else EncodingTables.imply ((t.inputEncodings record goal).map .and) outputconstraint

def processFunction (record : R) : List (Option Constraint) :=
  if t.getLoopPhi record then t.processLoopPhi record
  else if (t.info record).phi then t.processPhi record
  else ((t.completedGoalSet record).filter fun goal => t.Applicable record goal).map
    (t.functionimpl record)

/-- The goal `newfunc`: the function holds the code that no output has and is executed. -/
def newfunc (record : R) : Option Constraint :=
  both (some (.and ((t.functiontable record).map .var))) (t.getExecutionConstraint record)

/-! ## Functions with goals -/

structure RecordedFunction (record : R) : Prop where
  event : (t.info record).event = .function
  phi : (t.info record).phi = false
  loopphi : t.getLoopPhi record = false
  inputs : ∀ i < t.getNumFuncInputs record, ∃ input,
    t.getRevDependences record (vcBaseIndex + i) = some input ∧
      ∀ v, t.Encodable input v → t.IsReturned input v → v ∈ t.getSet record (vcBaseIndex + i)
  outputs : ∀ goal ∈ t.completedGoalSet record, t.Applicable record goal →
    goal.output ∈ t.getSet record vcFuncoutIndex

def InputsEncode (ρ : Nat → Bool) (record : R) (values : List UInt64) : Prop :=
  values.length = t.getNumFuncInputs record ∧
    ∀ p ∈ values.zipIdx, ∀ input,
      t.getRevDependences record (vcBaseIndex + p.2) = some input → t.Encodes ρ input p.1

variable {t} {record : R} {ρ : Nat → Bool} {goal : CGoal} {values : List UInt64}

private theorem getValue_add (goal : CGoal) (i : Nat) :
    goal.getValue (vcBaseIndex + i) = goal.inputs.getD i 0 := by
  rw [CGoal.getValue, if_neg (by omega), Nat.add_sub_cancel_left]

/-- The record of each input encodes the value that a matching goal has for it. -/
theorem InputsEncode.encodes (h : t.InputsEncode ρ record goal.inputs) {i : Nat}
    (hi : i < t.getNumFuncInputs record) {input : R}
    (hinput : t.getRevDependences record (vcBaseIndex + i) = some input) :
    t.Encodes ρ input (goal.getValue (vcBaseIndex + i)) := by
  have hlen : i < goal.inputs.length := by rw [h.1]; exact hi
  apply h.2 (goal.getValue (vcBaseIndex + i), i) _ input hinput
  rw [List.mem_zipIdx_iff_getElem?, getValue_add]
  simp [hlen]

theorem applicable_of_inputs (h : t.RecordedFunction record)
    (hinputs : t.InputsEncode ρ record goal.inputs) : t.Applicable record goal := by
  intro _ i hi
  obtain ⟨input, hinput, hset⟩ := h.inputs i hi
  have hvalue := hinputs.encodes hi hinput
  exact hset _ hvalue.encodable hvalue.isReturned

theorem inputEncodings_of_inputs (h : t.RecordedFunction record)
    (hinputs : t.InputsEncode ρ record goal.inputs) :
    ∃ carray, t.inputEncodings record goal = some carray ∧
      ∀ c ∈ carray, c.implicationFree = true ∧ eval ρ c = true := by
  have hrange : ∀ is : List Nat, (∀ i ∈ is, i < t.getNumFuncInputs record) →
      ∃ carray, (is.mapM fun i => (t.getRevDependences record (vcBaseIndex + i)).bind fun input =>
          t.getRetValueEncoding input (goal.getValue (vcBaseIndex + i))) = some carray ∧
        ∀ c ∈ carray, c.implicationFree = true ∧ eval ρ c = true := by
    intro is
    induction is with
    | nil => exact fun _ => ⟨[], rfl, by simp⟩
    | cons i is ih =>
      intro his
      rw [List.forall_mem_cons] at his
      obtain ⟨carray, hcarray, hholds⟩ := ih his.2
      obtain ⟨input, hinput, -⟩ := h.inputs i his.1
      obtain ⟨c, hc, hfree, heval⟩ := (hinputs.encodes his.1 hinput).encoding
      refine ⟨c :: carray, ?_, ?_⟩
      · simp [List.mapM_cons, hinput, hc, hcarray]
      · rw [List.forall_mem_cons]
        exact ⟨⟨hfree, heval⟩, hholds⟩
  exact hrange _ fun i hi => List.mem_range.mp hi

theorem code_succ_lt_of_encodes (h : t.RecordedFunction record) {v : UInt64}
    (hv : t.Encodes ρ record v) :
    code ρ (t.functiontable record) + 1 < 2 ^ (t.functiontable record).length := by
  unfold EncodingTables.Encodes at hv
  simp only [h.event, EncodingTables.functionSet, h.phi, Bool.false_eq_true, if_false] at hv
  obtain ⟨hmem, hcode⟩ := hv
  have hidx := List.idxOf_lt_length_iff.mpr hmem
  have hsize := Nat.lt_size_self (t.getSet record vcFuncoutIndex).length
  rw [t.functionVars, h.phi, hcode]
  simp only [numBits, Bool.false_eq_true, if_false, Nat.succ_ne_zero, Nat.add_sub_cancel]
  omega

/-- A function whose inputs match a completed goal encodes the output of the goal. -/
theorem encodes_output (h : t.RecordedFunction record)
    (hadded : Added ρ (t.processFunction record)) (hgoal : goal ∈ t.completedGoalSet record)
    (hinputs : t.InputsEncode ρ record goal.inputs) : t.Encodes ρ record goal.output := by
  have happlicable := applicable_of_inputs h hinputs
  have houtput : goal.output ∈ t.functionSet record := by
    simpa [EncodingTables.functionSet, h.phi] using h.outputs goal hgoal happlicable
  have hmem : t.functionimpl record goal ∈ t.processFunction record := by
    unfold processFunction
    simp only [h.loopphi, h.phi, Bool.false_eq_true, if_false]
    apply List.mem_map_of_mem
    simp [hgoal, happlicable]
  obtain ⟨out, hout, hfree, hcode⟩ := t.eval_functionEncoding houtput
  have hretval : t.getRetValueEncoding record goal.output = some out := by
    unfold EncodingTables.getRetValueEncoding
    simp [h.event, hout]
  have heval : eval ρ out = true := by
    by_cases hnone : t.getNumFuncInputs record = 0
    · rw [functionimpl, if_pos hnone, hretval] at hmem
      have hclauses := hadded out hmem
      rw [EncodingTables.functionEncoding, if_pos houtput] at hout
      obtain rfl := Option.some.inj hout
      rwa [all_addConstraint_generateConstraint] at hclauses
    · obtain ⟨carray, hcarray, hholds⟩ := inputEncodings_of_inputs h hinputs
      rw [functionimpl, if_neg hnone, hretval, hcarray, Option.map_some,
        EncodingTables.imply_some] at hmem
      apply hadded.of_implies hmem _ hfree _
      · rw [implicationFree_and, List.all_eq_true]
        exact fun c hc => (hholds c hc).1
      · rw [eval_and, List.all_eq_true]
        exact fun c hc => (hholds c hc).2
  unfold EncodingTables.Encodes
  simp only [h.event]
  exact ⟨houtput, (hcode ρ).mp heval⟩

/-- A function encodes the output of the goal that its inputs match, and if it meets the goal of a
new function then its inputs match no completed goal. -/
theorem processFunction_spec {R : Type} {t : FunctionTables R} {record : R}
    (h : t.RecordedFunction record) {ρ : Nat → Bool} (hadded : Added ρ (t.processFunction record))
    {values : List UInt64} (hinputs : t.InputsEncode ρ record values) :
    (∀ goal ∈ t.completedGoalSet record, goal.inputs = values →
      t.Encodes ρ record goal.output) ∧
    (∀ c, t.newfunc record = some c → eval ρ c = true →
      ∀ goal ∈ t.completedGoalSet record, goal.inputs ≠ values) := by
  have houtput : ∀ goal ∈ t.completedGoalSet record, goal.inputs = values →
      t.Encodes ρ record goal.output := by
    rintro goal hgoal rfl
    exact encodes_output h hadded hgoal hinputs
  refine ⟨houtput, ?_⟩
  intro c hc heval goal hgoal hmatch
  have hlt := code_succ_lt_of_encodes h (houtput goal hgoal hmatch)
  cases hexec : t.getExecutionConstraint record with
  | none => simp [newfunc, hexec, both] at hc
  | some e =>
    rw [newfunc, hexec, both_some] at hc
    obtain rfl := Option.some.inj hc
    rw [eval_and, List.all_cons, Bool.and_eq_true, eval_and_vars] at heval
    omega

open scoped FewRecords

private theorem valVars_functionOfEquals (_ : Fin 2) :
    ([] : List Nat).length = numBits ([0] : List UInt64).length := rfl

/-- Record 0 compares two values, and record 1 is a function of the comparison, which has returned
5 for 1. -/
def functionOfEquals : FunctionTables (Fin 2) where
  info r := ⟨if r = 0 then .equals else .function, 0, .add, false, 0⟩
  getSet r i :=
    if r = 0 then [] else if i = vcBaseIndex then [0, 1] else if i = vcFuncoutIndex then [5] else []
  getRevDependences r i := if r = 1 ∧ i = vcBaseIndex then some 0 else none
  equalstable _ := 1
  functiontable r := if r = 0 then [] else [2]
  getStoreLoadSet _ := 0
  getValues _ := [0]
  getValVars _ := []
  getRMWRValVars _ := []
  varindex := 3
  functionVars r := by by_cases h : r = 0 <;> simp [h, numBits]
  valVars := valVars_functionOfEquals
  rmwrValVars := valVars_functionOfEquals
  valuevector r := if r = 0 then [1, 0] else [5]
  getLen _ := 8
  getBranchAnyValue _ := false
  branch _ := none
  execcondtable _ := []
  branchtable _ := []
  inserted r hbranch := by by_cases h : r = 0 <;> simp [h] at hbranch
  getNumFuncInputs _ := 1
  completedGoalSet _ := [⟨[1], 5⟩]
  getLoopPhi _ := false
  phiInputs _ := []
  getPhiLoopTable _ := []

theorem encodes_functionOfEquals : functionOfEquals.Encodes (fun v => v = 1) 1 5 := by
  have hfunction : functionOfEquals.RecordedFunction 1 := by
    refine ⟨rfl, rfl, rfl, ?_, by decide⟩
    intro i hi
    obtain rfl : i = 0 := Nat.lt_one_iff.mp hi
    refine ⟨0, rfl, fun v _ hreturned => ?_⟩
    rcases hreturned rfl with rfl | rfl <;> decide
  have hadded : Added (fun v => v = 1) (functionOfEquals.processFunction 1) :=
    added_of_all (by decide)
  have hinputs : functionOfEquals.InputsEncode (fun v => v = 1) 1 [1] := by
    refine ⟨rfl, ?_⟩
    intro p hp input hinput
    obtain rfl : p = (1, 0) := List.mem_singleton.mp hp
    obtain rfl : 0 = input := Option.some.inj hinput
    rfl
  exact (processFunction_spec hfunction hadded hinputs).1 ⟨[1], 5⟩ List.mem_cons_self rfl

end FunctionTables

end SatCheck
