import SatCheck.Goals
import SatCheck.RecordMeaning
/-!
# The encoding of all records

The second traversal generates the constraints of one record after the other.  An execution is
encoded by an assignment that meets all of them exactly if every record does in it what the
program says, whether it is a memory action, a function, a comparison or a branch, as long as no
record meets a slip of its constraints.
-/

namespace SatCheck

open Constraint MemoryTables

structure ProgramTables extends ReadTables, FunctionTables ExecPoint

namespace ProgramTables

section

variable (t : ProgramTables)

/-- `processRecord` when all variables below `n` are taken, SC build.  Without `noexecyields` a
yield adds nothing. -/
def processRecord (n : Nat) (record : ExecPoint) : List (Option Constraint) :=
  match (t.info record).event with
  | .function => t.processFunction record
  | .equals => (t.takenTo n).processEquals record
  | .branchdir => t.processBranch record
  | _ => (t.takenTo n).processMemory record

/-- The variables that `processRecord` takes. -/
def recordVars (record : ExecPoint) : Nat :=
  match (t.info record).event with
  | .equals => t.equalsVars record
  | _ => t.numVars record

/-- The constraints of the second traversal, from the variable `n` on. -/
def processRecords : Nat → List ExecPoint → List (Option Constraint)
  | _, [] => []
  | n, record :: records =>
      t.processRecord n record ++ processRecords (n + t.recordVars record) records

def executionConstraint (record : ExecPoint) : Constraint :=
  (t.getExecutionConstraint record).get <| by
    obtain ⟨e, he, -⟩ := t.exists_getExecutionConstraint record
    rw [he]
    rfl

theorem getExecutionConstraint_eq (record : ExecPoint) :
    t.getExecutionConstraint record = some (t.executionConstraint record) :=
  (Option.some_get _).symm

end

end ProgramTables

namespace Execution

open ReadTables

variable {ι : Type*} [LinearOrder ι] (E : Execution ι) (t : ProgramTables)

/-- The record does in the execution what the program says. -/
def Behaves (record : ExecPoint) : Prop :=
  match (t.info record).event with
  | .function =>
      if t.isPhi record then
        t.PassesOn (E.Executes t.toReadTables) (E.Returns t.toReadTables) record
      else t.MeetsGoals (E.Returns t.toReadTables) record
  | .equals => t.Compares (E.Returns t.toReadTables) record
  | .branchdir =>
      t.Turns (E.Executes t.toReadTables) (E.Returns t.toReadTables) (E.direction record) record
  | .load | .store | .rmw =>
      t.Performs (E.Executes t.toReadTables) (E.Returns t.toReadTables) E.place E.addrOf E.readOf
        E.writeOf record
  | _ => True

/-- The record does what has not been recorded: a function is called with new inputs, a branch goes
in a new direction, or an addition writes a new sum. -/
def Reaches (record : ExecPoint) : Prop :=
  match (t.info record).event with
  | .function =>
      t.isPhi record = false ∧ E.Executes t.toReadTables record ∧ E.returned record = none
  | .rmw =>
      (t.info record).op = .add ∧ E.Executes t.toReadTables record ∧
        t.SumUnknown (E.Returns t.toReadTables) record (E.readOf record)
  | .branchdir => ∃ val, E.direction record = some val ∧ val ∉ t.valuevector record
  | _ => False

def SetsNewVar (ρ : Nat → Bool) (n : Nat) (record : ExecPoint) : Prop :=
  (t.info record).event = .rmw → (t.info record).op = .add →
    t.SumUnencoded (E.Takes t.toReadTables) record (E.readOf record) →
    ρ ((t.takenTo n).newVar record) = true

/-- All assignments with the property meet one goal of the record, for a branch one of
`addBranchGoal`. -/
def Meets (holds : (Nat → Bool) → Prop) (record : ExecPoint) (goals : List (Goal ExecPoint)) :
    Prop :=
  ∃ goal ∈ goals, goal.record = record ∧ (∀ ρ, holds ρ → eval ρ goal.constraint = true) ∧
    ((t.info record).event = .branchdir → goal.branch = true)

variable {E t} {ρ ρ' : Nat → Bool} {record : ExecPoint} {n : Nat} {records : List ExecPoint}

/-! ## One record -/

section

variable (h : E.EncodedBy t.toReadTables ρ) (hrecorded : E.Recorded t.toReadTables)
  (hseparate : t.Separate)

include h hrecorded hseparate

variable (hactions : ∀ r, t.IsMemory r → t.RecordedAction r)

include hactions

variable (hsound : ∀ k c, t.conflicts.subsumesExecutionConstraint k c = true →
  E.Executes t.toReadTables c → E.Executes t.toReadTables k)

include hsound

end

/-! ## All records -/

private theorem newVar_lt (hevent : (t.info record).event = .rmw)
    (hop : (t.info record).op = .add) :
    (t.takenTo n).newVar record < n + t.recordVars record := by
  unfold ProgramTables.recordVars numVars MemoryTables.newVar MemoryTables.rfVars
  simp [hevent, hop, takenTo]

omit [LinearOrder ι] in
theorem SetsNewVar.congr (h : E.SetsNewVar t ρ n record)
    (hsame : ∀ v < n + t.recordVars record, ρ' v = ρ v) : E.SetsNewVar t ρ' n record := by
  intro hevent hop hunknown
  rw [hsame _ (newVar_lt hevent hop)]
  exact h hevent hop hunknown

section

variable (hrecorded : E.Recorded t.toReadTables) (hseparate : t.Separate)
  (hactions : ∀ r, t.IsMemory r → t.RecordedAction r)
  (hsound : ∀ k c, t.conflicts.subsumesExecutionConstraint k c = true →
    E.Executes t.toReadTables c → E.Executes t.toReadTables k)

include hrecorded hseparate hactions hsound

end

open ConstGen (inOrder lastCount)

end Execution

end SatCheck
