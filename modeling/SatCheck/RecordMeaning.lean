import SatCheck.MemoryMeaning
import SatCheck.ProcessRecord
/-!
# What the other records do

Comparisons compare what their operands are, functions return the outputs that are known for their
inputs, a phi passes on one of its executed inputs, and a branch goes where its condition sends it.
The constraints say the same as long as a record does not meet their slips.
-/

namespace SatCheck

open Constraint

/-! ## Comparisons -/

namespace EncodingTables

variable {R : Type} (t : EncodingTables R) (returns : R → UInt64 → Prop)

/-- The comparison returns 1 where its operands are equal. -/
def Compares (record : R) : Prop :=
  ∀ v w, t.OperandIs returns record vcBaseIndex (t.getSet record vcBaseIndex) v →
    t.OperandIs returns record (vcBaseIndex + 1) (t.getSet record (vcBaseIndex + 1)) w →
      (returns record 1 ↔ v = w)

variable {t returns} {record src r₀ r₁ : R} {consts : List UInt64}

end EncodingTables

/-! ## Functions -/

namespace FunctionTables

variable {R : Type} (t : FunctionTables R) (executed : R → Prop) (returns : R → UInt64 → Prop)

/-- A function returns the outputs of the goals that its inputs match. -/
def MeetsGoals (record : R) : Prop :=
  ∀ goal ∈ t.completedGoalSet record,
    (∀ i < t.getNumFuncInputs record, ∃ input,
      t.getRevDependences record (vcBaseIndex + i) = some input ∧
        returns input (goal.getValue (vcBaseIndex + i))) → returns record goal.output

/-- A phi returns what one of its inputs returns whose guard is executed. -/
def PassesOn (record : R) : Prop :=
  (∃ p ∈ t.phiPairs record, executed p.1) →
    ∃ p ∈ t.phiPairs record, executed p.1 ∧ ∀ v, returns p.2 v → returns record v

variable {t executed returns} {record : R}

end FunctionTables

/-! ## Branches -/

namespace BranchTables

variable {R : Type} (t : BranchTables R) (executed : R → Prop) (returns : R → UInt64 → Prop)
  (dir : Option UInt64)

/-- A branch has a direction only if it is executed, and then that of its condition if it is
known. -/
structure Turns (record : R) : Prop where
  isExecuted : t.isAlwaysExecuted record = false → dir ≠ none → executed record
  selected : executed record → ∀ src, t.getRevDependences record vcBaseIndex = some src →
    ∀ v, returns src v → direction (t.getBranchAnyValue record) v ∈ t.valuevector record →
      dir = some (direction (t.getBranchAnyValue record) v)

variable {t executed returns dir} {record src : R} {val v : UInt64}

end BranchTables

end SatCheck
