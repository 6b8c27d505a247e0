import SatCheck.ExecutionEncoding
import SatCheck.ProcessFunction
/-!
# The constraints of the other records

What the constraints of a function, of a comparison and of a branch say about the values that the
records return and the directions that are taken.
-/

namespace SatCheck

open Constraint

namespace Constraint

variable {ρ : Nat → Bool} {c : Constraint} {p : Prop}

theorem Says.negate {d : Option Constraint} (h : Says ρ d p) (hsome : d ≠ none) :
    Says ρ (d.map Constraint.negate) ¬ p := by
  obtain ⟨c, rfl⟩ := Option.ne_none_iff_exists'.mp hsome
  refine ⟨implicationFree_negate c h.1, ?_⟩
  rw [eval_negate ρ c h.1, Bool.not_eq_true', ← Bool.not_eq_true, h.2]

end Constraint

/-! ## Comparisons -/

namespace EncodingTables

variable {R : Type} (t : EncodingTables R)

variable {t} {record r r₀ r₁ : R} {ρ : Nat → Bool} {v w : UInt64} {out : Nat}

end EncodingTables

/-! ## Functions -/

namespace FunctionTables

variable {R : Type} (t : FunctionTables R)

def phiPairs (record : R) : List (R × R) :=
  if t.getLoopPhi record then t.getPhiLoopTable record
  else (t.phiInputs record).map fun input => (input, input)

def isPhi (record : R) : Bool := t.getLoopPhi record || (t.info record).phi

variable {t} {record : R} {ρ : Nat → Bool} {executed : R → Prop} {goal : CGoal} {val : UInt64}

end FunctionTables

/-! ## Branches -/

namespace BranchTables

variable {R : Type} (t : BranchTables R)

variable {t} {record src : R} {ρ : Nat → Bool} {executed : R → Prop} {direction : Option UInt64}
  {val : UInt64}

end BranchTables

/-! ## The variables of the constraints -/

namespace FunctionTables

variable {R : Type} {t : FunctionTables R} {p : Nat → Bool} {record : R}

open MemoryTables

end FunctionTables

namespace BranchTables

open MemoryTables

variable {R : Type} {t : BranchTables R} {p : Nat → Bool} {record : R}

end BranchTables

namespace EncodingTables

open MemoryTables

variable {R : Type} {t : EncodingTables R} {p : Nat → Bool} {record : R}

def equalsVars (t : EncodingTables R) (record : R) : Nat :=
  match t.getRevDependences record vcBaseIndex,
    t.getRevDependences record (vcBaseIndex + 1) with
  | some r₀, some r₁ => if t.sameSet r₀ r₁ then (t.readVars r₀).length else 0
  | _, _ => 0

end EncodingTables

end SatCheck
