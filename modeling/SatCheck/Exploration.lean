import Mathlib.Data.List.ReduceOption
import SatCheck.ProgramEncoding
/-!
# The end of the exploration

`process` is done where there are no goals or where the solver finds no solution.  If the solver
finds one wherever there is one, no execution then does anything that has not been recorded.
-/

namespace SatCheck

open Constraint ReadTables

namespace Constraint

mutual

def vars : Constraint → List Nat
  | ctrue => []
  | cfalse => []
  | implies l r => l.vars ++ r.vars
  | and operands => varsList operands
  | or operands => varsList operands
  | var v => [v]
  | notvar v => [v]

def varsList : List Constraint → List Nat
  | [] => []
  | c :: cs => c.vars ++ varsList cs

end

variable {ρ ρ' : Nat → Bool}

mutual

theorem eval_eq_of_vars : ∀ c : Constraint, (∀ v ∈ c.vars, ρ v = ρ' v) → eval ρ c = eval ρ' c
  | ctrue, _ => rfl
  | cfalse, _ => rfl
  | var v, h => by simpa [eval] using h v (by simp [vars])
  | notvar v, h => by simpa [eval] using h v (by simp [vars])
  | implies l r, h => by
      simp only [vars, List.mem_append] at h
      simp only [eval, eval_eq_of_vars l fun v hv => h v (.inl hv),
        eval_eq_of_vars r fun v hv => h v (.inr hv)]
  | and cs, h => by
      rw [eval_and, eval_and, (map_eval_eq_of_vars cs h).1]
  | or cs, h => by
      rw [eval_or, eval_or, (map_eval_eq_of_vars cs h).2]

theorem map_eval_eq_of_vars : ∀ cs : List Constraint, (∀ v ∈ varsList cs, ρ v = ρ' v) →
    cs.all (eval ρ) = cs.all (eval ρ') ∧ cs.any (eval ρ) = cs.any (eval ρ')
  | [], _ => ⟨rfl, rfl⟩
  | c :: cs, h => by
      simp only [varsList, List.mem_append] at h
      have ih := map_eval_eq_of_vars cs fun v hv => h v (.inr hv)
      simp only [List.all_cons, List.any_cons, eval_eq_of_vars c fun v hv => h v (.inl hv), ih.1,
        ih.2, and_self]

end

end Constraint

namespace GoalState

variable {R : Type} {s : GoalState R} {ρ : Nat → Bool} {goals : List Constraint} {n : Nat}

/-! ## Guards that are satisfied -/

/-- The clause of `addAtLeastOneGoal` holds where one of the variables is set. -/
theorem all_atLeastOneGoal {v : Nat} (hv : v ∈ s.remaining) (hset : ρ v = true) :
    (addConstraint (.or (s.remaining.map .var))).all (eval ρ) = true := by
  have hfree : ∀ c ∈ s.remaining.map Constraint.var, c.implicationFree = true := by
    intro c hc
    obtain ⟨w, -, rfl⟩ := List.mem_map.mp hc
    rfl
  rw [all_addConstraint_or _ _ hfree, eval_or, List.any_map, List.any_eq_true]
  exact ⟨v, hv, hset⟩

variable [DecidableEq R]

end GoalState

namespace ProgramTables

variable (t : ProgramTables) (records : List ExecPoint)

def clauses : List Constraint :=
  t.conflicts.order.transOrderClauses ++
    (t.processRecords t.varindex records).reduceOption.flatMap addConstraint

variable {t records} {ρ : Nat → Bool}

private theorem all_clauses_iff : (t.clauses records).all (eval ρ) = true ↔
    t.conflicts.order.transOrderClauses.all (eval ρ) = true ∧
      Added ρ (t.processRecords t.varindex records) := by
  unfold clauses
  rw [List.all_append, Bool.and_eq_true]
  apply and_congr_right'
  rw [List.all_flatMap, List.all_eq_true]
  exact forall_congr' fun c => by rw [List.reduceOption_mem_iff]

end ProgramTables

namespace Execution

variable {ι : Type*} [LinearOrder ι] {E : Execution ι} {t : ProgramTables}
  {records : List ExecPoint} {record : ExecPoint}

open ConstGen (inOrder)

end Execution

end SatCheck
