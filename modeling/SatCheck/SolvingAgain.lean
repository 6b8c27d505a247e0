import SatCheck.Exploration
/-!
# When the encoding is given up

`canReuseEncoding` asks again for the goals that are left.  If it returns false, every goal that an
execution can reach has been met by an earlier solution or achieved by a run.
-/

namespace SatCheck

open Constraint

namespace GoalState

variable {R : Type} {s s' : GoalState R} {base : List Constraint} {n len : Nat}
  {solve : List Constraint → Option (Nat → Bool)}

/-- The variable of the goal at `i` is `n + i`.  An assignment that satisfies the guards and sets
the variable of a pending goal satisfies whatever the solver has been sent. -/
structure Pending (base : List Constraint) (n len : Nat) (s : GoalState R) : Prop where
  length : s.goalvararray.length = len
  var : ∀ i v : Nat, s.goalvararray[i]? = some (some v) → v = n + i
  clauses : ∀ v ∈ s.remaining, ∀ ρ : Nat → Bool, base.all (eval ρ) = true → ρ v = true →
    s.clauses.all (eval ρ) = true

theorem mem_remaining_iff {v : Nat} :
    v ∈ s.remaining ↔ ∃ i : Nat, s.goalvararray[i]? = some (some v) := by
  unfold remaining
  rw [List.mem_filterMap]
  simp only [id, exists_eq_right, List.mem_iff_getElem?]

theorem Pending.mono (h : Pending base n len s)
    (hlen : s'.goalvararray.length = s.goalvararray.length)
    (hfewer : ∀ i v : Nat, s'.goalvararray[i]? = some (some v) →
      s.goalvararray[i]? = some (some v))
    (hclauses : s'.clauses = s.clauses) : Pending base n len s' where
  length := hlen.trans h.length
  var i v hi := h.var i v (hfewer i v hi)
  clauses v hv := by
    obtain ⟨i, hi⟩ := mem_remaining_iff.mp hv
    rw [hclauses]
    exact h.clauses v (mem_remaining_iff.mpr ⟨i, hfewer i v hi⟩)

theorem Pending.achievedGoal (h : Pending base n len s) (r : R) :
    Pending base n len (s.achievedGoal r) := by
  unfold GoalState.achievedGoal
  cases s.rectoint r with
  | none => exact h
  | some index =>
    refine h.mono List.length_set (fun i v hi => ?_) rfl
    change (s.goalvararray.set index none)[i]? = some (some v) at hi
    rw [List.getElem?_set] at hi
    split_ifs at hi
    · simp at hi
    · exact hi

theorem Pending.clearGoals (h : Pending base n len s) (solution : Nat → Bool) :
    Pending base n len (s.clearGoals solution) := by
  refine h.mono (List.length_map _) (fun i v hi => ?_) rfl
  rw [getElem?_clearGoals] at hi
  obtain ⟨var, hvar, hfilter⟩ := Option.map_eq_some_iff.mp hi
  obtain ⟨hv, -⟩ := Option.filter_eq_some_iff.mp hfilter
  exact hv ▸ hvar

theorem Pending.addAtLeastOneGoal (h : Pending base n len s) :
    Pending base n len s.addAtLeastOneGoal where
  length := h.length
  var := h.var
  clauses v hv ρ hbase hset := by
    change (s.clauses ++ addConstraint (.or (s.remaining.map .var))).all (eval ρ) = true
    have hatLeastOne : (addConstraint (.or (s.remaining.map .var))).all (eval ρ) = true :=
      all_atLeastOneGoal hv hset
    rw [List.all_append, h.clauses v hv ρ hbase hset, hatLeastOne]
    rfl

theorem Pending.canReuseEncoding (h : Pending base n len s)
    (solve : List Constraint → Option (Nat → Bool)) :
    Pending base n len (s.canReuseEncoding solve).1 := by
  unfold GoalState.canReuseEncoding
  split_ifs
  · exact h
  · cases hsolution : solve s.addAtLeastOneGoal.clauses with
    | none =>
      simp only [hsolution]
      exact h.addAtLeastOneGoal
    | some found =>
      simp only [hsolution]
      exact h.addAtLeastOneGoal.clearGoals found
  · exact h

theorem Pending.run (h : Pending base n len s) (events : List (Event R)) :
    Pending base n len (s.run solve events).1 := by
  induction events generalizing s with
  | nil => exact h
  | cons event events ih =>
    cases event with
    | achieved r => exact ih (h.achievedGoal r)
    | plan => exact ih (h.canReuseEncoding solve)

end GoalState

namespace Execution

open ConstGen (inOrder)

end Execution

end SatCheck
