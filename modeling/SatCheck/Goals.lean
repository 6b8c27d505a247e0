import SatCheck.BranchRecord
import SatCheck.ProcessFunction
/-!
# Goals and incremental solving

`process` guards each goal by a new variable and asks the solver for a solution in which one of
the variables holds; `canReuseEncoding` asks again for the goals that are left.  A goal is cleared
by a solution in which its variable holds, and by a run that achieves it.
-/

namespace SatCheck

open Constraint

/-- A goal of a record, which `processBranch`, `processAdd` or `processFunction` adds. -/
structure Goal (R : Type) where
  record : R
  constraint : Constraint
  free : constraint.implicationFree = true
  branch : Bool

namespace BranchTables

variable {R : Type} (t : BranchTables R)

end BranchTables

/-- What `ConstGen` has for its goals.  `clauses` are those that the solver has been sent. -/
structure GoalState (R : Type) where
  goalset : List Constraint
  rectoint : R → Option Nat
  has_untaken_branches : Bool
  goalvararray : List (Option Nat)
  varindex : Nat
  solver : Bool
  clauses : List Constraint

namespace GoalState

variable {R : Type} [DecidableEq R]

/-- After `reset`, with the clauses of the encoding and its next variable. -/
def new (clauses : List Constraint) (varindex : Nat) : GoalState R where
  goalset := []
  rectoint := fun _ => none
  has_untaken_branches := false
  goalvararray := []
  varindex := varindex
  solver := true
  clauses := clauses

def addGoal (s : GoalState R) (goal : Goal R) : GoalState R :=
  { s with
    has_untaken_branches := s.has_untaken_branches || goal.branch
    rectoint := Function.update s.rectoint goal.record (some s.goalset.length)
    goalset := s.goalset ++ [goal.constraint] }

def achievedGoal (s : GoalState R) (r : R) : GoalState R :=
  match s.rectoint r with
  | none => s
  | some index => { s with goalvararray := s.goalvararray.set index none }

/-- One iteration of the loop of `translateGoals`. -/
def guardGoal (s : GoalState R) (goal : Constraint) : GoalState R :=
  { s with
    goalvararray := s.goalvararray ++ [some s.varindex]
    varindex := s.varindex + 1
    clauses := s.clauses ++ addConstraint (.or [(Constraint.var s.varindex).negate, goal]) }

def remaining (s : GoalState R) : List Nat := s.goalvararray.filterMap id

def addAtLeastOneGoal (s : GoalState R) : GoalState R :=
  { s with clauses := s.clauses ++ addConstraint (.or (s.remaining.map .var)) }

def translateGoals (s : GoalState R) : GoalState R :=
  (s.goalset.foldl guardGoal s).addAtLeastOneGoal

def clearGoals (solution : Nat → Bool) (s : GoalState R) : GoalState R :=
  { s with goalvararray := s.goalvararray.map fun var => var.filter fun v => !solution v }

/-- `process` behind `traverse`, which has added the goals; `solve` is what the solver answers to
the clauses. -/
def process (solve : List Constraint → Option (Nat → Bool)) (branches : Bool)
    (s : GoalState R) : Bool × GoalState R :=
  let s := s.translateGoals
  if s.goalset.length = 0 then (true, { s with solver := false })
  else if branches ∧ ¬ s.has_untaken_branches then (true, { s with solver := false })
  else
    match solve s.clauses with
    | none => (true, { s with solver := false })
    | some solution => (false, s.clearGoals solution)

/-- The solution with which `canReuseEncoding` returns true, or `none` where it returns false. -/
def canReuseEncoding (solve : List Constraint → Option (Nat → Bool)) (s : GoalState R) :
    GoalState R × Option (Nat → Bool) :=
  if s.solver then
    if s.remaining.length = 0 then (s, none)
    else
      let s := s.addAtLeastOneGoal
      match solve s.clauses with
      | none => (s, none)
      | some solution => (s.clearGoals solution, some solution)
  else (s, none)

/-- What happens to an encoding: a run achieves the goal of a record, or `plan` solves again. -/
inductive Event (R : Type) where
  | achieved (r : R)
  | plan

/-- The state after some events, and the number of calls of `canReuseEncoding` that returned
true. -/
def run (solve : List Constraint → Option (Nat → Bool)) (s : GoalState R) :
    List (Event R) → GoalState R × Nat
  | [] => (s, 0)
  | .achieved r :: events => run solve (s.achievedGoal r) events
  | .plan :: events =>
      let (s, solution) := s.canReuseEncoding solve
      let (s, successes) := run solve s events
      (s, successes + if solution.isSome then 1 else 0)

end GoalState

/-- The solver answers satisfiable only with an assignment that satisfies every clause. -/
def SoundSolver (solve : List Constraint → Option (Nat → Bool)) : Prop :=
  ∀ clauses solution, solve clauses = some solution → clauses.all (eval solution) = true

namespace GoalState

variable {R : Type} {s s' : GoalState R} {goals : List (Goal R)}
variable {solve : List Constraint → Option (Nat → Bool)} {solution : Nat → Bool}

def Cleared (s s' : GoalState R) (i : Nat) : Prop :=
  (∃ v, s.goalvararray[i]? = some (some v)) ∧ s'.goalvararray[i]? = some none

/-- A pending goal has a variable whose clauses the solver has been sent. -/
def Guarded (goals : List (Goal R)) (s : GoalState R) : Prop :=
  ∀ i v : Nat, s.goalvararray[i]? = some (some v) → ∃ goal : Goal R, goals[i]? = some goal ∧
    ∀ c ∈ addConstraint (.or [(Constraint.var v).negate, goal.constraint]), c ∈ s.clauses

/-! ## Guards -/

private theorem guarded_guardGoal (h : Guarded goals s)
    (hlen : s.goalvararray.length = goals.length)
    (goal : Goal R) : Guarded (goals ++ [goal]) (s.guardGoal goal.constraint) := by
  intro i v hi
  change (s.goalvararray ++ [some s.varindex])[i]? = some (some v) at hi
  show ∃ goal' : Goal R, (goals ++ [goal])[i]? = some goal' ∧ ∀ c ∈ addConstraint _,
    c ∈ s.clauses ++ addConstraint _
  by_cases hlt : i < goals.length
  · rw [List.getElem?_append_left (by omega)] at hi
    obtain ⟨goal', hgoal', hclauses⟩ := h i v hi
    refine ⟨goal', ?_, fun c hc => List.mem_append_left _ (hclauses c hc)⟩
    rw [List.getElem?_append_left hlt, hgoal']
  · have hlast : i = goals.length := by
      have hbound := (List.getElem?_eq_some_iff.mp hi).1
      rw [List.length_append, List.length_singleton] at hbound
      omega
    subst hlast
    rw [← hlen, List.getElem?_concat_length] at hi
    obtain rfl := Option.some.inj (Option.some.inj hi)
    exact ⟨goal, List.getElem?_concat_length, fun c hc => List.mem_append_right _ hc⟩

theorem guarded_foldl_guardGoal (h : Guarded goals s)
    (hlen : s.goalvararray.length = goals.length) (rest : List (Goal R)) :
    Guarded (goals ++ rest) ((rest.map Goal.constraint).foldl guardGoal s) ∧
      ((rest.map Goal.constraint).foldl guardGoal s).goalvararray.length =
        (goals ++ rest).length := by
  induction rest generalizing goals s with
  | nil => exact ⟨by simpa using h, by simpa using hlen⟩
  | cons goal rest ih =>
    have hnext : (s.guardGoal goal.constraint).goalvararray.length =
        (goals ++ [goal]).length := by simp [guardGoal, hlen]
    rw [List.append_cons]
    exact ih (guarded_guardGoal h hlen goal) hnext

theorem Guarded.addAtLeastOneGoal (h : Guarded goals s) : Guarded goals s.addAtLeastOneGoal := by
  intro i v hi
  obtain ⟨goal, hgoal, hclauses⟩ := h i v hi
  exact ⟨goal, hgoal, fun c hc => List.mem_append_left _ (hclauses c hc)⟩

theorem Guarded.achievedGoal (h : Guarded goals s) (r : R) :
    Guarded goals (s.achievedGoal r) := by
  unfold GoalState.achievedGoal
  cases s.rectoint r with
  | none => exact h
  | some index =>
    intro i v hi
    change (s.goalvararray.set index none)[i]? = some (some v) at hi
    rw [List.getElem?_set] at hi
    split_ifs at hi
    · simp at hi
    · exact h i v hi

theorem getElem?_clearGoals (solution : Nat → Bool) (s : GoalState R) (i : Nat) :
    (s.clearGoals solution).goalvararray[i]? =
      s.goalvararray[i]?.map fun var => var.filter fun v => !solution v :=
  List.getElem?_map

theorem Guarded.clearGoals (h : Guarded goals s) (solution : Nat → Bool) :
    Guarded goals (s.clearGoals solution) := by
  intro i v hi
  rw [getElem?_clearGoals] at hi
  obtain ⟨var, hvar, hfilter⟩ := Option.map_eq_some_iff.mp hi
  obtain ⟨hv, -⟩ := Option.filter_eq_some_iff.mp hfilter
  exact h i v (hv ▸ hvar)

/-! ## The goals that are left -/

theorem remaining_clearGoals (solution : Nat → Bool) (s : GoalState R) :
    (s.clearGoals solution).remaining = s.remaining.filter fun v => !solution v := by
  unfold remaining GoalState.clearGoals
  rw [List.filterMap_map]
  induction s.goalvararray with
  | nil => rfl
  | cons var rest ih =>
    cases var with
    | none => simpa using ih
    | some v => cases hv : solution v <;> simpa [hv, Option.filter] using ih

theorem length_remaining_achievedGoal (s : GoalState R) (r : R) :
    (s.achievedGoal r).remaining.length ≤ s.remaining.length := by
  unfold GoalState.achievedGoal
  cases s.rectoint r with
  | none => exact le_rfl
  | some index =>
    apply List.Sublist.length_le
    show ((s.goalvararray.set index none).filterMap id).Sublist (s.goalvararray.filterMap id)
    induction s.goalvararray generalizing index with
    | nil => simp
    | cons var rest ih =>
      cases index with
      | zero => cases var <;> simp
      | succ index =>
        cases var with
        | none => simpa using ih index
        | some v => simpa using ih index

theorem cleared_clearGoals_iff {i : Nat} : Cleared s (s.clearGoals solution) i ↔
    ∃ v, s.goalvararray[i]? = some (some v) ∧ solution v = true := by
  unfold Cleared
  rw [getElem?_clearGoals]
  constructor
  · rintro ⟨⟨v, hv⟩, hnone⟩
    refine ⟨v, hv, ?_⟩
    rw [hv] at hnone
    cases hsolution : solution v with
    | true => rfl
    | false => simp [Option.filter, hsolution] at hnone
  · rintro ⟨v, hv, hsolution⟩
    exact ⟨⟨v, hv⟩, by simp [hv, Option.filter, hsolution]⟩

/-! ## Solving -/

theorem exists_mem_remaining (h : (addConstraint (.or (s.remaining.map .var))).all
    (eval solution) = true) : ∃ v ∈ s.remaining, solution v = true := by
  rw [all_addConstraint_or _ _ (by simp), eval_or, List.any_map, List.any_eq_true] at h
  simpa using h

private theorem eval_of_guard {v : Nat} {goal : Goal R} {clauses : List Constraint}
    (hclauses : clauses.all (eval solution) = true)
    (hsent : ∀ c ∈ addConstraint (.or [(Constraint.var v).negate, goal.constraint]), c ∈ clauses)
    (hv : solution v = true) : eval solution goal.constraint = true := by
  have hguard : (addConstraint (.or [(Constraint.var v).negate, goal.constraint])).all
      (eval solution) = true :=
    List.all_eq_true.mpr fun c hc => List.all_eq_true.mp hclauses c (hsent c hc)
  rw [all_addConstraint_or _ _ (by simp [goal.free])] at hguard
  simpa [hv] using hguard

private theorem clearGoals_progress (h : Guarded goals s)
    (hclauses : s.addAtLeastOneGoal.clauses.all (eval solution) = true) :
    (∃ i, Cleared s (s.clearGoals solution) i) ∧
      (∀ i, Cleared s (s.clearGoals solution) i →
        ∃ goal, goals[i]? = some goal ∧ eval solution goal.constraint = true) ∧
      (s.clearGoals solution).remaining.length < s.remaining.length := by
  have hsplit : (s.clauses ++ addConstraint (.or (s.remaining.map .var))).all (eval solution) =
      true := hclauses
  rw [List.all_append, Bool.and_eq_true] at hsplit
  obtain ⟨v, hmem, hv⟩ := exists_mem_remaining hsplit.2
  refine ⟨?_, ?_, ?_⟩
  · obtain ⟨var, hvar, hid⟩ := List.mem_filterMap.mp hmem
    obtain ⟨i, hi⟩ := List.mem_iff_getElem?.mp hvar
    exact ⟨i, cleared_clearGoals_iff.mpr ⟨v, hi.trans (congrArg some hid), hv⟩⟩
  · intro i hi
    obtain ⟨w, hw, hsolution⟩ := cleared_clearGoals_iff.mp hi
    obtain ⟨goal, hgoal, hsent⟩ := h i w hw
    exact ⟨goal, hgoal, eval_of_guard hsplit.1 hsent hsolution⟩
  · rw [remaining_clearGoals]
    apply List.length_filter_lt_length_iff_exists.mpr
    exact ⟨v, hmem, by simp [hv]⟩

/-- A call that returns true clears a pending goal, and only goals that its solution meets. -/
theorem Guarded.canReuseEncoding_progress (hsolve : SoundSolver solve) (h : Guarded goals s)
    (hreuse : s.canReuseEncoding solve = (s', some solution)) :
    (∃ i, Cleared s s' i) ∧
      (∀ i, Cleared s s' i →
        ∃ goal, goals[i]? = some goal ∧ eval solution goal.constraint = true) ∧
      s'.remaining.length < s.remaining.length := by
  unfold GoalState.canReuseEncoding at hreuse
  split_ifs at hreuse with hsolver hnone
  · simp at hreuse
  · cases hsolution : solve s.addAtLeastOneGoal.clauses with
    | none =>
      simp only [hsolution] at hreuse
      simp at hreuse
    | some found =>
      simp only [hsolution, Prod.mk.injEq, Option.some.injEq] at hreuse
      obtain ⟨rfl, rfl⟩ := hreuse
      exact clearGoals_progress h (hsolve _ _ hsolution)
  · simp at hreuse

theorem Guarded.canReuseEncoding (h : Guarded goals s)
    (solve : List Constraint → Option (Nat → Bool)) :
    Guarded goals (s.canReuseEncoding solve).1 := by
  unfold GoalState.canReuseEncoding
  split_ifs
  · exact h
  · cases hsolution : solve s.addAtLeastOneGoal.clauses with
    | none =>
      simp only [hsolution]
      exact h.addAtLeastOneGoal
    | some found =>
      simp only [hsolution]
      exact h.addAtLeastOneGoal.clearGoals found
  · exact h

theorem remaining_canReuseEncoding_of_none
    (hnone : (s.canReuseEncoding solve).2 = none) :
    (s.canReuseEncoding solve).1.remaining = s.remaining := by
  unfold GoalState.canReuseEncoding at hnone ⊢
  split_ifs at hnone ⊢
  · rfl
  · cases hsolution : solve s.addAtLeastOneGoal.clauses with
    | none =>
      simp only [hsolution]
      rfl
    | some found => simp [hsolution] at hnone
  · rfl

/-! ## Runs -/

theorem Guarded.run (h : Guarded goals s) (events : List (Event R)) :
    Guarded goals (s.run solve events).1 := by
  induction events generalizing s with
  | nil => exact h
  | cons event events ih =>
    cases event with
    | achieved r => exact ih (h.achievedGoal r)
    | plan => exact ih (h.canReuseEncoding solve)

theorem Guarded.successes_le (hsolve : SoundSolver solve) (h : Guarded goals s)
    (events : List (Event R)) :
    (s.run solve events).2 + (s.run solve events).1.remaining.length ≤ s.remaining.length := by
  induction events generalizing s with
  | nil =>
    show 0 + s.remaining.length ≤ _
    omega
  | cons event events ih =>
    cases event with
    | achieved r =>
      have hrest := ih (h.achievedGoal r)
      have hfewer := length_remaining_achievedGoal s r
      show ((s.achievedGoal r).run solve events).2 +
        ((s.achievedGoal r).run solve events).1.remaining.length ≤ _
      omega
    | plan =>
      have hrest := ih (h.canReuseEncoding solve)
      show ((s.canReuseEncoding solve).1.run solve events).2 +
        (if (s.canReuseEncoding solve).2.isSome then 1 else 0) +
        ((s.canReuseEncoding solve).1.run solve events).1.remaining.length ≤ _
      cases hsolution : (s.canReuseEncoding solve).2 with
      | none =>
        rw [remaining_canReuseEncoding_of_none hsolution] at hrest
        simpa using hrest
      | some found =>
        have hreuse : s.canReuseEncoding solve = ((s.canReuseEncoding solve).1, some found) :=
          Prod.ext rfl hsolution
        have hfewer := (h.canReuseEncoding_progress hsolve hreuse).2.2
        simp only [Option.isSome_some, if_true]
        omega

/-! ## The encoding -/

variable [DecidableEq R]

/-- The state that `process` leaves, for clauses and goals that `traverse` has added. -/
def processed (solve : List Constraint → Option (Nat → Bool)) (branches : Bool)
    (clauses : List Constraint) (varindex : Nat) (goals : List (Goal R)) : GoalState R :=
  ((goals.foldl addGoal (new clauses varindex)).process solve branches).2

theorem foldl_addGoal (s : GoalState R) (goals : List (Goal R)) :
    (goals.foldl addGoal s).goalset = s.goalset ++ goals.map Goal.constraint ∧
      (goals.foldl addGoal s).goalvararray = s.goalvararray := by
  induction goals generalizing s with
  | nil => exact ⟨(List.append_nil _).symm, rfl⟩
  | cons goal goals ih =>
    obtain ⟨hset, harray⟩ := ih (s.addGoal goal)
    refine ⟨hset.trans ?_, harray⟩
    show s.goalset ++ [goal.constraint] ++ _ = _
    rw [List.append_assoc]
    rfl

private theorem guarded_translateGoals (clauses : List Constraint) (varindex : Nat)
    (goals : List (Goal R)) :
    Guarded goals (goals.foldl addGoal (new clauses varindex)).translateGoals ∧
      (goals.foldl addGoal (new clauses varindex)).translateGoals.remaining.length ≤
        goals.length := by
  obtain ⟨hset, harray⟩ := foldl_addGoal (new clauses varindex) goals
  have hempty : Guarded [] (goals.foldl addGoal (new clauses varindex)) := by
    intro i v hi
    rw [harray] at hi
    simp [new] at hi
  have hstart : (goals.foldl addGoal (new clauses varindex)).goalvararray.length =
      ([] : List (Goal R)).length := by
    rw [harray]
    rfl
  obtain ⟨hguarded, hlen⟩ := guarded_foldl_guardGoal hempty hstart goals
  unfold translateGoals
  rw [hset]
  refine ⟨hguarded.addAtLeastOneGoal, ?_⟩
  calc _ ≤ _ := List.length_filterMap_le _ _
    _ = goals.length := hlen

private theorem guarded_processed (solve : List Constraint → Option (Nat → Bool)) (branches : Bool)
    (clauses : List Constraint) (varindex : Nat) (goals : List (Goal R)) :
    Guarded goals (processed solve branches clauses varindex goals) ∧
      (processed solve branches clauses varindex goals).remaining.length ≤ goals.length := by
  have htranslated := guarded_translateGoals clauses varindex goals
  unfold processed process
  generalize (goals.foldl addGoal (new clauses varindex)).translateGoals = translated
    at htranslated ⊢
  dsimp only
  split_ifs
  · exact htranslated
  · exact htranslated
  · cases hsolution : solve translated.clauses with
    | none =>
      simp only
      exact htranslated
    | some solution =>
      simp only
      refine ⟨htranslated.1.clearGoals solution, ?_⟩
      rw [remaining_clearGoals]
      exact (List.length_filter_le _ _).trans htranslated.2

/-- After any events each call of `canReuseEncoding` that returns true clears a pending goal and
only goals that its solution meets, and there are no more such calls than goals. -/
theorem incremental_progress (hsolve : SoundSolver solve) (branches : Bool)
    (clauses : List Constraint) (varindex : Nat) (goals : List (Goal R))
    (events : List (Event R)) :
    (∀ s' solution,
      ((processed solve branches clauses varindex goals).run solve events).1.canReuseEncoding
        solve = (s', some solution) →
      (∃ i, Cleared ((processed solve branches clauses varindex goals).run solve events).1 s' i) ∧
      ∀ i, Cleared ((processed solve branches clauses varindex goals).run solve events).1 s' i →
        ∃ goal, goals[i]? = some goal ∧ eval solution goal.constraint = true) ∧
    ((processed solve branches clauses varindex goals).run solve events).2 ≤ goals.length := by
  obtain ⟨hguarded, hremaining⟩ := guarded_processed solve branches clauses varindex goals
  constructor
  · intro s' solution hreuse
    obtain ⟨hsome, hmet, -⟩ := (hguarded.run events).canReuseEncoding_progress hsolve hreuse
    exact ⟨hsome, hmet⟩
  · have hle := hguarded.successes_le hsolve events
    omega

/-- A solver that tries three assignments, each with one goal and the variable of it. -/
def solveThree (clauses : List Constraint) : Option (Nat → Bool) :=
  [fun v => v == 1 || v == 4, fun v => v == 2 || v == 5, fun v => v == 3 || v == 6].find?
    fun solution => clauses.all (eval solution)

private theorem soundSolver_solveThree : SoundSolver solveThree := by
  intro clauses solution h
  have hfound := List.find?_some (p := fun solution => clauses.all (eval solution)) h
  exact hfound

open scoped FewRecords

def threeGoals : List (Goal (Fin 3)) :=
  [⟨0, .var 1, rfl, false⟩, ⟨1, .var 2, rfl, false⟩, ⟨2, .var 3, rfl, false⟩]

/-- `process` has solved for the first goal, and a run achieves the second. -/
def oneLeft : GoalState (Fin 3) :=
  ((processed solveThree false [] 4 threeGoals).run solveThree [.achieved 1]).1

/-- The third goal is planned for, which is the one plan of the encoding. -/
theorem incremental_progress_threeGoals :
    ∃ s' solution, oneLeft.canReuseEncoding solveThree = (s', some solution) ∧
      (∃ i, Cleared oneLeft s' i) ∧
      (∀ i, Cleared oneLeft s' i →
        ∃ goal, threeGoals[i]? = some goal ∧ eval solution goal.constraint = true) ∧
      ((processed solveThree false [] 4 threeGoals).run solveThree
        [.achieved 1, .plan, .plan]).2 ≤ 3 := by
  have hplanned : (oneLeft.canReuseEncoding solveThree).2.isSome = true := by
    simp [oneLeft, processed, process, translateGoals, guardGoal, addAtLeastOneGoal, remaining,
      canReuseEncoding, run, achievedGoal, addGoal, new, threeGoals, solveThree, clearGoals,
      all_addConstraint_or, List.find?, Option.filter]
  obtain ⟨solution, hsolution⟩ := Option.isSome_iff_exists.mp hplanned
  have hreuse : oneLeft.canReuseEncoding solveThree =
      ((oneLeft.canReuseEncoding solveThree).1, some solution) := Prod.ext rfl hsolution
  obtain ⟨hprogress, -⟩ :=
    incremental_progress soundSolver_solveThree false [] 4 threeGoals [.achieved 1]
  obtain ⟨-, hplans⟩ :=
    incremental_progress soundSolver_solveThree false [] 4 threeGoals [.achieved 1, .plan, .plan]
  obtain ⟨hsome, hmet⟩ := hprogress _ solution hreuse
  exact ⟨_, solution, hreuse, hsome, hmet, hplans⟩

end GoalState

end SatCheck
