import SatCheck.Constraint
/-!
# Conversion to clauses

`Constraint::simplify` and `mergeandfree`, and what their result means.  Every
clause of the tool passes through `addConstraint`, so the second half states
once for which trees the conversion is exact.
-/

namespace SatCheck

namespace Constraint

mutual

/-- Termination measure of `simplify`: the number of nodes, where an implication
counts twice because `simplify` first turns it into a disjunction. -/
def weight : Constraint → Nat
  | implies l r => 2 + l.weight + r.weight
  | and operands => 1 + weightAll operands
  | or operands => 1 + weightAll operands
  | _ => 1

def weightAll : List Constraint → Nat
  | [] => 0
  | c :: cs => c.weight + weightAll cs

end

theorem weight_pos (c : Constraint) : 0 < c.weight := by
  cases c <;> simp only [weight] <;> omega

@[simp] theorem weightAll_append (cs ds : List Constraint) :
    weightAll (cs ++ ds) = weightAll cs + weightAll ds := by
  induction cs with
  | nil => simp [weightAll]
  | cons c cs ih => simp [weightAll, ih]; omega

mutual

theorem weight_negate : ∀ c : Constraint, c.negate.weight = c.weight
  | ctrue => rfl
  | cfalse => rfl
  | var _ => rfl
  | notvar _ => rfl
  | implies l r => by simp only [negate, weight]; omega
  | and cs => by simp only [negate_and, weight, weightAll_negate cs]
  | or cs => by simp only [negate_or, weight, weightAll_negate cs]

theorem weightAll_negate : ∀ cs : List Constraint,
    weightAll (cs.map negate) = weightAll cs
  | [] => rfl
  | c :: cs => by
      simp only [List.map_cons, weightAll, weight_negate c, weightAll_negate cs]

end

/-- `mergeandfree`: appends `src` to `dst` without its `TRUE` elements.  A `FALSE`
element ends the merge; the flag is the return value and the list is `dst`
afterwards. -/
def mergeandfree (dst : List Constraint) : List Constraint → Bool × List Constraint
  | [] => (false, dst)
  | ctrue :: src => mergeandfree dst src
  | cfalse :: _ => (true, [ctrue])
  | c :: src => mergeandfree (dst ++ [c]) src

/-- The first operand that is not a literal, with the operands before and after it. -/
def firstNonLiteral : List Constraint → Option (List Constraint × Constraint × List Constraint)
  | [] => none
  | var v :: cs => (firstNonLiteral cs).map fun (pre, c, post) => (var v :: pre, c, post)
  | notvar v :: cs => (firstNonLiteral cs).map fun (pre, c, post) => (notvar v :: pre, c, post)
  | c :: cs => some ([], c, cs)

def isLiteral : Constraint → Bool
  | var _ => true
  | notvar _ => true
  | _ => false

theorem firstNonLiteral_eq_some {cs pre post : List Constraint} {c : Constraint}
    (h : firstNonLiteral cs = some (pre, c, post)) :
    cs = pre ++ c :: post ∧ c.isLiteral = false := by
  induction cs generalizing pre with
  | nil => simp [firstNonLiteral] at h
  | cons d cs ih =>
    cases d with
    | var v =>
      simp only [firstNonLiteral, Option.map_eq_some_iff] at h
      obtain ⟨⟨pre', c', post'⟩, hrec, heq⟩ := h
      simp only [Prod.mk.injEq] at heq
      obtain ⟨rfl, rfl, rfl⟩ := heq
      simpa using ih hrec
    | notvar v =>
      simp only [firstNonLiteral, Option.map_eq_some_iff] at h
      obtain ⟨⟨pre', c', post'⟩, hrec, heq⟩ := h
      simp only [Prod.mk.injEq] at heq
      obtain ⟨rfl, rfl, rfl⟩ := heq
      simpa using ih hrec
    | _ =>
      simp only [firstNonLiteral, Option.some.injEq, Prod.mk.injEq] at h
      obtain ⟨rfl, rfl, rfl⟩ := h
      simp [isLiteral]

theorem firstNonLiteral_eq_none {cs : List Constraint}
    (h : firstNonLiteral cs = none) : ∀ c ∈ cs, c.isLiteral = true := by
  induction cs with
  | nil => simp
  | cons d cs ih =>
    cases d <;> simp_all [firstNonLiteral, isLiteral]

theorem weightAll_of_firstNonLiteral {cs pre post : List Constraint} {c : Constraint}
    (h : firstNonLiteral cs = some (pre, c, post)) :
    weightAll cs = weightAll pre + c.weight + weightAll post := by
  rw [(firstNonLiteral_eq_some h).1]
  simp [weightAll]
  omega

mutual

/-- `Constraint::simplify`. -/
def simplify : Constraint → List Constraint
  | ctrue => [ctrue]
  | cfalse => [cfalse]
  | var v => [var v]
  | notvar v => [notvar v]
  | and operands => simplifyAnd [] operands
  | or operands =>
      match _h : firstNonLiteral operands with
      | none => if operands.length = 1 then operands else [or operands]
      | some (_, ctrue, _) => [ctrue]
      | some (pre, cfalse, post) => simplify (or (pre ++ post))
      | some (pre, or cs, post) => simplify (or (pre ++ post ++ cs))
      | some (pre, implies l r, post) => simplify (or (pre ++ post ++ [l.negate, r]))
      | some (pre, and cs, post) => simplifyDistribute pre post [] cs
      | some (_, var _, _) => []
      | some (_, notvar _, _) => []
  | implies l r => simplify (or [l.negate, r])
termination_by c => (c.weight, 0)
decreasing_by
  all_goals try
    have := weightAll_of_firstNonLiteral _h
  all_goals simp_wf
  all_goals simp_all [weight, weightAll, weight_negate, Prod.lex_def]
  all_goals try omega

/-- The loop over the operands of a conjunction; `vec` is the vector built so far. -/
def simplifyAnd (vec : List Constraint) : List Constraint → List Constraint
  | [] => vec
  | c :: cs =>
      match mergeandfree vec (simplify c) with
      | (true, vec') => vec'
      | (false, vec') => simplifyAnd vec' cs
termination_by cs => (weightAll cs, 1)
decreasing_by
  all_goals have := weight_pos c
  all_goals simp_all [weightAll, Prod.lex_def]
  all_goals try omega

/-- The loop over the operands of a conjunction met inside a disjunction. -/
def simplifyDistribute (pre post vec : List Constraint) : List Constraint → List Constraint
  | [] => vec
  | c :: cs =>
      match mergeandfree vec (simplify (or (pre ++ c :: post))) with
      | (true, vec') => vec'
      | (false, vec') => simplifyDistribute pre post vec' cs
termination_by cs => (1 + weightAll pre + weightAll post + weightAll cs, 1)
decreasing_by
  all_goals have := weight_pos c
  all_goals simp_all [weight, weightAll, Prod.lex_def]
  all_goals try omega

end

/-! ## Meaning of the clause vector

`settled ρ b c` reads the tree with an implication that needs both of its sides:
this is what is left of a truth value once `negate` has exchanged the sides of
an implication. -/

mutual

/-- The tree has value `b`, by a reading that takes `l → r` to be true only when
`l` is false and `r` is true. -/
def settled (ρ : Nat → Bool) (b : Bool) : Constraint → Bool
  | ctrue => b
  | cfalse => !b
  | var v => ρ v == b
  | notvar v => ρ v == !b
  | implies l r => settled ρ (!b) l && settled ρ b r
  | and operands => if b then settledAll ρ b operands else settledAny ρ b operands
  | or operands => if b then settledAny ρ b operands else settledAll ρ b operands

def settledAll (ρ : Nat → Bool) (b : Bool) : List Constraint → Bool
  | [] => true
  | c :: cs => settled ρ b c && settledAll ρ b cs

def settledAny (ρ : Nat → Bool) (b : Bool) : List Constraint → Bool
  | [] => false
  | c :: cs => settled ρ b c || settledAny ρ b cs

end

theorem settledAll_eq_all (ρ : Nat → Bool) (b : Bool) (cs : List Constraint) :
    settledAll ρ b cs = cs.all (settled ρ b) := by
  induction cs with
  | nil => rfl
  | cons c cs ih => simp [settledAll, ih]

theorem settledAny_eq_any (ρ : Nat → Bool) (b : Bool) (cs : List Constraint) :
    settledAny ρ b cs = cs.any (settled ρ b) := by
  induction cs with
  | nil => rfl
  | cons c cs ih => simp [settledAny, ih]

@[simp] theorem settled_and (ρ : Nat → Bool) (b : Bool) (cs : List Constraint) :
    settled ρ b (and cs) = if b then cs.all (settled ρ b) else cs.any (settled ρ b) := by
  simp [settled, settledAll_eq_all, settledAny_eq_any]

@[simp] theorem settled_or (ρ : Nat → Bool) (b : Bool) (cs : List Constraint) :
    settled ρ b (or cs) = if b then cs.any (settled ρ b) else cs.all (settled ρ b) := by
  simp [settled, settledAll_eq_all, settledAny_eq_any]

mutual

theorem eval_of_settled (ρ : Nat → Bool) : ∀ (b : Bool) (c : Constraint),
    settled ρ b c = true → eval ρ c = b
  | b, ctrue, h => by simpa [settled] using h.symm
  | b, cfalse, h => by simpa [settled] using h
  | b, var v, h => by simpa [settled] using h
  | b, notvar v, h => by simpa [settled] using h
  | b, implies l r, h => by
      simp only [settled, Bool.and_eq_true] at h
      rw [eval_implies, eval_of_settled ρ (!b) l h.1, eval_of_settled ρ b r h.2]
      simp
  | true, and cs, h => by
      rw [eval_and, List.all_eq_true]
      exact eval_of_all_settled ρ true cs (by simpa using h)
  | false, and cs, h => by
      obtain ⟨c, hc, heval⟩ := eval_of_any_settled ρ false cs (by simpa using h)
      rw [eval_and, List.all_eq_false]
      exact ⟨c, hc, by simp [heval]⟩
  | true, or cs, h => by
      obtain ⟨c, hc, heval⟩ := eval_of_any_settled ρ true cs (by simpa using h)
      rw [eval_or, List.any_eq_true]
      exact ⟨c, hc, heval⟩
  | false, or cs, h => by
      rw [eval_or, List.any_eq_false]
      intro c hc
      simp [eval_of_all_settled ρ false cs (by simpa using h) c hc]

theorem eval_of_all_settled (ρ : Nat → Bool) : ∀ (b : Bool) (cs : List Constraint),
    (∀ c ∈ cs, settled ρ b c = true) → ∀ c ∈ cs, eval ρ c = b
  | _, [], _ => by simp
  | b, d :: ds, h => by
      rw [List.forall_mem_cons] at h ⊢
      exact ⟨eval_of_settled ρ b d h.1, eval_of_all_settled ρ b ds h.2⟩

theorem eval_of_any_settled (ρ : Nat → Bool) : ∀ (b : Bool) (cs : List Constraint),
    (∃ c ∈ cs, settled ρ b c = true) → ∃ c ∈ cs, eval ρ c = b
  | _, [], h => by simp at h
  | b, d :: ds, h => by
      by_cases hd : settled ρ b d = true
      · exact ⟨d, by simp, eval_of_settled ρ b d hd⟩
      · obtain ⟨c, hc, heval⟩ := eval_of_any_settled ρ b ds (by simpa [hd] using h)
        exact ⟨c, by simp [hc], heval⟩

end

mutual

/-- The tree is refuted by its top conjunctions: none of those on the way holds
the constant `FALSE` as a direct operand, and at their end stands a tree that is
settled to be false. -/
def refutes (ρ : Nat → Bool) : Constraint → Bool
  | and operands => !operands.any isFalse && refutesAny ρ operands
  | ctrue => false
  | cfalse => true
  | var v => settled ρ false (var v)
  | notvar v => settled ρ false (notvar v)
  | implies l r => settled ρ false (implies l r)
  | or operands => settled ρ false (or operands)

def refutesAny (ρ : Nat → Bool) : List Constraint → Bool
  | [] => false
  | c :: cs => refutes ρ c || refutesAny ρ cs

end

private theorem refutesAny_eq_any (ρ : Nat → Bool) (cs : List Constraint) :
    refutesAny ρ cs = cs.any (refutes ρ) := by
  induction cs with
  | nil => rfl
  | cons c cs ih => simp [refutesAny, ih]

@[simp] theorem refutes_and (ρ : Nat → Bool) (cs : List Constraint) :
    refutes ρ (and cs) = (!cs.any isFalse && cs.any (refutes ρ)) := by
  simp [refutes, refutesAny_eq_any]

@[simp] theorem refutes_or (ρ : Nat → Bool) (cs : List Constraint) :
    refutes ρ (or cs) = cs.all (settled ρ false) := by
  simp [refutes]

mutual

theorem eval_of_refutes (ρ : Nat → Bool) : ∀ c : Constraint,
    refutes ρ c = true → eval ρ c = false
  | ctrue, h => by simp [refutes] at h
  | cfalse, _ => by simp
  | var v, h => eval_of_settled ρ false (var v) (by simpa [refutes] using h)
  | notvar v, h => eval_of_settled ρ false (notvar v) (by simpa [refutes] using h)
  | implies l r, h => eval_of_settled ρ false (implies l r) (by simpa [refutes] using h)
  | or cs, h => eval_of_settled ρ false (or cs) (by simpa using h)
  | and cs, h => by
      rw [refutes_and, Bool.and_eq_true] at h
      rw [eval_and]
      exact all_eval_of_refutes ρ cs h.2

theorem all_eval_of_refutes (ρ : Nat → Bool) : ∀ cs : List Constraint,
    cs.any (refutes ρ) = true → cs.all (eval ρ) = false
  | [], h => by simp at h
  | c :: cs, h => by
      rw [List.any_cons, Bool.or_eq_true] at h
      rw [List.all_cons]
      rcases h with hc | hcs
      · simp [eval_of_refutes ρ c hc]
      · simp [all_eval_of_refutes ρ cs hcs]

end


/-! ## Values of literals

The conversion treats a literal and its opposite as if they had nothing to do with each other. -/

mutual

/-- The value of a tree where each literal has a value of its own, by its sign and variable. -/
def evalBy (lit : Bool → Nat → Bool) : Constraint → Bool
  | ctrue => true
  | cfalse => false
  | implies l r => !l.evalBy lit || r.evalBy lit
  | and operands => evalByAll lit operands
  | or operands => evalByAny lit operands
  | var v => lit true v
  | notvar v => lit false v

def evalByAll (lit : Bool → Nat → Bool) : List Constraint → Bool
  | [] => true
  | c :: cs => c.evalBy lit && evalByAll lit cs

def evalByAny (lit : Bool → Nat → Bool) : List Constraint → Bool
  | [] => false
  | c :: cs => c.evalBy lit || evalByAny lit cs

end

mutual

/-- `settled` with values of literals. -/
def settledBy (lit : Bool → Nat → Bool) (b : Bool) : Constraint → Bool
  | ctrue => b
  | cfalse => !b
  | var v => !lit (!b) v
  | notvar v => !lit b v
  | implies l r => settledBy lit (!b) l && settledBy lit b r
  | and operands => if b then settledByAll lit b operands else settledByAny lit b operands
  | or operands => if b then settledByAny lit b operands else settledByAll lit b operands

def settledByAll (lit : Bool → Nat → Bool) (b : Bool) : List Constraint → Bool
  | [] => true
  | c :: cs => settledBy lit b c && settledByAll lit b cs

def settledByAny (lit : Bool → Nat → Bool) (b : Bool) : List Constraint → Bool
  | [] => false
  | c :: cs => settledBy lit b c || settledByAny lit b cs

end

mutual

/-- `refutes` with values of literals. -/
def refutesBy (lit : Bool → Nat → Bool) : Constraint → Bool
  | and operands => !operands.any isFalse && refutesByAny lit operands
  | ctrue => false
  | cfalse => true
  | var v => settledBy lit false (var v)
  | notvar v => settledBy lit false (notvar v)
  | implies l r => settledBy lit false (implies l r)
  | or operands => settledBy lit false (or operands)

def refutesByAny (lit : Bool → Nat → Bool) : List Constraint → Bool
  | [] => false
  | c :: cs => refutesBy lit c || refutesByAny lit cs

end

variable (lit : Bool → Nat → Bool)

private theorem evalByAll_eq_all (cs : List Constraint) :
    evalByAll lit cs = cs.all (evalBy lit) := by
  induction cs with
  | nil => rfl
  | cons c cs ih => simp [evalByAll, ih]

private theorem evalByAny_eq_any (cs : List Constraint) :
    evalByAny lit cs = cs.any (evalBy lit) := by
  induction cs with
  | nil => rfl
  | cons c cs ih => simp [evalByAny, ih]

theorem settledByAll_eq_all (b : Bool) (cs : List Constraint) :
    settledByAll lit b cs = cs.all (settledBy lit b) := by
  induction cs with
  | nil => rfl
  | cons c cs ih => simp [settledByAll, ih]

theorem settledByAny_eq_any (b : Bool) (cs : List Constraint) :
    settledByAny lit b cs = cs.any (settledBy lit b) := by
  induction cs with
  | nil => rfl
  | cons c cs ih => simp [settledByAny, ih]

private theorem refutesByAny_eq_any (cs : List Constraint) :
    refutesByAny lit cs = cs.any (refutesBy lit) := by
  induction cs with
  | nil => rfl
  | cons c cs ih => simp [refutesByAny, ih]

@[simp] theorem evalBy_ctrue : evalBy lit ctrue = true := by simp [evalBy]

@[simp] theorem evalBy_cfalse : evalBy lit cfalse = false := by simp [evalBy]

@[simp] theorem evalBy_and (cs : List Constraint) : evalBy lit (and cs) = cs.all (evalBy lit) := by
  simp [evalBy, evalByAll_eq_all]

@[simp] theorem evalBy_or (cs : List Constraint) : evalBy lit (or cs) = cs.any (evalBy lit) := by
  simp [evalBy, evalByAny_eq_any]

@[simp] theorem settledBy_and (b : Bool) (cs : List Constraint) :
    settledBy lit b (and cs) =
      if b then cs.all (settledBy lit b) else cs.any (settledBy lit b) := by
  simp [settledBy, settledByAll_eq_all, settledByAny_eq_any]

@[simp] theorem settledBy_or (b : Bool) (cs : List Constraint) :
    settledBy lit b (or cs) = if b then cs.any (settledBy lit b) else cs.all (settledBy lit b) := by
  simp [settledBy, settledByAll_eq_all, settledByAny_eq_any]

@[simp] theorem refutesBy_and (cs : List Constraint) :
    refutesBy lit (and cs) = (!cs.any isFalse && cs.any (refutesBy lit)) := by
  simp [refutesBy, refutesByAny_eq_any]

@[simp] theorem refutesBy_or (cs : List Constraint) :
    refutesBy lit (or cs) = cs.all (settledBy lit false) := by
  simp [refutesBy]

mutual

/-- `negate` exchanges the two verdicts exactly, implications included. -/
theorem settledBy_negate : ∀ (b : Bool) (c : Constraint),
    settledBy lit b c.negate = settledBy lit (!b) c
  | b, ctrue => by simp [negate, settledBy]
  | b, cfalse => by simp [negate, settledBy]
  | b, var v => by simp [negate, settledBy]
  | b, notvar v => by simp [negate, settledBy]
  | b, implies l r => by simp [negate, settledBy, Bool.and_comm]
  | b, and cs => by
      have hall := all_settledBy_negate b cs
      have hany := any_settledBy_negate b cs
      cases b <;> simp [hall, hany]
  | b, or cs => by
      have hall := all_settledBy_negate b cs
      have hany := any_settledBy_negate b cs
      cases b <;> simp [hall, hany]

theorem all_settledBy_negate : ∀ (b : Bool) (cs : List Constraint),
    (cs.map negate).all (settledBy lit b) = cs.all (settledBy lit (!b))
  | _, [] => rfl
  | b, c :: cs => by
      rw [List.map_cons, List.all_cons, List.all_cons, settledBy_negate b c,
        all_settledBy_negate b cs]

theorem any_settledBy_negate : ∀ (b : Bool) (cs : List Constraint),
    (cs.map negate).any (settledBy lit b) = cs.any (settledBy lit (!b))
  | _, [] => rfl
  | b, c :: cs => by
      rw [List.map_cons, List.any_cons, List.any_cons, settledBy_negate b c,
        any_settledBy_negate b cs]

end

@[simp] theorem mergeandfree_nil (dst : List Constraint) :
    mergeandfree dst [] = (false, dst) := rfl

/-- The merge either meets `FALSE` and leaves the vector `[TRUE]`, or appends
what is not `TRUE`. -/
theorem mergeandfree_eq (dst src : List Constraint) :
    mergeandfree dst src =
      if src.any isFalse then (true, [ctrue])
      else (false, dst ++ src.filter (fun c => !c.isTrue)) := by
  induction src generalizing dst with
  | nil => simp
  | cons c src ih =>
    cases c <;> simp [mergeandfree, ih, isTrue, isFalse]

theorem all_evalBy_filter (cs : List Constraint) :
    (cs.filter (fun c => !c.isTrue)).all (evalBy lit) = cs.all (evalBy lit) := by
  rw [List.all_filter]
  congr 1
  funext c
  cases c <;> simp [isTrue]

theorem any_isFalse_filter (cs : List Constraint) :
    (cs.filter (fun c => !c.isTrue)).any isFalse = cs.any isFalse := by
  rw [List.any_filter]
  congr 1
  funext c
  cases c <;> simp [isTrue, isFalse]

theorem any_isFalse_of_literals {cs : List Constraint}
    (h : ∀ c ∈ cs, c.isLiteral = true) : cs.any isFalse = false := by
  rw [List.any_eq_false]
  intro c hc
  have := h c hc
  cases c <;> simp_all [isLiteral, isFalse]

theorem all_settledBy_of_literals {cs : List Constraint}
    (h : ∀ c ∈ cs, c.isLiteral = true) :
    cs.all (settledBy lit false) = !cs.any (evalBy lit) := by
  induction cs with
  | nil => rfl
  | cons c cs ih =>
    rw [List.forall_mem_cons] at h
    have hc : settledBy lit false c = !evalBy lit c := by
      cases c <;> simp_all [isLiteral, settledBy, evalBy]
    simp [ih h.2, hc]

/-! Equations of `simplify` on a disjunction, by its first operand that is no literal. -/

theorem simplify_or_literals {cs : List Constraint} (h : firstNonLiteral cs = none) :
    simplify (or cs) = if cs.length = 1 then cs else [or cs] := by
  rw [simplify]
  split <;> simp_all

theorem simplify_or_ctrue {cs pre post : List Constraint}
    (h : firstNonLiteral cs = some (pre, ctrue, post)) : simplify (or cs) = [ctrue] := by
  rw [simplify]
  split <;> simp_all

theorem simplify_or_cfalse {cs pre post : List Constraint}
    (h : firstNonLiteral cs = some (pre, cfalse, post)) :
    simplify (or cs) = simplify (or (pre ++ post)) := by
  rw [simplify]
  split <;> simp_all

theorem simplify_or_or {cs pre post ds : List Constraint}
    (h : firstNonLiteral cs = some (pre, or ds, post)) :
    simplify (or cs) = simplify (or (pre ++ post ++ ds)) := by
  rw [simplify]
  split <;> simp_all

theorem simplify_or_implies {cs pre post : List Constraint} {l r : Constraint}
    (h : firstNonLiteral cs = some (pre, implies l r, post)) :
    simplify (or cs) = simplify (or (pre ++ post ++ [l.negate, r])) := by
  rw [simplify]
  split <;> simp_all

theorem simplify_or_and {cs pre post ds : List Constraint}
    (h : firstNonLiteral cs = some (pre, and ds, post)) :
    simplify (or cs) = simplifyDistribute pre post [] ds := by
  rw [simplify]
  split <;> simp_all

theorem simplify_implies (l r : Constraint) :
    simplify (implies l r) = simplify (or [l.negate, r]) := by
  conv => lhs; rw [simplify]

theorem simplifyAnd_of_stop {vec vec' cs : List Constraint} {c : Constraint}
    (h : mergeandfree vec c.simplify = (true, vec')) :
    simplifyAnd vec (c :: cs) = vec' := by
  rw [simplifyAnd]
  simp [h]

theorem simplifyAnd_of_continue {vec vec' cs : List Constraint} {c : Constraint}
    (h : mergeandfree vec c.simplify = (false, vec')) :
    simplifyAnd vec (c :: cs) = simplifyAnd vec' cs := by
  rw [simplifyAnd]
  simp [h]

theorem simplifyDistribute_of_continue {pre post vec vec' cs : List Constraint}
    {c : Constraint}
    (h : mergeandfree vec (or (pre ++ c :: post)).simplify = (false, vec')) :
    simplifyDistribute pre post vec (c :: cs) = simplifyDistribute pre post vec' cs := by
  rw [simplifyDistribute]
  simp [h]

/-- A relation between trees and vectors, with what relates the operands that its two loops still
have to merge to the vector they end with, that every way through `simplify` keeps. -/
structure SimplifyRule (P : Constraint → List Constraint → Prop)
    (D : List Constraint → List Constraint → List Constraint → List Constraint →
      List Constraint → Prop)
    (A : List Constraint → List Constraint → List Constraint → Prop) : Prop where
  ctrue : P ctrue [ctrue]
  cfalse : P cfalse [cfalse]
  literal : ∀ c, c.isLiteral = true → P c [c]
  and : ∀ cs out, A [] cs out → P (and cs) out
  orSingle : ∀ c, c.isLiteral = true → P (or [c]) [c]
  orLiterals : ∀ cs, (∀ c ∈ cs, c.isLiteral = true) → P (or cs) [or cs]
  orTrue : ∀ pre post, P (or (pre ++ .ctrue :: post)) [.ctrue]
  orFalse : ∀ pre post out, P (or (pre ++ post)) out → P (or (pre ++ .cfalse :: post)) out
  orOr : ∀ pre ds post out, P (or (pre ++ post ++ ds)) out → P (or (pre ++ or ds :: post)) out
  orImplies : ∀ pre l r post out, P (or (pre ++ post ++ [l.negate, r])) out →
    P (or (pre ++ .implies l r :: post)) out
  orAnd : ∀ pre ds post out, D pre post [] ds out → P (or (pre ++ .and ds :: post)) out
  implies : ∀ l r out, P (or [l.negate, r]) out → P (implies l r) out
  distNil : ∀ pre post vec, D pre post vec [] vec
  distStop : ∀ pre post vec c cs out vec', P (or (pre ++ c :: post)) out →
    mergeandfree vec out = (true, vec') → D pre post vec (c :: cs) vec'
  distCons : ∀ pre post vec c cs out vec' result, P (or (pre ++ c :: post)) out →
    mergeandfree vec out = (false, vec') → D pre post vec' cs result →
    D pre post vec (c :: cs) result
  andNil : ∀ vec, A vec [] vec
  andStop : ∀ vec c cs out vec', P c out → mergeandfree vec out = (true, vec') →
    A vec (c :: cs) vec'
  andCons : ∀ vec c cs out vec' result, P c out → mergeandfree vec out = (false, vec') →
    A vec' cs result → A vec (c :: cs) result

/-- The rule of induction for `simplify`: one case for each branch of its loops. -/
theorem SimplifyRule.simplify {P : Constraint → List Constraint → Prop}
    {D : List Constraint → List Constraint → List Constraint → List Constraint →
      List Constraint → Prop}
    {A : List Constraint → List Constraint → List Constraint → Prop} (h : SimplifyRule P D A)
    (c : Constraint) : P c c.simplify := by
  refine simplify.induct (fun c => P c c.simplify)
    (fun pre post vec cs => D pre post vec cs (simplifyDistribute pre post vec cs))
    (fun vec cs => A vec cs (simplifyAnd vec cs))
    ?ctrue ?cfalse ?var ?notvar ?and ?orSingle ?orLiterals ?orTrue ?orFalse ?orOr
    ?orImplies ?orAnd ?orVar ?orNotvar ?implies ?distNil ?distStop ?distCons ?andNil
    ?andStop ?andCons c
  case ctrue => simpa [Constraint.simplify] using h.ctrue
  case cfalse => simpa [Constraint.simplify] using h.cfalse
  case var => intro v; simpa [Constraint.simplify] using h.literal (var v) rfl
  case notvar => intro v; simpa [Constraint.simplify] using h.literal (notvar v) rfl
  case and =>
    intro cs ih
    rw [Constraint.simplify]
    exact h.and cs _ ih
  case orSingle =>
    intro cs hnone hlen
    rw [simplify_or_literals hnone, if_pos hlen]
    obtain ⟨c, rfl⟩ := List.length_eq_one_iff.mp hlen
    exact h.orSingle c (firstNonLiteral_eq_none hnone c (List.mem_singleton_self c))
  case orLiterals =>
    intro cs hnone hlen
    rw [simplify_or_literals hnone, if_neg hlen]
    exact h.orLiterals cs (firstNonLiteral_eq_none hnone)
  case orTrue =>
    intro cs pre post hfirst
    rw [simplify_or_ctrue hfirst, (firstNonLiteral_eq_some hfirst).1]
    exact h.orTrue pre post
  case orFalse =>
    intro cs pre post hfirst ih
    rw [simplify_or_cfalse hfirst, (firstNonLiteral_eq_some hfirst).1]
    exact h.orFalse pre post _ ih
  case orOr =>
    intro cs pre ds post hfirst ih
    rw [simplify_or_or hfirst, (firstNonLiteral_eq_some hfirst).1]
    exact h.orOr pre ds post _ ih
  case orImplies =>
    intro cs pre l r post hfirst ih
    rw [simplify_or_implies hfirst, (firstNonLiteral_eq_some hfirst).1]
    exact h.orImplies pre l r post _ ih
  case orAnd =>
    intro cs pre ds post hfirst ih
    rw [simplify_or_and hfirst, (firstNonLiteral_eq_some hfirst).1]
    exact h.orAnd pre ds post _ ih
  case orVar =>
    intro cs pre v post hfirst
    simpa [isLiteral] using (firstNonLiteral_eq_some hfirst).2
  case orNotvar =>
    intro cs pre v post hfirst
    simpa [isLiteral] using (firstNonLiteral_eq_some hfirst).2
  case implies =>
    intro l r ih
    rw [simplify_implies]
    exact h.implies l r _ ih
  case distNil =>
    intro pre post vec
    rw [simplifyDistribute]
    exact h.distNil pre post vec
  case distStop =>
    intro pre post vec c cs vec' hmerge ih
    rw [simplifyDistribute]
    simp only [hmerge]
    exact h.distStop pre post vec c cs _ vec' ih hmerge
  case distCons =>
    intro pre post vec c cs vec' hmerge ih ihcs
    rw [simplifyDistribute_of_continue hmerge]
    exact h.distCons pre post vec c cs _ vec' _ ih hmerge ihcs
  case andNil =>
    intro vec
    rw [simplifyAnd]
    exact h.andNil vec
  case andStop =>
    intro vec c cs vec' hmerge ih
    rw [simplifyAnd_of_stop hmerge]
    exact h.andStop vec c cs _ vec' ih hmerge
  case andCons =>
    intro vec c cs vec' hmerge ih ihcs
    rw [simplifyAnd_of_continue hmerge]
    exact h.andCons vec c cs _ vec' _ ih hmerge ihcs

/-- What `simplify` guarantees for one tree, by values of literals. -/
def SpecBy (c : Constraint) (vec : List Constraint) : Prop :=
  vec.any isFalse = c.isFalse ∧ vec.all (evalBy lit) = !refutesBy lit c

theorem spec_or_of_eq {lit : Bool → Nat → Bool} {cs ds vec : List Constraint}
    (hsettled : cs.all (settledBy lit false) = ds.all (settledBy lit false))
    (h : SpecBy lit (or ds) vec) : SpecBy lit (or cs) vec := by
  obtain ⟨hfalse, hall⟩ := h
  exact ⟨hfalse, by rw [hall, refutesBy_or, refutesBy_or, hsettled]⟩

theorem spec_of_stop {lit : Bool → Nat → Bool} {vec out vec' : List Constraint} {c : Constraint}
    (hspec : SpecBy lit c out) (h : mergeandfree vec out = (true, vec')) :
    c.isFalse = true ∧ vec' = [ctrue] := by
  rw [mergeandfree_eq] at h
  rw [← hspec.1]
  split at h <;> simp_all

/-- A merge that runs to its end adds the value of the simplified tree. -/
theorem spec_of_continue {lit : Bool → Nat → Bool} {vec out vec' : List Constraint}
    {c : Constraint} (hspec : SpecBy lit c out) (h : mergeandfree vec out = (false, vec'))
    (hvec : vec.any isFalse = false) :
    c.isFalse = false ∧ vec'.any isFalse = false ∧
      vec'.all (evalBy lit) = (vec.all (evalBy lit) && !refutesBy lit c) := by
  rw [mergeandfree_eq] at h
  split at h
  · simp at h
  · rename_i hnot
    simp only [Prod.mk.injEq, true_and] at h
    subst h
    have hfalse : out.any isFalse = false := by simpa using hnot
    refine ⟨by rw [← hspec.1, hfalse], ?_, ?_⟩
    · rw [List.any_append, any_isFalse_filter, hfalse, hvec]
      rfl
    · rw [List.all_append, all_evalBy_filter, hspec.2]

/-- Distributing a conjunction over the other operands keeps the verdict. -/
theorem all_not_refutes_distribute (pre post ds : List Constraint) :
    (ds.all fun c => !refutesBy lit (or (pre ++ c :: post))) =
      !(pre ++ and ds :: post).all (settledBy lit false) := by
  induction ds with
  | nil => simp
  | cons d ds ih =>
    rw [List.all_cons, ih]
    simp only [refutesBy_or, List.all_append, List.all_cons, settledBy_and, List.any_cons]
    cases pre.all (settledBy lit false) <;> cases post.all (settledBy lit false) <;>
      cases settledBy lit false d <;> simp

/-- What the loop over the operands of a conjunction in a disjunction comes to. -/
def DistributesBy (pre post vec cs out : List Constraint) : Prop :=
  vec.any isFalse = false → out.any isFalse = false ∧
    out.all (evalBy lit) =
      (vec.all (evalBy lit) && cs.all fun c => !refutesBy lit (or (pre ++ c :: post)))

/-- What the loop over the operands of a conjunction comes to. -/
def ConjoinsBy (vec cs out : List Constraint) : Prop :=
  vec.any isFalse = false → out.any isFalse = false ∧
    out.all (evalBy lit) =
      (cs.any isFalse || (vec.all (evalBy lit) && cs.all fun c => !refutesBy lit c))

theorem simplifyRule_specBy :
    SimplifyRule (SpecBy lit) (DistributesBy lit) (ConjoinsBy lit) where
  ctrue := by simp [SpecBy, isFalse, refutesBy]
  cfalse := by simp [SpecBy, isFalse, refutesBy]
  literal c hc := by
    cases c <;> simp_all [isLiteral, SpecBy, isFalse, refutesBy, settledBy, evalBy]
  and cs out ih := by
    obtain ⟨hfalse, hall⟩ := ih rfl
    refine ⟨hfalse, ?_⟩
    rw [hall, refutesBy_and]
    cases cs.any isFalse <;> simp [List.not_any_eq_all_not]
  orSingle c hc := by
    have hlit : ∀ d ∈ [c], d.isLiteral = true := by simpa using hc
    refine ⟨any_isFalse_of_literals hlit, ?_⟩
    rw [refutesBy_or, all_settledBy_of_literals lit hlit]
    simp
  orLiterals cs hlit := by
    refine ⟨by simp [isFalse], ?_⟩
    rw [refutesBy_or, all_settledBy_of_literals lit hlit]
    simp
  orTrue pre post := by simp [SpecBy, isFalse, settledBy]
  orFalse pre post out ih := spec_or_of_eq (by simp [settledBy]) ih
  orOr pre ds post out ih := spec_or_of_eq (by simp [Bool.and_comm]) ih
  orImplies pre l r post out ih :=
    spec_or_of_eq (by simp [settledBy, settledBy_negate, Bool.and_comm]) ih
  orAnd pre ds post out ih := by
    obtain ⟨hfalse, hall⟩ := ih rfl
    refine ⟨hfalse, ?_⟩
    rw [hall, all_not_refutes_distribute, refutesBy_or]
    rfl
  implies l r out ih := by
    refine ⟨ih.1, ?_⟩
    rw [ih.2, refutesBy_or]
    simp [refutesBy, settledBy, settledBy_negate]
  distNil pre post vec hvec := ⟨hvec, by simp⟩
  distStop pre post vec c cs out vec' ih h :=
    absurd (spec_of_stop ih h).1 (by simp [isFalse])
  distCons pre post vec c cs out vec' result ih h ihcs hvec := by
    obtain ⟨-, hvec', hall⟩ := spec_of_continue ih h hvec
    refine ⟨(ihcs hvec').1, ?_⟩
    rw [(ihcs hvec').2, hall, List.all_cons, Bool.and_assoc]
  andNil vec hvec := ⟨hvec, by simp⟩
  andStop vec c cs out vec' ih h hvec := by
    obtain ⟨hc, rfl⟩ := spec_of_stop ih h
    simp [isFalse, eq_cfalse_of_isFalse hc]
  andCons vec c cs out vec' result ih h ihcs hvec := by
    obtain ⟨hc, hvec', hall⟩ := spec_of_continue ih h hvec
    refine ⟨(ihcs hvec').1, ?_⟩
    rw [(ihcs hvec').2, hall, List.any_cons, List.all_cons, hc, Bool.and_assoc, Bool.false_or]

/-- The vector `simplify` returns holds `FALSE` only for the tree `FALSE`, and its
conjunction is false exactly when the top conjunctions refute the tree. -/
theorem simplify_specBy (c : Constraint) : SpecBy lit c c.simplify :=
  (simplifyRule_specBy lit).simplify c

/-! ## Values of variables -/

/-- What `simplify` guarantees for one tree. -/
def Spec (ρ : Nat → Bool) (c : Constraint) (vec : List Constraint) : Prop :=
  vec.any isFalse = c.isFalse ∧ vec.all (eval ρ) = !refutes ρ c

def literals (ρ : Nat → Bool) (sign : Bool) (v : Nat) : Bool := ρ v == sign

mutual

theorem evalBy_literals (ρ : Nat → Bool) : ∀ c : Constraint, evalBy (literals ρ) c = eval ρ c
  | ctrue => by simp
  | cfalse => by simp
  | var v => by simp [evalBy, literals]
  | notvar v => by simp [evalBy, literals]
  | implies l r => by simp [evalBy, evalBy_literals ρ l, evalBy_literals ρ r]
  | and cs => by simp [map_evalBy_literals ρ cs]
  | or cs => by simp [map_evalBy_literals ρ cs]

theorem map_evalBy_literals (ρ : Nat → Bool) : ∀ cs : List Constraint,
    cs.all (evalBy (literals ρ)) = cs.all (eval ρ) ∧ cs.any (evalBy (literals ρ)) = cs.any (eval ρ)
  | [] => ⟨rfl, rfl⟩
  | c :: cs => by simp [evalBy_literals ρ c, map_evalBy_literals ρ cs]

end

mutual

private theorem settledBy_literals (ρ : Nat → Bool) : ∀ (b : Bool) (c : Constraint),
    settledBy (literals ρ) b c = settled ρ b c
  | b, ctrue => by simp [settledBy, settled]
  | b, cfalse => by simp [settledBy, settled]
  | b, var v => by cases b <;> cases h : ρ v <;> simp [settledBy, settled, literals, h]
  | b, notvar v => by cases b <;> cases h : ρ v <;> simp [settledBy, settled, literals, h]
  | b, implies l r => by
      simp [settledBy, settled, settledBy_literals ρ (!b) l, settledBy_literals ρ b r]
  | b, and cs => by simp [map_settledBy_literals ρ b cs]
  | b, or cs => by simp [map_settledBy_literals ρ b cs]

theorem map_settledBy_literals (ρ : Nat → Bool) : ∀ (b : Bool) (cs : List Constraint),
    cs.all (settledBy (literals ρ) b) = cs.all (settled ρ b) ∧
      cs.any (settledBy (literals ρ) b) = cs.any (settled ρ b)
  | _, [] => ⟨rfl, rfl⟩
  | b, c :: cs => by simp [settledBy_literals ρ b c, map_settledBy_literals ρ b cs]

end

mutual

private theorem refutesBy_literals (ρ : Nat → Bool) : ∀ c : Constraint,
    refutesBy (literals ρ) c = refutes ρ c
  | ctrue => rfl
  | cfalse => rfl
  | var v => by simp only [refutesBy, refutes, settledBy_literals]
  | notvar v => by simp only [refutesBy, refutes, settledBy_literals]
  | implies l r => by simp only [refutesBy, refutes, settledBy_literals]
  | or cs => by simp only [refutesBy, refutes, settledBy_literals]
  | and cs => by simp [any_refutesBy_literals ρ cs]

theorem any_refutesBy_literals (ρ : Nat → Bool) : ∀ cs : List Constraint,
    cs.any (refutesBy (literals ρ)) = cs.any (refutes ρ)
  | [] => rfl
  | c :: cs => by simp [refutesBy_literals ρ c, any_refutesBy_literals ρ cs]

end

/-- The vector `simplify` returns holds `FALSE` only for the tree `FALSE`, and its
conjunction is false exactly when the top conjunctions refute the tree. -/
theorem simplify_spec (ρ : Nat → Bool) (c : Constraint) : Spec ρ c c.simplify := by
  obtain ⟨hfalse, hall⟩ := simplify_specBy (literals ρ) c
  refine ⟨hfalse, ?_⟩
  rw [(map_evalBy_literals ρ c.simplify).1, refutesBy_literals] at hall
  exact hall

/-- The conjunction of the clauses has the value of the tree exactly when the
tree is true or its top conjunctions refute it. -/
theorem simplify_faithful_iff (ρ : Nat → Bool) (c : Constraint) :
    c.simplify.all (eval ρ) = eval ρ c ↔ eval ρ c = true ∨ refutes ρ c = true := by
  rw [(simplify_spec ρ c).2]
  cases hrefutes : refutes ρ c with
  | true => simp [eval_of_refutes ρ c hrefutes]
  | false =>
    simp only [Bool.not_false, Bool.false_eq_true, or_false]
    exact eq_comm

/-- An AND with the constant `FALSE` comes back as `TRUE`. -/
theorem simplify_not_faithful :
    ¬ ∀ (c : Constraint) (ρ : Nat → Bool), c.simplify.all (eval ρ) = eval ρ c := by
  intro h
  have := (simplify_faithful_iff (fun _ => true) (and [var 1, cfalse])).mp (h _ _)
  simp [isFalse] at this

/-! ## Trees on which the conversion is exact -/

mutual

theorem settled_of_implicationFree (ρ : Nat → Bool) : ∀ (b : Bool) (c : Constraint),
    c.implicationFree = true → settled ρ b c = (eval ρ c == b)
  | b, ctrue, _ => by cases b <;> simp [settled]
  | b, cfalse, _ => by cases b <;> simp [settled]
  | b, var v, _ => by simp [settled]
  | b, notvar v, _ => by cases b <;> cases h : ρ v <;> simp [settled, h]
  | b, implies l r, h => by simp [implicationFree] at h
  | b, and cs, h => by
      have ih := fun b => map_settled_of_implicationFree ρ b cs (by simpa using h)
      cases b <;> simp [ih, List.any_eq_not_all_not]
  | b, or cs, h => by
      have ih := fun b => map_settled_of_implicationFree ρ b cs (by simpa using h)
      cases b <;> simp [ih, List.not_any_eq_all_not]

theorem map_settled_of_implicationFree (ρ : Nat → Bool) : ∀ (b : Bool) (cs : List Constraint),
    (∀ c ∈ cs, c.implicationFree = true) →
    cs.all (settled ρ b) = (cs.all fun c => eval ρ c == b) ∧
      cs.any (settled ρ b) = (cs.any fun c => eval ρ c == b)
  | _, [], _ => ⟨rfl, rfl⟩
  | b, c :: cs, h => by
      rw [List.forall_mem_cons] at h
      have ih := map_settled_of_implicationFree ρ b cs h.2
      simp [settled_of_implicationFree ρ b c h.1, ih]

end

private theorem simplify_or_exact (ρ : Nat → Bool) (cs : List Constraint)
    (h : ∀ c ∈ cs, c.implicationFree = true) :
    (or cs).simplify.all (eval ρ) = cs.any (eval ρ) := by
  have := settled_of_implicationFree ρ false (or cs) (by simpa using h)
  rw [(simplify_spec ρ (or cs)).2, refutes_or, ← eval_or]
  simp_all

private theorem simplify_implies_exact (ρ : Nat → Bool) (l r : Constraint)
    (hl : l.implicationFree = true) (hr : r.implicationFree = true) :
    (implies l r).simplify.all (eval ρ) = (!eval ρ l || eval ρ r) := by
  rw [(simplify_spec ρ (implies l r)).2]
  simp [refutes, settled, settled_of_implicationFree ρ _ l hl,
    settled_of_implicationFree ρ _ r hr]

/-! ## The clauses given to the solver -/

def addConstraint (c : Constraint) : List Constraint :=
  c.simplify.filter fun d => !d.isTrue

theorem all_addConstraint (ρ : Nat → Bool) (c : Constraint) :
    (addConstraint c).all (eval ρ) = c.simplify.all (eval ρ) := by
  rw [addConstraint, List.all_filter]
  congr 1
  funext d
  cases h : d.isTrue with
  | true => simp [eq_ctrue_of_isTrue h]
  | false => simp

theorem all_addConstraint_or (ρ : Nat → Bool) (cs : List Constraint)
    (h : ∀ c ∈ cs, c.implicationFree = true) :
    (addConstraint (or cs)).all (eval ρ) = eval ρ (or cs) := by
  rw [all_addConstraint, simplify_or_exact ρ cs h, eval_or]

theorem all_addConstraint_implies (ρ : Nat → Bool) (l r : Constraint)
    (hl : l.implicationFree = true) (hr : r.implicationFree = true) :
    (addConstraint (implies l r)).all (eval ρ) = eval ρ (implies l r) := by
  rw [all_addConstraint, simplify_implies_exact ρ l r hl hr, eval_implies]

end Constraint

end SatCheck
