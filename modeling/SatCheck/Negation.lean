import SatCheck.Constraint
/-!
# What `negate` returns

`negate` swaps the sides of an implication, so that an implication whose sides are both true or
both false stays true.  Apart from such implications a tree and its negation are opposite.
-/

namespace SatCheck.Constraint

mutual

/-- The tree holds through implications whose sides have one truth value: it is such an
implication, or an AND that holds and has such an operand, or an OR all of whose true operands
are such, with at least one. -/
def holdsEvenly (ρ : Nat → Bool) : Constraint → Bool
  | implies l r => l.eval ρ == r.eval ρ
  | and operands => evalAll ρ operands && anyEvenly ρ operands
  | or operands => anyEvenly ρ operands && trueEvenly ρ operands
  | _ => false

def anyEvenly (ρ : Nat → Bool) : List Constraint → Bool
  | [] => false
  | c :: cs => c.holdsEvenly ρ || anyEvenly ρ cs

def trueEvenly (ρ : Nat → Bool) : List Constraint → Bool
  | [] => true
  | c :: cs => (!c.eval ρ || c.holdsEvenly ρ) && trueEvenly ρ cs

end

mutual

theorem eval_of_holdsEvenly (ρ : Nat → Bool) : ∀ c : Constraint,
    c.holdsEvenly ρ = true → eval ρ c = true
  | ctrue, h => by simp [holdsEvenly] at h
  | cfalse, h => by simp [holdsEvenly] at h
  | var v, h => by simp [holdsEvenly] at h
  | notvar v, h => by simp [holdsEvenly] at h
  | implies l r, h => by
      rw [holdsEvenly, beq_iff_eq] at h
      rw [eval_implies, h, Bool.not_or_self]
  | and cs, h => by
      rw [holdsEvenly, Bool.and_eq_true] at h
      rw [eval]
      exact h.1
  | or cs, h => by
      rw [holdsEvenly, Bool.and_eq_true] at h
      rw [eval]
      exact evalAny_of_anyEvenly ρ cs h.1

theorem evalAny_of_anyEvenly (ρ : Nat → Bool) : ∀ cs : List Constraint,
    anyEvenly ρ cs = true → evalAny ρ cs = true
  | [], h => by simp [anyEvenly] at h
  | c :: cs, h => by
      rw [anyEvenly, Bool.or_eq_true] at h
      rw [evalAny, Bool.or_eq_true]
      cases h with
      | inl h => exact Or.inl (eval_of_holdsEvenly ρ c h)
      | inr h => exact Or.inr (evalAny_of_anyEvenly ρ cs h)

end

private theorem anyEvenly_of_trueEvenly {ρ : Nat → Bool} {cs : List Constraint}
    (hany : evalAny ρ cs = true) (h : trueEvenly ρ cs = true) : anyEvenly ρ cs = true := by
  induction cs with
  | nil => simp [evalAny] at hany
  | cons c cs ih =>
    rw [evalAny, Bool.or_eq_true] at hany
    rw [trueEvenly, Bool.and_eq_true] at h
    rw [anyEvenly, Bool.or_eq_true]
    cases hany with
    | inl hc => exact Or.inl (by simpa [hc] using h.1)
    | inr hcs => exact Or.inr (ih hcs h.2)

private theorem trueEvenly_of_evalAny_eq_false {ρ : Nat → Bool} {cs : List Constraint}
    (h : evalAny ρ cs = false) : trueEvenly ρ cs = true := by
  induction cs with
  | nil => rfl
  | cons c cs ih =>
    rw [evalAny, Bool.or_eq_false_iff] at h
    rw [trueEvenly, ih h.2, h.1]
    rfl

mutual

private theorem eval_negate_eq (ρ : Nat → Bool) : ∀ c : Constraint,
    eval ρ c.negate = (!eval ρ c || c.holdsEvenly ρ)
  | ctrue => rfl
  | cfalse => rfl
  | var v => by simp [negate, holdsEvenly]
  | notvar v => by simp [negate, holdsEvenly]
  | implies l r => by
      rw [negate, eval_implies, eval_implies, holdsEvenly]
      cases eval ρ l <;> cases eval ρ r <;> rfl
  | and cs => by
      rw [negate, eval, eval, holdsEvenly, evalAny_negateAll ρ cs]
      cases evalAll ρ cs <;> rfl
  | or cs => by
      rw [negate, eval, eval, holdsEvenly, evalAll_negateAll ρ cs]
      cases hany : evalAny ρ cs with
      | false => rw [trueEvenly_of_evalAny_eq_false hany]; rfl
      | true =>
        cases htrue : trueEvenly ρ cs with
        | false => rw [Bool.and_false]; rfl
        | true => rw [anyEvenly_of_trueEvenly hany htrue]; rfl

theorem evalAny_negateAll (ρ : Nat → Bool) : ∀ cs : List Constraint,
    evalAny ρ (negateAll cs) = (!evalAll ρ cs || anyEvenly ρ cs)
  | [] => rfl
  | c :: cs => by
      rw [negateAll, evalAny, evalAll, anyEvenly, eval_negate_eq ρ c, evalAny_negateAll ρ cs]
      cases eval ρ c <;> cases evalAll ρ cs <;> simp

theorem evalAll_negateAll (ρ : Nat → Bool) : ∀ cs : List Constraint,
    evalAll ρ (negateAll cs) = trueEvenly ρ cs
  | [] => rfl
  | c :: cs => by
      rw [negateAll, evalAll, trueEvenly, eval_negate_eq ρ c, evalAll_negateAll ρ cs]

end

/-- `negate` returns a tree of the opposite truth value exactly where the tree does not hold
evenly. -/
theorem eval_negate_eq_not_iff (ρ : Nat → Bool) (c : Constraint) :
    eval ρ c.negate = !eval ρ c ↔ c.holdsEvenly ρ = false := by
  rw [eval_negate_eq]
  cases heven : c.holdsEvenly ρ with
  | false => simp
  | true => simp [eval_of_holdsEvenly ρ c heven]

/-- An implication from TRUE to TRUE is its own negation. -/
theorem not_forall_eval_negate :
    ¬ ∀ (c : Constraint) (ρ : Nat → Bool), eval ρ c.negate = !eval ρ c := by
  intro h
  have htrue := h (.implies .ctrue .ctrue) fun _ => false
  simp [negate] at htrue

end SatCheck.Constraint
