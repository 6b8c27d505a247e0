import Mathlib.Data.List.Basic
/-!
# Constraint trees

`Constraint` follows `constraint.h`.  A node is a value here, so `clone` is the
identity and `free`/`freerec` have no counterpart: the C++ code only ever frees
nodes it no longer uses and mutates nodes it owns.  The `neg` link of a variable
node is the literal of the opposite sign.
-/

namespace SatCheck

inductive Constraint where
  | ctrue
  | cfalse
  | implies (l r : Constraint)
  | and (operands : List Constraint)
  | or (operands : List Constraint)
  | var (index : Nat)
  | notvar (index : Nat)
  deriving Repr

namespace Constraint

mutual

def eval (ρ : Nat → Bool) : Constraint → Bool
  | ctrue => true
  | cfalse => false
  | implies l r => !l.eval ρ || r.eval ρ
  | and operands => evalAll ρ operands
  | or operands => evalAny ρ operands
  | var v => ρ v
  | notvar v => !ρ v

def evalAll (ρ : Nat → Bool) : List Constraint → Bool
  | [] => true
  | c :: cs => c.eval ρ && evalAll ρ cs

def evalAny (ρ : Nat → Bool) : List Constraint → Bool
  | [] => false
  | c :: cs => c.eval ρ || evalAny ρ cs

end

private theorem evalAll_eq_all (ρ : Nat → Bool) (cs : List Constraint) :
    evalAll ρ cs = cs.all (eval ρ) := by
  induction cs with
  | nil => rfl
  | cons c cs ih => simp [evalAll, ih]

private theorem evalAny_eq_any (ρ : Nat → Bool) (cs : List Constraint) :
    evalAny ρ cs = cs.any (eval ρ) := by
  induction cs with
  | nil => rfl
  | cons c cs ih => simp [evalAny, ih]

@[simp] theorem eval_ctrue (ρ : Nat → Bool) : eval ρ ctrue = true := by simp [eval]

@[simp] theorem eval_cfalse (ρ : Nat → Bool) : eval ρ cfalse = false := by simp [eval]

@[simp] theorem eval_var (ρ : Nat → Bool) (v : Nat) : eval ρ (var v) = ρ v := by simp [eval]

@[simp] theorem eval_notvar (ρ : Nat → Bool) (v : Nat) :
    eval ρ (notvar v) = !ρ v := by simp [eval]

@[simp] theorem eval_implies (ρ : Nat → Bool) (l r : Constraint) :
    eval ρ (implies l r) = (!eval ρ l || eval ρ r) := by simp [eval]

@[simp] theorem eval_and (ρ : Nat → Bool) (cs : List Constraint) :
    eval ρ (and cs) = cs.all (eval ρ) := by
  simp [eval, evalAll_eq_all]

@[simp] theorem eval_or (ρ : Nat → Bool) (cs : List Constraint) :
    eval ρ (or cs) = cs.any (eval ρ) := by
  simp [eval, evalAny_eq_any]

def isTrue : Constraint → Bool
  | ctrue => true
  | _ => false

def isFalse : Constraint → Bool
  | cfalse => true
  | _ => false

theorem eq_ctrue_of_isTrue {c : Constraint} (h : c.isTrue = true) : c = ctrue := by
  cases c <;> simp_all [isTrue]

theorem eq_cfalse_of_isFalse {c : Constraint} (h : c.isFalse = true) : c = cfalse := by
  cases c <;> simp_all [isFalse]

mutual

/-- `Constraint::negate`.  The operands of an implication trade places and are
not negated themselves. -/
def negate : Constraint → Constraint
  | ctrue => cfalse
  | cfalse => ctrue
  | notvar v => var v
  | var v => notvar v
  | implies l r => implies r l
  | and operands => or (negateAll operands)
  | or operands => and (negateAll operands)

def negateAll : List Constraint → List Constraint
  | [] => []
  | c :: cs => c.negate :: negateAll cs

end

theorem negateAll_eq_map (cs : List Constraint) : negateAll cs = cs.map negate := by
  induction cs with
  | nil => rfl
  | cons c cs ih => simp [negateAll, ih]

@[simp] theorem negate_and (cs : List Constraint) :
    negate (and cs) = or (cs.map negate) := by
  simp [negate, negateAll_eq_map]

@[simp] theorem negate_or (cs : List Constraint) :
    negate (or cs) = and (cs.map negate) := by
  simp [negate, negateAll_eq_map]

mutual

def implicationFree : Constraint → Bool
  | implies _ _ => false
  | and operands => implicationFreeAll operands
  | or operands => implicationFreeAll operands
  | _ => true

def implicationFreeAll : List Constraint → Bool
  | [] => true
  | c :: cs => c.implicationFree && implicationFreeAll cs

end

theorem implicationFreeAll_eq_all (cs : List Constraint) :
    implicationFreeAll cs = cs.all implicationFree := by
  induction cs with
  | nil => rfl
  | cons c cs ih => simp [implicationFreeAll, ih]

@[simp] theorem implicationFree_and (cs : List Constraint) :
    implicationFree (and cs) = cs.all implicationFree := by
  simp [implicationFree, implicationFreeAll_eq_all]

@[simp] theorem implicationFree_or (cs : List Constraint) :
    implicationFree (or cs) = cs.all implicationFree := by
  simp [implicationFree, implicationFreeAll_eq_all]

mutual

/-- On a tree without implications `negate` is negation. -/
theorem eval_negate (ρ : Nat → Bool) : ∀ c : Constraint, c.implicationFree = true →
    eval ρ c.negate = !eval ρ c
  | ctrue, _ => rfl
  | cfalse, _ => rfl
  | var v, _ => rfl
  | notvar v, _ => by simp [negate]
  | implies l r, h => by simp [implicationFree] at h
  | and cs, h => by
      rw [negate_and, eval_or, eval_and]
      exact any_map_negate ρ cs (by simpa using h)
  | or cs, h => by
      rw [negate_or, eval_and, eval_or]
      exact all_map_negate ρ cs (by simpa using h)

theorem any_map_negate (ρ : Nat → Bool) : ∀ cs : List Constraint,
    (∀ c ∈ cs, c.implicationFree = true) →
    (cs.map negate).any (eval ρ) = !cs.all (eval ρ)
  | [], _ => rfl
  | c :: cs, h => by
      have hc := eval_negate ρ c (h c (by simp))
      have hcs := any_map_negate ρ cs (fun d hd => h d (by simp [hd]))
      simp [hc, hcs, Bool.not_and]

theorem all_map_negate (ρ : Nat → Bool) : ∀ cs : List Constraint,
    (∀ c ∈ cs, c.implicationFree = true) →
    (cs.map negate).all (eval ρ) = !cs.any (eval ρ)
  | [], _ => rfl
  | c :: cs, h => by
      have hc := eval_negate ρ c (h c (by simp))
      have hcs := all_map_negate ρ cs (fun d hd => h d (by simp [hd]))
      simp [hc, hcs, Bool.not_or]

end

end Constraint

end SatCheck
