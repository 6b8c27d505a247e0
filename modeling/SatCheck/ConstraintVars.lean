import SatCheck.Encoding
import SatCheck.Simplify
/-!
# The variables of a constraint

A constraint reads its own variables only.  `varsAll p` says that all of them have a property.
-/

namespace SatCheck

namespace Constraint

mutual

def varsAll (p : Nat → Bool) : Constraint → Bool
  | ctrue => true
  | cfalse => true
  | implies l r => l.varsAll p && r.varsAll p
  | and operands => varsAllList p operands
  | or operands => varsAllList p operands
  | var v => p v
  | notvar v => p v

def varsAllList (p : Nat → Bool) : List Constraint → Bool
  | [] => true
  | c :: cs => c.varsAll p && varsAllList p cs

end

variable (p : Nat → Bool)

theorem varsAllList_eq_all (cs : List Constraint) : varsAllList p cs = cs.all (varsAll p) := by
  induction cs with
  | nil => rfl
  | cons c cs ih => simp [varsAllList, ih]

@[simp] theorem varsAll_and (cs : List Constraint) : varsAll p (and cs) = cs.all (varsAll p) := by
  simp [varsAll, varsAllList_eq_all]

@[simp] theorem varsAll_or (cs : List Constraint) : varsAll p (or cs) = cs.all (varsAll p) := by
  simp [varsAll, varsAllList_eq_all]

@[simp] theorem varsAll_cfalse : varsAll p cfalse = true := by simp [varsAll]

@[simp] theorem varsAll_implies (l r : Constraint) :
    varsAll p (implies l r) = (varsAll p l && varsAll p r) := by
  simp [varsAll]

mutual

theorem varsAll_negate : ∀ c : Constraint, varsAll p c.negate = varsAll p c
  | ctrue => rfl
  | cfalse => rfl
  | var v => rfl
  | notvar v => rfl
  | implies l r => by simp [negate, varsAll, Bool.and_comm]
  | and cs => by simp [all_varsAll_negate cs]
  | or cs => by simp [all_varsAll_negate cs]

theorem all_varsAll_negate : ∀ cs : List Constraint,
    (cs.map negate).all (varsAll p) = cs.all (varsAll p)
  | [] => rfl
  | c :: cs => by
      rw [List.map_cons, List.all_cons, List.all_cons, varsAll_negate c, all_varsAll_negate cs]

end

/-! ## Values -/

variable {p} {ρ ρ' : Nat → Bool}

mutual

theorem settled_congr (h : ∀ v, p v = true → ρ v = ρ' v) : ∀ (b : Bool) (c : Constraint),
    varsAll p c = true → settled ρ b c = settled ρ' b c
  | _, ctrue, _ => rfl
  | _, cfalse, _ => rfl
  | b, var v, hc => by simp only [settled, h v hc]
  | b, notvar v, hc => by simp only [settled, h v hc]
  | b, implies l r, hc => by
      rw [varsAll_implies, Bool.and_eq_true] at hc
      simp only [settled, settled_congr h (!b) l hc.1, settled_congr h b r hc.2]
  | b, and cs, hc => by
      have ih := map_settled_congr h b cs (by simpa using hc)
      rw [settled_and, settled_and, ih.1, ih.2]
  | b, or cs, hc => by
      have ih := map_settled_congr h b cs (by simpa using hc)
      rw [settled_or, settled_or, ih.1, ih.2]

theorem map_settled_congr (h : ∀ v, p v = true → ρ v = ρ' v) : ∀ (b : Bool) (cs : List Constraint),
    (∀ c ∈ cs, varsAll p c = true) →
    cs.all (settled ρ b) = cs.all (settled ρ' b) ∧ cs.any (settled ρ b) = cs.any (settled ρ' b)
  | _, [], _ => ⟨rfl, rfl⟩
  | b, c :: cs, hcs => by
      rw [List.forall_mem_cons] at hcs
      have ih := map_settled_congr h b cs hcs.2
      simp only [List.all_cons, List.any_cons, settled_congr h b c hcs.1, ih.1, ih.2, and_self]

end

theorem eval_congr_vars (h : ∀ v, p v = true → ρ v = ρ' v) {c : Constraint}
    (hfree : c.implicationFree = true) (hc : varsAll p c = true) : eval ρ c = eval ρ' c := by
  have hsettled := settled_congr h true c hc
  rwa [settled_of_implicationFree ρ true c hfree, settled_of_implicationFree ρ' true c hfree,
    beq_true, beq_true] at hsettled

mutual

private theorem refutes_congr (h : ∀ v, p v = true → ρ v = ρ' v) : ∀ c : Constraint,
    varsAll p c = true → refutes ρ c = refutes ρ' c
  | ctrue, _ => rfl
  | cfalse, _ => rfl
  | var v, hc => by simp only [refutes, settled_congr h false (var v) hc]
  | notvar v, hc => by simp only [refutes, settled_congr h false (notvar v) hc]
  | implies l r, hc => by simp only [refutes, settled_congr h false (implies l r) hc]
  | or cs, hc => by simp only [refutes, settled_congr h false (or cs) hc]
  | and cs, hc => by
      rw [refutes_and, refutes_and, any_refutes_congr h cs (by simpa using hc)]

theorem any_refutes_congr (h : ∀ v, p v = true → ρ v = ρ' v) : ∀ cs : List Constraint,
    (∀ c ∈ cs, varsAll p c = true) → cs.any (refutes ρ) = cs.any (refutes ρ')
  | [], _ => rfl
  | c :: cs, hcs => by
      rw [List.forall_mem_cons] at hcs
      rw [List.any_cons, List.any_cons, refutes_congr h c hcs.1, any_refutes_congr h cs hcs.2]

end

/-- The clauses of a constraint hold under every assignment that agrees on its variables. -/
theorem addConstraint_congr (h : ∀ v, p v = true → ρ v = ρ' v) {c : Constraint}
    (hc : varsAll p c = true) :
    (addConstraint c).all (eval ρ) = (addConstraint c).all (eval ρ') := by
  rw [all_addConstraint, all_addConstraint, (simplify_spec ρ c).2, (simplify_spec ρ' c).2,
    refutes_congr h c hc]

theorem code_congr_vars (h : ∀ v, p v = true → ρ v = ρ' v) {vars : List Nat}
    (hvars : ∀ v ∈ vars, p v = true) : code ρ vars = code ρ' vars :=
  code_congr fun v hv => h v (hvars v hv)

/-! ## Encodings -/

theorem varsAll_generateConstraint {vars : List Nat} (hvars : ∀ v ∈ vars, p v = true) (n : Nat) :
    varsAll p (generateConstraint vars n) = true := by
  rw [generateConstraint, varsAll_and]
  induction vars generalizing n with
  | nil => rfl
  | cons v vars ih =>
    rw [List.forall_mem_cons] at hvars
    rw [bitArray, List.all_cons, ih hvars.2, Bool.and_true]
    split_ifs
    · exact hvars.1
    · exact hvars.1

theorem varsAll_generateLTConstraint {vars : List Nat} (hvars : ∀ v ∈ vars, p v = true) (n : Nat) :
    varsAll p (generateLTConstraint vars n) = true := by
  have hor : ∀ m, (orArray vars m).all (varsAll p) = true := by
    intro m
    induction vars generalizing m with
    | nil => rfl
    | cons v vars ih =>
      rw [List.forall_mem_cons] at hvars
      unfold orArray
      split_ifs
      · rw [List.all_cons, ih hvars.2, Bool.and_true]
        exact hvars.1
      · exact ih hvars.2 _
  rw [generateLTConstraint, varsAll_and]
  generalize vars.length + 1 = fuel
  induction fuel generalizing n with
  | zero => rfl
  | succ fuel ih =>
    unfold andArray
    split_ifs
    · rfl
    · rw [List.all_cons, varsAll_or, hor, ih, Bool.and_self]

theorem varsAll_generateEquivConstraint {var1 var2 : List Nat} (hvar1 : ∀ v ∈ var1, p v = true)
    (hvar2 : ∀ v ∈ var2, p v = true) :
    varsAll p (generateEquivConstraint var1 var2) = true := by
  have harray : (equivArray var1 var2).all (varsAll p) = true := by
    induction var1 generalizing var2 with
    | nil => rfl
    | cons v var1 ih =>
      cases var2 with
      | nil => rfl
      | cons w var2 =>
        rw [List.forall_mem_cons] at hvar1 hvar2
        have hv : varsAll p (var v) = true := hvar1.1
        have hw : varsAll p (var w) = true := hvar2.1
        rw [equivArray, List.all_cons, List.all_cons, ih hvar1.2 hvar2.2]
        simp [varsAll_negate, hv, hw]
  unfold generateEquivConstraint
  split_ifs
  · rfl
  · rw [varsAll_and, harray]

end Constraint

end SatCheck
