import SatCheck.ProcessEquals
import SatCheck.Simplify
/-!
# Constraints between encodings

What the clauses of an added constraint say about the values that the records encode.
-/

namespace SatCheck

namespace Constraint

variable {ρ : Nat → Bool}

/-- The clauses of every constraint hold.  `none` stands for a constraint with a `NULL` operand. -/
def Added (ρ : Nat → Bool) (cs : List (Option Constraint)) : Prop :=
  ∀ c, some c ∈ cs → (addConstraint c).all (eval ρ) = true

theorem Added.of_subset {cs ds : List (Option Constraint)} (h : Added ρ ds)
    (hsub : ∀ c ∈ cs, c ∈ ds) : Added ρ cs :=
  fun c hc => h c (hsub _ hc)

theorem added_append_iff {cs ds : List (Option Constraint)} :
    Added ρ (cs ++ ds) ↔ Added ρ cs ∧ Added ρ ds := by
  simp only [Added, List.mem_append]
  exact ⟨fun h => ⟨fun c hc => h c (.inl hc), fun c hc => h c (.inr hc)⟩,
    fun h c hc => hc.elim (h.1 c) (h.2 c)⟩

theorem added_cons_iff {c : Option Constraint} {cs : List (Option Constraint)} :
    Added ρ (c :: cs) ↔ Added ρ [c] ∧ Added ρ cs := by
  rw [← added_append_iff, List.singleton_append]

theorem added_flatMap_iff {α : Type} {f : α → List (Option Constraint)} {xs : List α} :
    Added ρ (xs.flatMap f) ↔ ∀ x ∈ xs, Added ρ (f x) := by
  simp only [Added, List.mem_flatMap]
  exact ⟨fun h x hx c hc => h c ⟨x, hx, hc⟩, fun h c ⟨x, hx, hc⟩ => h x hx c hc⟩

theorem added_implies_iff {l r : Constraint} (hl : l.implicationFree = true)
    (hr : r.implicationFree = true) :
    Added ρ [some (.implies l r)] ↔ (eval ρ l = true → eval ρ r = true) := by
  simp only [Added, List.mem_singleton, Option.some.injEq, forall_eq,
    all_addConstraint_implies ρ l r hl hr, eval_implies]
  cases eval ρ l <;> simp

theorem added_of_all {cs : List (Option Constraint)}
    (h : (cs.all fun c => c.all fun c => !refutes ρ c) = true) : Added ρ cs := by
  intro c hc
  rw [all_addConstraint, (simplify_spec ρ c).2]
  exact List.all_eq_true.mp h (some c) hc

/-- `new Constraint(AND, l, r)`. -/
def both (l r : Option Constraint) : Option Constraint :=
  l.bind fun l => r.map fun r => .and [l, r]

theorem both_some (l r : Constraint) : both (some l) (some r) = some (.and [l, r]) := rfl

theorem Added.of_implies {cs : List (Option Constraint)} {l r : Constraint} (h : Added ρ cs)
    (hmem : some (.implies l r) ∈ cs) (hl : l.implicationFree = true)
    (hr : r.implicationFree = true) (heval : eval ρ l = true) : eval ρ r = true := by
  have himplies := h _ hmem
  rw [all_addConstraint_implies ρ l r hl hr, eval_implies, heval] at himplies
  simpa using himplies

mutual

theorem implicationFree_negate : ∀ c : Constraint, c.implicationFree = true →
    c.negate.implicationFree = true
  | ctrue, _ => rfl
  | cfalse, _ => rfl
  | var _, _ => rfl
  | notvar _, _ => rfl
  | implies l r, h => by simp [implicationFree] at h
  | and cs, h => by
      rw [negate_and, implicationFree_or, List.all_eq_true]
      exact implicationFree_map_negate cs (by simpa using h)
  | or cs, h => by
      rw [negate_or, implicationFree_and, List.all_eq_true]
      exact implicationFree_map_negate cs (by simpa using h)

theorem implicationFree_map_negate : ∀ cs : List Constraint,
    (∀ c ∈ cs, c.implicationFree = true) → ∀ c ∈ cs.map negate, c.implicationFree = true
  | [], _ => by simp
  | c :: cs, h => by
      rw [List.forall_mem_cons] at h
      rw [List.map_cons, List.forall_mem_cons]
      exact ⟨implicationFree_negate c h.1, implicationFree_map_negate cs h.2⟩

end

private theorem any_refutes_of_literals {cs : List Constraint} (h : ∀ c ∈ cs, c.isLiteral = true) :
    cs.any (refutes ρ) = !cs.all (eval ρ) := by
  induction cs with
  | nil => rfl
  | cons c cs ih =>
    rw [List.forall_mem_cons] at h
    have hc : refutes ρ c = !eval ρ c := by
      cases c <;> simp_all [isLiteral, refutes, settled]
    simp [ih h.2, hc]

theorem Added.eval_literal {cs : List (Option Constraint)} {c : Constraint} (h : Added ρ cs)
    (hmem : some c ∈ cs) (hlit : c.isLiteral = true) : eval ρ c = true := by
  have hclauses := h c hmem
  rw [all_addConstraint, (simplify_spec ρ c).2] at hclauses
  cases c <;> simp_all [isLiteral, refutes, settled]

theorem all_addConstraint_generateConstraint (vars : List Nat) (n : Nat) :
    (addConstraint (generateConstraint vars n)).all (eval ρ) =
      eval ρ (generateConstraint vars n) := by
  have hliteral : ∀ c ∈ bitArray vars n, c.isLiteral = true := by
    induction vars generalizing n with
    | nil => simp [bitArray]
    | cons v vars ih =>
      rw [bitArray, List.forall_mem_cons]
      refine ⟨?_, ih (n / 2)⟩
      split_ifs <;> rfl
  rw [all_addConstraint, generateConstraint, (simplify_spec ρ _).2, refutes_and,
    any_isFalse_of_literals hliteral, any_refutes_of_literals hliteral, eval_and]
  simp

private theorem refutes_or_of_implicationFree {ds : List Constraint}
    (h : ∀ c ∈ ds, c.implicationFree = true) : refutes ρ (.or ds) = !eval ρ (.or ds) := by
  have hsettled := settled_of_implicationFree ρ false (.or ds) (by simpa using h)
  simp only [refutes, hsettled, beq_false]

theorem all_addConstraint_and_or {ds ds' : List Constraint}
    (h : ∀ c ∈ ds, c.implicationFree = true) (h' : ∀ c ∈ ds', c.implicationFree = true) :
    (addConstraint (.and [.or ds, .or ds'])).all (eval ρ) = eval ρ (.and [.or ds, .or ds']) := by
  rw [all_addConstraint, (simplify_spec ρ _).2, refutes_and, eval_and]
  simp only [List.any_cons, List.any_nil, List.all_cons, List.all_nil, isFalse,
    refutes_or_of_implicationFree h, refutes_or_of_implicationFree h']
  cases eval ρ (.or ds) <;> cases eval ρ (.or ds') <;> rfl

/-- A guarded equivalence is converted exactly: its implications stand behind the guard. -/
theorem all_addConstraint_guarded_iff {guard l r : Constraint}
    (hguard : guard.implicationFree = true) (hl : l.implicationFree = true)
    (hr : r.implicationFree = true) :
    (addConstraint (.implies guard (.and [.implies l r, .implies r l]))).all (eval ρ) = true ↔
      (eval ρ guard = true → (eval ρ l = true ↔ eval ρ r = true)) := by
  have hg := settled_of_implicationFree ρ true guard hguard
  have hlb := fun b => settled_of_implicationFree ρ b l hl
  have hrb := fun b => settled_of_implicationFree ρ b r hr
  rw [all_addConstraint, (simplify_spec ρ _).2]
  simp only [refutes, settled, settledAny, settledAll, hg, hlb, hrb, Bool.not_false]
  cases eval ρ guard <;> cases eval ρ l <;> cases eval ρ r <;> simp

end Constraint

open Constraint

namespace EncodingTables

variable {R : Type} {t : EncodingTables R} {r : R} {ρ : Nat → Bool} {v w : UInt64}

/-! ## The value of a record -/

theorem Encodes.encodable (h : t.Encodes ρ r v) : t.Encodable r v := by
  unfold Encodes at h
  unfold Encodable
  cases hevent : (t.info r).event <;> simp only [hevent] at h ⊢
  · exact h.1
  · exact h.1
  · exact h.1

theorem Encodes.isReturned (h : t.Encodes ρ r v) : t.IsReturned r v := by
  intro hevent
  unfold Encodes at h
  simp only [hevent] at h
  split_ifs at h
  · exact .inr h
  · exact .inl h

theorem Encodes.encoding (h : t.Encodes ρ r v) :
    ∃ c, t.getRetValueEncoding r v = some c ∧ c.implicationFree = true ∧ eval ρ c = true := by
  obtain ⟨c, hc, hfree, heval⟩ := exists_encoding h.encodable
  exact ⟨c, hc, hfree, (heval h.isReturned ρ).mpr h⟩

/-- Every encoding is free of implications, and that of another value does not hold. -/
theorem Encodes.encoding_ne {c : Constraint} (h : t.Encodes ρ r v)
    (hc : t.getRetValueEncoding r w = some c) (hreturned : t.IsReturned r w) (hne : w ≠ v) :
    c.implicationFree = true ∧ eval ρ c = false := by
  have hknown : t.Encodable r w := by
    by_contra hunknown
    rw [getRetValueEncoding_eq_none hunknown] at hc
    contradiction
  obtain ⟨d, hd, hfree, heval⟩ := exists_encoding hknown
  obtain rfl : d = c := Option.some.inj (hd.symm.trans hc)
  refine ⟨hfree, Bool.eq_false_iff.mpr fun htrue => hne ?_⟩
  exact ((heval hreturned ρ).mp htrue).unique h

variable (t) in
/-- A comparison that returns 1 is taken to return the value: every value but 0 is encoded so. -/
def TakenFor (r : R) (value returned : UInt64) : Prop :=
  (t.info r).event = .equals ∧ returned = 1 ∧ value ≠ 0 ∧ value ≠ 1

theorem not_takenFor (hevent : (t.info r).event ≠ .equals) : ¬ t.TakenFor r w v :=
  fun h => hevent h.1

theorem Encodes.eval_encoding_iff {c : Constraint} (h : t.Encodes ρ r v)
    (hc : t.getRetValueEncoding r w = some c) :
    c.implicationFree = true ∧ (eval ρ c = true ↔ w = v ∨ t.TakenFor r w v) := by
  by_cases hreturned : t.IsReturned r w
  · have hnot : ¬ t.TakenFor r w v := by
      rintro ⟨hevent, -, hzero, hone⟩
      rcases hreturned hevent with h0 | h1
      · exact hzero h0
      · exact hone h1
    by_cases heq : w = v
    · subst heq
      obtain ⟨d, hd, hfree, heval⟩ := h.encoding
      obtain rfl : d = c := Option.some.inj (hd.symm.trans hc)
      exact ⟨hfree, iff_of_true heval (.inl rfl)⟩
    · obtain ⟨hfree, heval⟩ := h.encoding_ne hc hreturned heq
      refine ⟨hfree, iff_of_false (by simp [heval]) ?_⟩
      rintro (h1 | h1)
      · exact heq h1
      · exact hnot h1
  · unfold IsReturned at hreturned
    push Not at hreturned
    obtain ⟨hevent, hzero, hone⟩ := hreturned
    unfold getRetValueEncoding at hc
    unfold Encodes at h
    simp only [hevent, hzero, ne_eq, not_false_eq_true, if_true, Option.some.injEq] at hc h
    subst hc
    refine ⟨rfl, ?_⟩
    rw [eval_var]
    unfold TakenFor
    cases hvar : ρ (t.equalstable r) <;> simp [hvar] at h <;> simp [h, hevent, hzero, hone]

/-- The encoding of a value that is taken for the one of the record holds as well. -/
theorem Encodes.encoding_of_alike (h : t.Encodes ρ r v) (halike : w = v ∨ t.TakenFor r w v) :
    ∃ c, t.getRetValueEncoding r w = some c ∧ c.implicationFree = true ∧ eval ρ c = true := by
  have hknown : t.Encodable r w := by
    rcases halike with rfl | htaken
    · exact h.encodable
    · unfold Encodable
      simp [htaken.1]
  obtain ⟨c, hc, hfree, -⟩ := exists_encoding hknown
  exact ⟨c, hc, hfree, (h.eval_encoding_iff hc).2.mpr halike⟩

theorem implicationFree_getRetValueEncoding {c : Constraint}
    (hc : t.getRetValueEncoding r w = some c) : c.implicationFree = true := by
  have hknown : t.Encodable r w := by
    by_contra hunknown
    rw [getRetValueEncoding_eq_none hunknown] at hc
    contradiction
  obtain ⟨d, hd, hfree, -⟩ := exists_encoding hknown
  exact Option.some.inj (hd.symm.trans hc) ▸ hfree

/-- An encoding that holds is that of the value of the record, or one that is taken for it. -/
theorem exists_encodes {c : Constraint} (hc : t.getRetValueEncoding r w = some c)
    (heval : eval ρ c = true) : ∃ v, t.Encodes ρ r v ∧ (w = v ∨ t.TakenFor r w v) := by
  by_cases hreturned : t.IsReturned r w
  · have hknown : t.Encodable r w := by
      by_contra hunknown
      rw [getRetValueEncoding_eq_none hunknown] at hc
      contradiction
    obtain ⟨d, hd, -, hencodes⟩ := exists_encoding hknown
    obtain rfl : d = c := Option.some.inj (hd.symm.trans hc)
    exact ⟨w, (hencodes hreturned ρ).mp heval, .inl rfl⟩
  · unfold IsReturned at hreturned
    push Not at hreturned
    obtain ⟨hevent, hzero, hone⟩ := hreturned
    refine ⟨1, ?_, .inr ⟨hevent, rfl, hzero, hone⟩⟩
    unfold getRetValueEncoding at hc
    simp only [hevent, hzero, ne_eq, not_false_eq_true, if_true, Option.some.injEq] at hc
    subst hc
    rw [eval_var] at heval
    unfold Encodes
    simp [hevent, heval]

end EncodingTables

end SatCheck
