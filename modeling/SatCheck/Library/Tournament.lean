import Mathlib.Order.Defs.Unbundled
import Mathlib.Order.Extension.Linear
import Mathlib.Logic.Relation
import Mathlib.Tactic.Order
/-!
# Tournaments and total orders

A tournament orders every two different elements in exactly one direction.  It
is a strict total order exactly when it has no cycle of length three, and over a
disjoint union of chains only the triangles that meet at least two chains matter.
The last section extends an acyclic relation to a strict total order.
-/

namespace SatCheck.Tournament

variable {α κ : Type*} {r : α → α → Prop}

/-- Every two different elements are related in exactly one direction. -/
structure IsTournament (r : α → α → Prop) : Prop where
  asymm : ∀ a b, r a b → ¬ r b a
  total : ∀ a b, a ≠ b → r a b ∨ r b a

def TriangleFree (r : α → α → Prop) : Prop :=
  ∀ a b c, r a b → r b c → ¬ r c a

theorem IsTournament.irrefl (h : IsTournament r) (a : α) : ¬ r a a :=
  fun haa => h.asymm a a haa haa

theorem isStrictTotalOrder_iff_triangleFree (h : IsTournament r) :
    IsStrictTotalOrder α r ↔ TriangleFree r := by
  constructor
  · intro _ a b c hab hbc hca
    exact irrefl_of r a (trans_of r (trans_of r hab hbc) hca)
  · intro hfree
    have htrans : ∀ a b c, r a b → r b c → r a c := by
      intro a b c hab hbc
      have hne : a ≠ c := by
        rintro rfl
        exact h.asymm _ _ hab hbc
      exact (h.total a c hne).resolve_right (hfree a b c hab hbc)
    exact
      { trichotomous := fun a b hab hba => by
          by_contra hne
          exact (h.total a b hne).elim hab hba
        irrefl := h.irrefl
        trans := htrans }

section Blocks

variable [LinearOrder κ] (block : α → κ)

/-- Two of the three elements of the triangle lie in one block. -/
def NoTwoBlockTriangle (r : α → α → Prop) : Prop :=
  ∀ a b c, block a = block b → block c ≠ block a → r a b → r b c → ¬ r c a

/-- The three elements lie in three blocks; both directions around. -/
def NoThreeBlockTriangle (r : α → α → Prop) : Prop :=
  ∀ a b c, block b < block a → block c < block b →
    ¬ (r a b ∧ r b c ∧ r c a) ∧ ¬ (r b a ∧ r c b ∧ r a c)

theorem triangleFree_iff_of_blocks
    (hchain : ∀ a b c, block a = block b → block b = block c →
      r a b → r b c → ¬ r c a) :
    TriangleFree r ↔
      NoTwoBlockTriangle block r ∧ NoThreeBlockTriangle block r := by
  constructor
  · intro hfree
    refine ⟨fun a b c _ _ => hfree a b c, fun a b c _ _ => ⟨?_, ?_⟩⟩
    · rintro ⟨hab, hbc, hca⟩
      exact hfree a b c hab hbc hca
    · rintro ⟨hba, hcb, hac⟩
      exact hfree a c b hac hcb hba
  · rintro ⟨htwo, hthree⟩ a b c hab hbc hca
    rcases lt_trichotomy (block a) (block b) with h1 | h1 | h1
    · rcases lt_trichotomy (block b) (block c) with h2 | h2 | h2
      · exact (hthree c b a h2 h1).2 ⟨hbc, hab, hca⟩
      · exact htwo b c a h2 (by order) hbc hca hab
      · rcases lt_trichotomy (block a) (block c) with h3 | h3 | h3
        · exact (hthree b c a h2 h3).1 ⟨hbc, hca, hab⟩
        · exact htwo c a b h3.symm (by order) hca hab hbc
        · exact (hthree b a c h1 h3).2 ⟨hab, hca, hbc⟩
    · rcases eq_or_ne (block b) (block c) with h2 | h2
      · exact hchain a b c h1 h2 hab hbc hca
      · exact htwo a b c h1 (by order) hab hbc hca
    · rcases lt_trichotomy (block b) (block c) with h2 | h2 | h2
      · rcases lt_trichotomy (block a) (block c) with h3 | h3 | h3
        · exact (hthree c a b h3 h1).1 ⟨hca, hab, hbc⟩
        · exact htwo c a b h3.symm (by order) hca hab hbc
        · exact (hthree a c b h3 h2).2 ⟨hca, hbc, hab⟩
      · exact htwo b c a h2 (by order) hbc hca hab
      · exact (hthree a b c h1 h2).1 ⟨hab, hbc, hca⟩

end Blocks

section Extension

variable {d : α → α → Prop}

open Relation

/-- An acyclic relation that does not lead from `a` to `b` extends to a strict
total order that places `b` before `a`. -/
theorem exists_strictTotalOrder_extending (hacyclic : ∀ x, ¬ TransGen d x x)
    {a b : α} (hne : a ≠ b) (hab : ¬ TransGen d a b) :
    ∃ s : α → α → Prop, IsStrictTotalOrder α s ∧ (∀ x y, d x y → s x y) ∧ s b a := by
  let e : α → α → Prop := fun x y =>
    ReflTransGen d x y ∨ ReflTransGen d x b ∧ ReflTransGen d a y
  have hsplit : ∀ {x y}, ReflTransGen d x y → x = y ∨ TransGen d x y := by
    intro x y h
    rcases reflTransGen_iff_eq_or_transGen.mp h with h | h
    · exact .inl h.symm
    · exact .inr h
  have hback : ¬ ReflTransGen d a b := by
    intro h
    rcases hsplit h with h | h
    · exact hne h
    · exact hab h
  have hpartial : IsPartialOrder α e :=
    { refl := fun x => .inl .refl
      trans := by
        rintro x y z (hxy | ⟨hxb, hay⟩) (hyz | ⟨hyb, haz⟩)
        · exact .inl (hxy.trans hyz)
        · exact .inr ⟨hxy.trans hyb, haz⟩
        · exact .inr ⟨hxb, hay.trans hyz⟩
        · exact .inr ⟨hxb, haz⟩
      antisymm := by
        rintro x y (hxy | ⟨hxb, hay⟩) (hyx | ⟨hyb, hax⟩)
        · rcases hsplit hxy with h | h
          · exact h
          · exact absurd (h.trans_left hyx) (hacyclic x)
        · exact absurd ((hax.trans hxy).trans hyb) hback
        · exact absurd ((hay.trans hyx).trans hxb) hback
        · exact absurd (hay.trans hyb) hback }
  obtain ⟨s, hlinear, hle⟩ := extend_partialOrder e
  refine ⟨fun x y => s x y ∧ x ≠ y, ?_, ?_, ?_⟩
  · exact
      { trichotomous := fun x y hxy hyx => by
          by_contra hxyne
          rcases hlinear.total x y with h | h
          · exact hxy ⟨h, hxyne⟩
          · exact hyx ⟨h, Ne.symm hxyne⟩
        irrefl := fun x h => h.2 rfl
        trans := by
          rintro x y z ⟨hxy, hne₁⟩ ⟨hyz, _⟩
          refine ⟨hlinear.trans x y z hxy hyz, ?_⟩
          rintro rfl
          exact hne₁ (hlinear.antisymm _ _ hxy hyz) }
  · intro x y hxy
    refine ⟨hle x y (.inl (.single hxy)), ?_⟩
    rintro rfl
    exact hacyclic _ (.single hxy)
  · exact ⟨hle b a (.inr ⟨.refl, .refl⟩), Ne.symm hne⟩

end Extension

end SatCheck.Tournament
