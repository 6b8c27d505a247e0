import Mathlib.Data.List.Basic
/-!
# Pruning a list that supplies its own witnesses

Elements are removed one after the other, each because of the elements that are left.
-/

namespace SatCheck

namespace Pruning

variable {α : Type*} [DecidableEq α] (prune : List α → α → Bool)

/-- The elements of `todo` are visited in order and removed from `kept` where `prune` says so. -/
def loop : List α → List α → List α
  | [], kept => kept
  | x :: todo, kept => loop todo (if prune kept x then kept.erase x else kept)

variable {prune}

theorem loop_subset (todo kept : List α) : ∀ x ∈ loop prune todo kept, x ∈ kept := by
  induction todo generalizing kept with
  | nil => exact fun _ hx => hx
  | cons y todo ih =>
    intro x hx
    have hmem := ih _ x hx
    split_ifs at hmem
    · exact List.mem_of_mem_erase hmem
    · exact hmem

/-- One step keeps an element with the property, if a removed one leaves another. -/
theorem exists_mem_step {P : α → Prop} {kept : List α} {x : α}
    (hcovered : x ∈ kept → prune kept x = true → P x → ∃ y ∈ kept, y ≠ x ∧ P y)
    (h : ∃ x ∈ kept, P x) :
    ∃ y ∈ (if prune kept x then kept.erase x else kept), P y := by
  split_ifs with hprune
  · obtain ⟨y, hy, hPy⟩ := h
    by_cases heq : y = x
    · subst heq
      obtain ⟨z, hz, hne, hPz⟩ := hcovered hy hprune hPy
      exact ⟨z, (List.mem_erase_of_ne hne).mpr hz, hPz⟩
    · exact ⟨y, (List.mem_erase_of_ne heq).mpr hy, hPy⟩
  · exact h

/-- The condition speaks of the lists that removing elements from `base` can leave. -/
theorem exists_mem_loop_iff {P : α → Prop} {base : List α}
    (hcovered : ∀ kept, kept ⊆ base → ∀ x ∈ kept, prune kept x = true → P x →
      ∃ y ∈ kept, y ≠ x ∧ P y) (todo : List α) :
    (∃ x ∈ base, P x) ↔ ∃ x ∈ loop prune todo base, P x := by
  have hkept : ∀ kept, kept ⊆ base → (∃ x ∈ kept, P x) → ∃ x ∈ loop prune todo kept, P x := by
    induction todo with
    | nil => exact fun _ _ h => h
    | cons x todo ih =>
      intro kept hsub h
      apply ih
      · split_ifs
        · exact fun y hy => hsub (List.mem_of_mem_erase hy)
        · exact hsub
      · exact exists_mem_step (hcovered kept hsub x) h
  constructor
  · exact hkept base (List.Subset.refl base)
  · rintro ⟨x, hx, hPx⟩
    exact ⟨x, loop_subset todo base x hx, hPx⟩

end Pruning

end SatCheck
