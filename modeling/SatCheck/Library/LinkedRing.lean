import Mathlib.Data.List.Chain
import Mathlib.Data.List.Nodup
import Mathlib.Logic.Function.Basic
/-!
# Doubly linked rings

A list of nodes is a ring around a base node `b` when following `next` from `b` passes its
nodes in order and comes back to `b`, and `prev` goes the other way.  With the head pointer
as the base's `next` and the tail pointer as its `prev`, a null-terminated doubly linked
list is a ring around null.
-/

namespace LinkedRing

variable {A : Type*} {next prev next' prev' : A → A} {a b p q : A} {l pre post : List A}

/-- Neighbours are linked both ways. -/
def Links (next prev : A → A) (l : List A) : Prop :=
  l.IsChain fun x y => next x = y ∧ prev y = x

structure Ring (next prev : A → A) (b : A) (l : List A) : Prop where
  nodup : (b :: l).Nodup
  links : Links next prev (b :: (l ++ [b]))

theorem Links.congr (h : Links next prev l) (hnext : ∀ x ∈ l.dropLast, next' x = next x)
    (hprev : ∀ y ∈ l.tail, prev' y = prev y) : Links next' prev' l := by
  induction l with
  | nil => exact List.isChain_nil
  | cons x l ih =>
    cases l with
    | nil => exact List.isChain_singleton x
    | cons y l =>
      obtain ⟨⟨hxy, hyx⟩, hrest⟩ := List.isChain_cons_cons.mp h
      apply List.isChain_cons_cons.mpr
      refine ⟨⟨?_, ?_⟩, ?_⟩
      · rw [hnext x (by simp), hxy]
      · rw [hprev y (by simp), hyx]
      · apply ih hrest
        · intro z hz
          exact hnext z (by simp [hz])
        · intro z hz
          exact hprev z (by simp [List.mem_of_mem_tail hz])

/-- Only the links of the base and of the nodes matter. -/
theorem Ring.congr (h : Ring next prev b l) (hnext : ∀ x ∈ b :: l, next' x = next x)
    (hprev : ∀ x ∈ b :: l, prev' x = prev x) : Ring next' prev' b l where
  nodup := h.nodup
  links := by
    apply h.links.congr
    · intro x hx
      apply hnext
      rwa [← List.cons_append, List.dropLast_concat] at hx
    · intro y hy
      apply hprev
      rw [List.tail_cons, List.mem_append, List.mem_singleton] at hy
      rw [List.mem_cons]
      exact hy.symm

theorem ring_nil : Ring next prev b [] ↔ next b = b ∧ prev b = b := by
  constructor
  · intro h
    exact (List.isChain_cons_cons.mp h.links).1
  · intro h
    exact ⟨List.nodup_singleton b, List.isChain_cons_cons.mpr ⟨h, List.isChain_singleton b⟩⟩

/-! ## Neighbours -/

theorem Links.neighbours (h : Links next prev (pre ++ p :: q :: post)) :
    next p = q ∧ prev q = p :=
  (List.isChain_append_cons_cons.mp h).2.1

/-- The base and the nodes before `a` end in the node `a` links back to. -/
theorem Ring.prev_eq (h : Ring next prev b (pre ++ a :: post)) :
    ∃ l, b :: pre = l ++ [prev a] := by
  obtain ⟨l, p, hl⟩ := (b :: pre).eq_nil_or_concat.resolve_left (List.cons_ne_nil b pre)
  rw [List.concat_eq_append] at hl
  have hlinks := h.links
  rw [List.append_assoc, ← List.cons_append, hl, List.append_assoc] at hlinks
  exact ⟨l, by rw [hl, hlinks.neighbours.2]⟩

/-- The nodes after `a` and the base start with the node `a` links to. -/
theorem Ring.next_eq (h : Ring next prev b (pre ++ a :: post)) :
    ∃ l, post ++ [b] = next a :: l := by
  cases hpost : post ++ [b] with
  | nil => simp at hpost
  | cons q l =>
    have hlinks := h.links
    rw [List.append_assoc, List.cons_append, hpost, ← List.cons_append] at hlinks
    exact ⟨l, by rw [hlinks.neighbours.1]⟩

theorem Ring.next_base (h : Ring next prev b l) : ∃ rest, l ++ [b] = next b :: rest := by
  cases hl : l ++ [b] with
  | nil => simp at hl
  | cons q rest =>
    have hlinks := h.links
    rw [hl] at hlinks
    exact ⟨rest, by rw [(List.isChain_cons_cons.mp hlinks).1.1]⟩

theorem Ring.prev_base (h : Ring next prev b l) : ∃ rest, b :: l = rest ++ [prev b] := by
  obtain ⟨rest, p, hl⟩ := (b :: l).eq_nil_or_concat.resolve_left (List.cons_ne_nil b l)
  rw [List.concat_eq_append] at hl
  have hlinks := h.links
  rw [← List.cons_append, hl, List.append_assoc] at hlinks
  exact ⟨rest, by rw [hl, hlinks.neighbours.2]⟩

/-! ## The two edits -/

variable [DecidableEq A]

theorem Ring.unlink (h : Ring next prev b (pre ++ a :: post)) :
    Ring (Function.update next (prev a) (next a)) (Function.update prev (next a) (prev a)) b
      (pre ++ post) := by
  obtain ⟨before, hbefore⟩ := h.prev_eq
  obtain ⟨after, hafter⟩ := h.next_eq
  have hnodup := h.nodup
  have hlinks := h.links
  rw [List.append_assoc, List.cons_append, hafter, ← List.cons_append, hbefore,
    List.append_assoc] at hlinks
  obtain ⟨hleft, _, hright⟩ := List.isChain_append_cons_cons.mp hlinks
  obtain ⟨_, hright⟩ := List.isChain_cons_cons.mp hright
  have hbase : b ∉ pre ++ a :: post := (List.nodup_cons.mp hnodup).1
  have hnodes := (List.nodup_cons.mp hnodup).2
  have hp : prev a ∈ b :: pre := by rw [hbefore]; simp
  have hq : next a ∈ post ++ [b] := by rw [hafter]; simp
  have hpre : ∀ x ∈ b :: pre, x ∉ post := by
    intro x hx hpost
    cases List.mem_cons.mp hx with
    | inl heq => exact hbase (by simp [← heq, hpost])
    | inr hx => exact List.disjoint_of_nodup_append hnodes hx (List.mem_cons_of_mem a hpost)
  have hpost : ∀ y ∈ post ++ [b], y ∉ pre := by
    intro y hy hpre'
    cases List.mem_append.mp hy with
    | inl hy => exact hpre y (List.mem_cons_of_mem b hpre') hy
    | inr hy => exact hbase (by simp [← List.mem_singleton.mp hy, hpre'])
  have hlast : prev a ∉ before := by
    have hsub : (before ++ [prev a]).Nodup := by
      rw [← hbefore]
      exact hnodup.sublist (List.sublist_append_left (b :: pre) (a :: post))
    intro hmem
    exact List.disjoint_of_nodup_append hsub hmem (List.mem_singleton_self _)
  have hfirst : next a ∉ after := by
    have hsub : (post ++ [b]).Nodup := by
      rw [List.nodup_append_comm]
      have hsublist := (List.sublist_cons_self a post).trans (List.sublist_append_right pre _)
      exact List.Nodup.sublist (hsublist.cons_cons b) hnodup
    rw [hafter] at hsub
    exact (List.nodup_cons.mp hsub).1
  refine ⟨hnodup.sublist ?_, ?_⟩
  · exact ((List.Sublist.refl pre).append (List.sublist_cons_self a post)).cons_cons b
  show Links _ _ _
  rw [List.append_assoc, hafter, ← List.cons_append, hbefore, List.append_assoc]
  apply List.isChain_append_cons_cons.mpr
  refine ⟨?_, ⟨by simp, by simp⟩, ?_⟩
  · apply Links.congr hleft
    · intro x hx
      rw [List.dropLast_concat] at hx
      exact Function.update_of_ne (ne_of_mem_of_not_mem hx hlast) _ _
    · intro y hy
      rw [← hbefore, List.tail_cons] at hy
      exact Function.update_of_ne (ne_of_mem_of_not_mem hy (hpost _ hq)) _ _
  · apply Links.congr hright
    · intro x hx
      rw [← hafter, List.dropLast_concat] at hx
      exact Function.update_of_ne (ne_of_mem_of_not_mem hx (hpre _ hp)) _ _
    · intro y hy
      exact Function.update_of_ne (ne_of_mem_of_not_mem hy hfirst) _ _

/-- A new node between the last one and the base. -/
theorem Ring.append (h : Ring next prev b l) (ha : a ∉ b :: l) :
    Ring (Function.update (Function.update next (prev b) a) a b)
      (Function.update (Function.update prev a (prev b)) b a) b (l ++ [a]) := by
  obtain ⟨before, hbefore⟩ := h.prev_base
  have hlinks := h.links
  rw [← List.cons_append, hbefore, List.append_assoc] at hlinks
  obtain ⟨hleft, _, _⟩ := List.isChain_append_cons_cons.mp hlinks
  have hlast : prev b ∉ before := by
    have hnodup := h.nodup
    rw [hbefore] at hnodup
    intro hmem
    exact List.disjoint_of_nodup_append hnodup hmem (List.mem_singleton_self _)
  have hab : a ≠ b := fun heq => ha (by simp [heq])
  have hap : a ≠ prev b := by
    intro heq
    apply ha
    rw [hbefore, heq]
    simp
  refine ⟨?_, ?_⟩
  · rw [← List.cons_append, List.nodup_append_comm]
    exact List.nodup_cons.mpr ⟨ha, h.nodup⟩
  show Links _ _ _
  rw [List.append_assoc, ← List.cons_append, hbefore, List.append_assoc]
  apply List.isChain_append_cons_cons.mpr
  refine ⟨?_, ⟨?_, ?_⟩, ?_⟩
  · apply Links.congr hleft
    · intro x hx
      rw [List.dropLast_concat] at hx
      have hxa : x ≠ a := by
        rintro rfl
        exact ha (by rw [hbefore]; simp [hx])
      rw [Function.update_of_ne hxa]
      exact Function.update_of_ne (ne_of_mem_of_not_mem hx hlast) _ _
    · intro y hy
      rw [← hbefore, List.tail_cons] at hy
      have hyb : y ≠ b := by
        rintro rfl
        exact (List.nodup_cons.mp h.nodup).1 hy
      rw [Function.update_of_ne hyb]
      exact Function.update_of_ne (fun heq => ha (by simp [← heq, hy])) _ _
  · rw [Function.update_of_ne hap.symm, Function.update_self]
  · rw [Function.update_of_ne hab, Function.update_self]
  · apply List.isChain_cons_cons.mpr
    exact ⟨⟨by simp, by simp⟩, List.isChain_singleton b⟩

end LinkedRing
