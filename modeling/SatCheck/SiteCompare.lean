import SatCheck.SiteAhead
/-!
# Comparing sites of a run

Two sites that are not in different directions of a branch compare as their values do.
-/

namespace SatCheck

namespace ExecPoint

/-- `compare` follows the values, except where the first difference is one of directions. -/
theorem comparePairs_cases (ps qs : List (ExecPointType × Nat)) :
    (comparePairs ps qs = .equals ∧ ps.map Prod.snd = qs.map Prod.snd) ∨
    (comparePairs ps qs = .after ∧ ps.map Prod.snd < qs.map Prod.snd) ∨
    (comparePairs ps qs = .before ∧ qs.map Prod.snd < ps.map Prod.snd) ∨
    comparePairs ps qs = .incomparable ∧ ∃ pre v a pre' p b, ps = pre ++ (.branch, v) :: a ∧
      qs = pre' ++ p :: b ∧ pre.map Prod.snd = pre'.map Prod.snd ∧ v ≠ p.2 := by
  induction ps generalizing qs with
  | nil =>
    cases qs with
    | nil => exact .inl ⟨rfl, rfl⟩
    | cons q qs => exact .inr (.inl ⟨rfl, List.Lex.nil⟩)
  | cons p ps ih =>
    obtain ⟨type, v⟩ := p
    cases qs with
    | nil => exact .inr (.inr (.inl ⟨rfl, List.Lex.nil⟩))
    | cons q qs =>
      obtain ⟨type', v'⟩ := q
      by_cases hvv : v = v'
      · subst hvv
        have hcompare : comparePairs ((type, v) :: ps) ((type', v) :: qs) = comparePairs ps qs := by
          simp [comparePairs]
        rw [hcompare]
        rcases ih qs with ⟨h, hvalues⟩ | ⟨h, hlt⟩ | ⟨h, hlt⟩ |
          ⟨h, pre, w, a, pre', p, b, rfl, rfl, hpre, hne⟩
        · exact .inl ⟨h, by simp [hvalues]⟩
        · exact .inr (.inl ⟨h, List.cons_lt_cons_iff.mpr (.inr ⟨rfl, hlt⟩)⟩)
        · exact .inr (.inr (.inl ⟨h, List.cons_lt_cons_iff.mpr (.inr ⟨rfl, hlt⟩)⟩))
        · exact .inr (.inr (.inr ⟨h, (type, v) :: pre, w, a, (type', v) :: pre', p, b, rfl, rfl,
            by simp [hpre], hne⟩))
      · rw [comparePairs_cons_of_ne hvv]
        by_cases hbranch : type = .branch
        · subst hbranch
          exact .inr (.inr (.inr ⟨if_pos rfl, [], v, ps, [], (type', v'), qs, rfl, rfl, rfl, hvv⟩))
        · rw [if_neg hbranch]
          rcases Nat.lt_or_gt_of_ne hvv with hlt | hlt
          · exact .inr (.inl ⟨if_pos hlt, List.cons_lt_cons_iff.mpr (.inl hlt)⟩)
          · exact .inr (.inr (.inl ⟨if_neg (by omega), List.cons_lt_cons_iff.mpr (.inl hlt)⟩))

end ExecPoint

namespace Site

variable {code : Code} {x y : Site}

theorem map_pairs (s : Site) : s.pairs.map Prod.snd = s.values := by simp [pairs, values]

theorem values_lt_of_compare (h : ExecPoint.comparePairs x.pairs y.pairs = .before) :
    y.values < x.values := by
  rcases ExecPoint.comparePairs_cases x.pairs y.pairs with ⟨h', -⟩ | ⟨h', -⟩ | ⟨-, hlt⟩ | ⟨h', -⟩
  · simp [h] at h'
  · simp [h] at h'
  · rwa [map_pairs, map_pairs] at hlt
  · simp [h] at h'

theorem values_lt_of_after (h : ExecPoint.comparePairs x.pairs y.pairs = .after) :
    x.values < y.values := by
  rcases ExecPoint.comparePairs_cases x.pairs y.pairs with ⟨h', -⟩ | ⟨-, hlt⟩ | ⟨h', -⟩ | ⟨h', -⟩
  · simp [h] at h'
  · rwa [map_pairs, map_pairs] at hlt
  · simp [h] at h'
  · simp [h] at h'

/-- Sites that do not compare are in different directions of a branch. -/
theorem exists_arms_of_incomparable (hx : Path.Typed code x.path) (hy : Path.Typed code y.path)
    (h : ExecPoint.comparePairs x.pairs y.pairs = .incomparable) :
    ∃ b d d', (b, d) ∈ x.path.arms ∧ (b, d') ∈ y.path.arms ∧ d ≠ d' := by
  rcases ExecPoint.comparePairs_cases x.pairs y.pairs with ⟨h', -⟩ | ⟨h', -⟩ | ⟨h', -⟩ |
    ⟨-, pre, v, a, pre', p, b, hsplit, hsplit', hpre, hne⟩
  · simp [h] at h'
  · simp [h] at h'
  · simp [h] at h'
  · rcases Path.exists_arm hsplit with ⟨inner, m, below, hpath, rfl⟩ | ⟨rest, hrest⟩
    · obtain ⟨inner', f, under, hpath', hunder, w, hw⟩ := Path.exists_frame hsplit' hpre.symm
      have harm : Path.Typed code (.arm m v :: below) := by
        rw [hpath] at hx
        exact hx.of_append
      have hframe : Path.Typed code (f :: under) := by
        rw [hpath'] at hy
        exact hy.of_append
      obtain rfl := hframe.tail.eq_of_values harm.tail hunder
      have hdirection : p.2 = w := by
        have hvalues : y.pairs.map Prod.snd = (Path.entries under).map Prod.snd ++ m :: w ::
            ((Path.entries inner').map Prod.snd ++ [y.n]) := by
          rw [pairs, hpath', Path.entries_append, Path.entries_cons]
          simp [hw]
        rw [hsplit', List.map_append, ← hpre] at hvalues
        simp only [List.map_append, List.map_cons, List.map_nil, List.append_assoc,
          List.cons_append, List.nil_append, List.append_cancel_left_eq, List.cons.injEq,
          true_and] at hvalues
        exact hvalues.1
      cases f with
      | arm k d =>
        obtain ⟨rfl, rfl⟩ : k = m ∧ d = w := by simpa [Frame.entries] using hw
        refine ⟨⟨under, k⟩, v, d, ?_, ?_, ?_⟩
        · rw [hpath]
          exact Path.mem_arms_append inner List.mem_cons_self
        · rw [hpath']
          exact Path.mem_arms_append inner' List.mem_cons_self
        · rwa [← hdirection]
      | loop k i =>
        obtain ⟨rfl, rfl⟩ : k = m ∧ i = w := by simpa [Frame.entries] using hw
        have hbranch := harm.1 ⟨under, k⟩ (by simp [Path.branches])
        have hloop := hframe.2 ⟨under, k⟩ (by simp [Path.loops])
        simp [hbranch] at hloop
    · simp at hrest

theorem compare_of_values_lt (hx : Path.Typed code x.path) (hy : Path.Typed code y.path)
    (hdirections : ∀ b d d', (b, d) ∈ x.path.arms → (b, d') ∈ y.path.arms → d = d')
    (hlt : y.values < x.values) : ExecPoint.comparePairs x.pairs y.pairs = .before := by
  rcases ExecPoint.comparePairs_cases x.pairs y.pairs with ⟨-, heq⟩ | ⟨-, hlt'⟩ | ⟨h, -⟩ | ⟨h, -⟩
  · rw [map_pairs, map_pairs] at heq
    exact absurd hlt (heq ▸ lt_irrefl _)
  · rw [map_pairs, map_pairs] at hlt'
    exact absurd hlt (lt_asymm hlt')
  · exact h
  · obtain ⟨b, d, d', hb, hb', hne⟩ := exists_arms_of_incomparable hx hy h
    exact absurd (hdirections b d d' hb hb') hne

theorem compare_after_of_values_lt (hx : Path.Typed code x.path) (hy : Path.Typed code y.path)
    (hdirections : ∀ b d d', (b, d) ∈ x.path.arms → (b, d') ∈ y.path.arms → d = d')
    (hlt : x.values < y.values) : ExecPoint.comparePairs x.pairs y.pairs = .after := by
  rcases ExecPoint.comparePairs_cases x.pairs y.pairs with ⟨-, heq⟩ | ⟨h, -⟩ | ⟨-, hlt'⟩ | ⟨h, -⟩
  · rw [map_pairs, map_pairs] at heq
    exact absurd hlt (heq ▸ lt_irrefl _)
  · exact h
  · rw [map_pairs, map_pairs] at hlt'
    exact absurd hlt (lt_asymm hlt')
  · obtain ⟨b, d, d', hb, hb', hne⟩ := exists_arms_of_incomparable hx hy h
    exact absurd (hdirections b d d' hb hb') hne

private theorem exists_pairs_arm {b : Site} {d : Nat} (h : (b, d) ∈ x.path.arms) :
    ∃ rest, x.pairs = b.pairs ++ (.branch, d) :: rest := by
  have hpath : ∀ path : Path, (b, d) ∈ path.arms →
      ∃ rest, path.entries = b.pairs ++ (.branch, d) :: rest := by
    intro path h
    induction path with
    | nil => simp [Path.arms] at h
    | cons f path ih =>
      cases f with
      | arm n d' =>
        rcases List.mem_cons.mp h with heq | h
        · obtain ⟨rfl, rfl⟩ := Prod.mk.inj heq
          exact ⟨[], by simp [pairs, Frame.entries]⟩
        · obtain ⟨rest, hrest⟩ := ih h
          exact ⟨rest ++ (Frame.arm n d').entries, by simp [hrest]⟩
      | loop n i =>
        obtain ⟨rest, hrest⟩ := ih h
        exact ⟨rest ++ (Frame.loop n i).entries, by simp [hrest]⟩
  obtain ⟨rest, hrest⟩ := hpath x.path h
  exact ⟨rest ++ [(.counter, x.n)], by simp [pairs, hrest]⟩

theorem compare_before (hx : Path.Typed code x.path) (hy : Path.Typed code y.path)
    (h : ExecPoint.comparePairs x.pairs y.pairs = .after) :
    ExecPoint.comparePairs y.pairs x.pairs = .before := by
  apply compare_of_values_lt hy hx _ (values_lt_of_after h)
  intro b d d' hd hd'
  by_contra hne
  obtain ⟨rest, hrest⟩ := exists_pairs_arm hd
  obtain ⟨rest', hrest'⟩ := exists_pairs_arm hd'
  rw [hrest, hrest', ExecPoint.comparePairs_append,
    ExecPoint.comparePairs_cons_of_ne (Ne.symm hne)] at h
  simp at h

end Site

end SatCheck
