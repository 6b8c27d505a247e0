import SatCheck.SiteOrder
/-!
# What lies behind a site

The sites that a thread can come to from a site, without leaving the branch around it, are the
later ones on the same branch and in the same loop, and what is inside of those.
-/

namespace SatCheck

namespace ExecPoint

theorem comparePairs_append (ps qs rs : List (ExecPointType × Nat)) :
    comparePairs (ps ++ qs) (ps ++ rs) = comparePairs qs rs := by
  induction ps with
  | nil => rfl
  | cons p ps ih => simpa [comparePairs] using ih

theorem comparePairs_cons_of_ne {type type' : ExecPointType} {v v' : Nat} (h : v ≠ v')
    (ps qs : List (ExecPointType × Nat)) :
    comparePairs ((type, v) :: ps) ((type', v') :: qs) =
      if type = .branch then .incomparable else if v < v' then .after else .before := by
  rw [comparePairs, if_pos h]

end ExecPoint

namespace Site

def pairs (s : Site) : List (ExecPointType × Nat) := s.path.entries ++ [(.counter, s.n)]

@[simp] theorem ep_pairs (s : Site) (tid : Nat) : (s.ep tid).pairs = s.pairs := rfl

/-- At the site or behind it on the same branch, maybe in a later iteration of the same loop. -/
inductive Later (s : Site) : Site → Prop
  | same {n : Nat} (h : s.n ≤ n) : Later s ⟨s.path, n⟩
  | iteration {m i j n : Nat} {path : Path} (hpath : s.path = .loop m i :: path) (h : i < j) :
      Later s ⟨.loop m j :: path, n⟩

def Inside (s x : Site) : Prop := ∃ q, s.Later q ∧ q.pairs <+: x.pairs

variable {s s' x y : Site}

theorem Later.refl (s : Site) : s.Later s := .same le_rfl

theorem Later.trans (h : s.Later s') (h' : s'.Later x) : s.Later x := by
  cases h with
  | same h =>
    cases h' with
    | same h' => exact .same (h.trans h')
    | iteration hpath h' => exact .iteration hpath h'
  | iteration hpath h =>
    cases h' with
    | same h' => exact .iteration hpath h
    | iteration hpath' h' =>
      obtain ⟨hframe, rfl⟩ := List.cons_eq_cons.mp hpath'
      obtain ⟨rfl, rfl⟩ := Frame.loop.inj hframe
      exact .iteration hpath (h.trans h')

theorem later_next (s : Site) : s.Later s.next := .same (Nat.le_succ s.n)

theorem later_iterate (s : Site) : s.Later s.iterate := by
  unfold iterate
  split
  · rename_i n i path hpath
    exact .iteration hpath (Nat.lt_succ_self i)
  · exact Later.refl s

theorem Inside.refl (s : Site) : s.Inside s := ⟨s, Later.refl s, List.prefix_rfl⟩

theorem Inside.mono (h : s.Later s') (hx : s'.Inside x) : s.Inside x := by
  obtain ⟨q, hq, hprefix⟩ := hx
  exact ⟨q, h.trans hq, hprefix⟩

theorem Inside.of_arm {d : Nat} (h : (s.arm d).Inside x) :
    ∃ rest, x.pairs = s.pairs ++ (.branch, d) :: rest := by
  obtain ⟨q, hq, rest, hrest⟩ := h
  cases hq with
  | same hle =>
    rename_i n
    refine ⟨(.counter, n) :: rest, ?_⟩
    rw [← hrest]
    simp [pairs, arm, Frame.entries]
  | iteration hpath _ => simp [arm] at hpath

theorem Inside.of_body (h : s.body.Inside x) :
    ∃ i rest, x.pairs = s.pairs ++ (.loop, i) :: rest := by
  obtain ⟨q, hq, rest, hrest⟩ := h
  cases hq with
  | same hle =>
    rename_i n
    refine ⟨0, (.counter, n) :: rest, ?_⟩
    rw [← hrest]
    simp [pairs, body, Frame.entries]
  | iteration hpath hlt =>
    rename_i m i j n path
    obtain ⟨hframe, rfl⟩ := List.cons_eq_cons.mp hpath
    obtain ⟨rfl, rfl⟩ := Frame.loop.inj hframe
    refine ⟨j, (.counter, n) :: rest, ?_⟩
    rw [← hrest]
    simp [pairs, Frame.entries]

theorem inside_of_prefix (h : s.pairs <+: x.pairs) : s.Inside x := ⟨s, Later.refl s, h⟩

/-- What is at a site or inside of it is before what is behind the site. -/
theorem compare_next (hx : s.pairs <+: x.pairs) (hy : s.next.Inside y) :
    ExecPoint.comparePairs x.pairs y.pairs = .after := by
  obtain ⟨xs, hx⟩ := hx
  obtain ⟨q, hq, ys, hy⟩ := hy
  rw [← hx, ← hy]
  cases hq with
  | same hle =>
    rename_i n
    have hlt : s.n < n := hle
    simp only [pairs, next, List.append_assoc, List.singleton_append]
    rw [ExecPoint.comparePairs_append, ExecPoint.comparePairs_cons_of_ne hlt.ne]
    simp [hlt]
  | iteration hpath hlt =>
    rename_i m i j n path
    have hpath : s.path = .loop m i :: path := hpath
    simp only [pairs, hpath, Path.entries_cons, Frame.entries, List.append_assoc,
      List.cons_append, List.nil_append]
    rw [ExecPoint.comparePairs_append, ExecPoint.comparePairs, if_neg (by simp),
      ExecPoint.comparePairs_cons_of_ne hlt.ne]
    simp [hlt]

theorem compare_arms {d d' : Nat} (hne : d ≠ d') (hx : (s.arm d).Inside x)
    (hy : (s.arm d').Inside y) : ExecPoint.comparePairs x.pairs y.pairs = .incomparable := by
  obtain ⟨xs, hx⟩ := hx.of_arm
  obtain ⟨ys, hy⟩ := hy.of_arm
  rw [hx, hy, ExecPoint.comparePairs_append, ExecPoint.comparePairs_cons_of_ne hne]
  simp

theorem compare_inside {p : ExecPointType × Nat} {rest : List (ExecPointType × Nat)}
    (h : x.pairs = s.pairs ++ p :: rest) :
    ExecPoint.comparePairs s.pairs x.pairs = .after := by
  have := ExecPoint.comparePairs_append s.pairs [] (p :: rest)
  rw [List.append_nil] at this
  rw [h, this]
  rfl

end Site

end SatCheck
