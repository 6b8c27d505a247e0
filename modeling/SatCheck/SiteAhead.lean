import SatCheck.OutsideBranches
/-!
# What a run comes to

A run that stands in front of a record comes to it, unless it leaves a loop around the record,
merges a branch around it, ends, or takes another direction.
-/

namespace SatCheck

def Frame.n : Frame → Nat
  | .arm n _ => n
  | .loop n _ => n

namespace Path

def arms : Path → List (Site × Nat)
  | [] => []
  | .arm n d :: path => (⟨path, n⟩, d) :: arms path
  | .loop _ _ :: path => arms path

theorem mem_arms_append (inner : Path) {path : Path} {a : Site × Nat} (h : a ∈ arms path) :
    a ∈ arms (inner ++ path) := by
  induction inner with
  | nil => exact h
  | cons f inner ih =>
    cases f with
    | arm n d => exact List.mem_cons_of_mem _ ih
    | loop n i => exact ih

theorem mem_loops_append (inner : Path) {path : Path} {l : Site} (h : l ∈ loops path) :
    l ∈ loops (inner ++ path) := by
  induction inner with
  | nil => exact h
  | cons f inner ih =>
    cases f with
    | arm n d => exact ih
    | loop n i => exact List.mem_cons_of_mem _ ih

theorem arms_of_branches {path : Path} {b : Site} (h : b ∈ branches path) :
    arms b.path ⊆ arms path := by
  obtain ⟨inner, d, rfl⟩ := exists_of_mem_branches h
  intro a ha
  exact mem_arms_append inner (List.mem_cons_of_mem _ ha)

theorem arms_of_loops {path : Path} {l : Site} (h : l ∈ loops path) :
    arms l.path ⊆ arms path := by
  obtain ⟨inner, i, rfl⟩ := exists_of_mem_loops h
  exact fun a ha => mem_arms_append inner ha

theorem mem_branches_of_arms {path : Path} {a : Site × Nat} (h : a ∈ arms path) :
    a.1 ∈ branches path := by
  induction path with
  | nil => simp [arms] at h
  | cons f path ih =>
    cases f with
    | arm n d =>
      rcases List.mem_cons.mp h with rfl | h
      · exact List.mem_cons_self
      · exact List.mem_cons_of_mem _ (ih h)
    | loop n i => exact ih h

end Path

namespace Site

/-- The site is a branch or a loop around `x`. -/
def Surrounds (s x : Site) : Prop := s ∈ x.path.branches ∨ s ∈ x.path.loops

def Covers (s x : Site) : Prop := x = s ∨ s.Surrounds x

/-- A thread at the site has not come to `x` yet: on the branch where it stands, or on one of
those around, where it goes on behind the frame that it is in. -/
inductive Ahead (x : Site) : Site → Prop
  | here {s q : Site} (hlater : s.Later q) (hcovers : q.Covers x) : Ahead x s
  | out {f : Frame} {below : Path} {n : Nat} (h : Ahead x ⟨below, f.n + 1⟩) :
      Ahead x ⟨f :: below, n⟩

variable {s x : Site}

theorem surrounds_iff : s.Surrounds x ↔ ∃ inner f, f.n = s.n ∧ x.path = inner ++ f :: s.path := by
  constructor
  · rintro (h | h)
    · obtain ⟨inner, d, hpath⟩ := Path.exists_of_mem_branches h
      exact ⟨inner, .arm s.n d, rfl, hpath⟩
    · obtain ⟨inner, i, hpath⟩ := Path.exists_of_mem_loops h
      exact ⟨inner, .loop s.n i, rfl, hpath⟩
  · rintro ⟨inner, f, hn, hpath⟩
    unfold Surrounds
    rw [hpath]
    obtain ⟨path, n⟩ := s
    obtain rfl : f.n = n := hn
    cases f with
    | arm n d => exact .inl (Path.mem_branches_append inner List.mem_cons_self)
    | loop n i => exact .inr (Path.mem_loops_append inner List.mem_cons_self)

theorem exists_covers {inner path : Path} {f : Frame} (h : x.path = inner ++ f :: path) :
    ∃ m, Covers ⟨f :: path, m⟩ x := by
  rcases List.eq_nil_or_concat inner with rfl | ⟨inner, f', rfl⟩
  · exact ⟨x.n, .inl (by rw [← List.nil_append (f :: path), ← h])⟩
  · exact ⟨f'.n, .inr (surrounds_iff.mpr ⟨inner, f', rfl, by simp [h]⟩)⟩

theorem Covers.exists_suffix {path : Path} {f : Frame} {m : Nat}
    (h : Covers ⟨f :: path, m⟩ x) : ∃ inner, x.path = inner ++ f :: path := by
  rcases h with rfl | h
  · exact ⟨[], rfl⟩
  · obtain ⟨inner, f', -, hpath⟩ := surrounds_iff.mp h
    exact ⟨inner ++ [f'], by simp [hpath]⟩

theorem ahead_start : Ahead x start := by
  obtain ⟨path, n⟩ := x
  rcases List.eq_nil_or_concat path with rfl | ⟨inner, f, rfl⟩
  · exact .here (.same (Nat.zero_le n)) (.inl rfl)
  · refine .here (.same (Nat.zero_le f.n)) (.inr (surrounds_iff.mpr ⟨inner, f, rfl, ?_⟩))
    simp [start]

theorem Ahead.next (h : Ahead x s) (hne : x ≠ s) (hframe : ¬ s.Surrounds x) :
    Ahead x s.next := by
  cases h with
  | here hlater hcovers =>
    cases hlater with
    | @same n hle =>
      rcases Nat.eq_or_lt_of_le hle with rfl | hlt
      · exact absurd hcovers (not_or.mpr ⟨hne, hframe⟩)
      · exact .here (.same hlt) hcovers
    | iteration hpath hlt => exact .here (.iteration hpath hlt) hcovers
  | out h => exact .out h

theorem Later.exists_frame {f : Frame} {below : Path} {n : Nat} {q : Site}
    (h : Later ⟨f :: below, n⟩ q) : ∃ f' : Frame, f'.n = f.n ∧ q.path = f' :: below := by
  cases h with
  | same hle => exact ⟨f, rfl, rfl⟩
  | @iteration m i j n' path hpath hlt =>
    obtain ⟨rfl, rfl⟩ := List.cons_eq_cons.mp hpath
    exact ⟨.loop m j, rfl, rfl⟩

theorem Ahead.leave {inner below : Path} {f : Frame} {n : Nat}
    (h : Ahead x ⟨inner ++ f :: below, n⟩) (hframe : ¬ Surrounds ⟨below, f.n⟩ x) :
    Ahead x ⟨below, f.n + 1⟩ := by
  have hfree : ∀ inner' f', f'.n = f.n → x.path ≠ inner' ++ f' :: below := by
    intro inner' f' hn hpath
    exact hframe (surrounds_iff.mpr ⟨inner', f', hn, hpath⟩)
  induction inner generalizing n with
  | nil =>
    cases h with
    | @here _ q hlater hcovers =>
      obtain ⟨f', hn, hq⟩ := hlater.exists_frame
      obtain ⟨q, m⟩ := q
      obtain rfl : q = f' :: below := hq
      obtain ⟨inner', hpath⟩ := hcovers.exists_suffix
      exact absurd hpath (hfree inner' f' hn)
    | out h => exact h
  | cons g inner ih =>
    cases h with
    | @here _ q hlater hcovers =>
      obtain ⟨g', -, hq⟩ := hlater.exists_frame
      obtain ⟨q, m⟩ := q
      obtain rfl : q = g' :: (inner ++ f :: below) := hq
      obtain ⟨inner', hpath⟩ := hcovers.exists_suffix
      exact absurd hpath (by simpa using hfree (inner' ++ g' :: inner) f rfl)
    | out h => exact ih h

/-- Into the direction of a branch that `x` is in, or past the branch. -/
theorem Ahead.arm {d : Nat} (h : Ahead x s) (hne : x ≠ s)
    (hdirection : ∀ inner f, f.n = s.n → x.path = inner ++ f :: s.path → f = .arm s.n d) :
    Ahead x (s.arm d) := by
  by_cases hframe : s.Surrounds x
  · obtain ⟨inner, f, hn, hpath⟩ := surrounds_iff.mp hframe
    obtain rfl := hdirection inner f hn hpath
    obtain ⟨m, hcovers⟩ := exists_covers hpath
    exact .here (.same (Nat.zero_le m)) hcovers
  · exact .out (h.next hne hframe)

theorem Ahead.body (h : Ahead x s) (hne : x ≠ s)
    (hloop : ∀ inner f, f.n = s.n → x.path = inner ++ f :: s.path → ∃ i, f = .loop s.n i) :
    Ahead x s.body := by
  by_cases hframe : s.Surrounds x
  · obtain ⟨inner, f, hn, hpath⟩ := surrounds_iff.mp hframe
    obtain ⟨i, rfl⟩ := hloop inner f hn hpath
    obtain ⟨m, hcovers⟩ := exists_covers hpath
    rcases Nat.eq_zero_or_pos i with rfl | hi
    · exact .here (.same (Nat.zero_le m)) hcovers
    · exact .here (.iteration rfl hi) hcovers
  · exact .out (h.next hne hframe)

theorem Ahead.iterate {m i n : Nat} {below : Path} (h : Ahead x ⟨.loop m i :: below, n⟩)
    (hpast : ∀ n' ≥ n, ¬ Covers ⟨.loop m i :: below, n'⟩ x) :
    Ahead x ⟨.loop m (i + 1) :: below, 0⟩ := by
  cases h with
  | here hlater hcovers =>
    cases hlater with
    | same hle => exact absurd hcovers (hpast _ hle)
    | iteration hpath hlt =>
      obtain ⟨hframe, rfl⟩ := List.cons_eq_cons.mp hpath
      obtain ⟨rfl, rfl⟩ := Frame.loop.inj hframe
      rcases Nat.eq_or_lt_of_le hlt with rfl | hlt
      · exact .here (.same (Nat.zero_le _)) hcovers
      · exact .here (.iteration rfl hlt) hcovers
  | out h => exact .out h

theorem Surrounds.values_lt (h : s.Surrounds x) : s.values < x.values ∧ x.values < s.next.values :=
  h.elim values_lt_branch values_lt_loop

theorem Later.eq_or_values_lt {q : Site} (h : s.Later q) : q = s ∨ s.values < q.values := by
  cases h with
  | same hle =>
    rcases Nat.eq_or_lt_of_le hle with rfl | hlt
    · exact .inl rfl
    · right
      apply List.append_left_lt
      exact List.cons_lt_cons_iff.mpr (Or.inl hlt)
  | @iteration m i j n path hpath hlt =>
    right
    have hs : s.values = path.entries.map Prod.snd ++ [m, i, s.n] := by
      simp [values, hpath, Frame.entries]
    have hq : values ⟨.loop m j :: path, n⟩ = path.entries.map Prod.snd ++ [m, j, n] := by
      simp [values, Frame.entries]
    rw [hs, hq]
    apply List.append_left_lt
    apply List.cons_lt_cons_iff.mpr
    exact Or.inr ⟨rfl, List.cons_lt_cons_iff.mpr (Or.inl hlt)⟩

theorem Ahead.eq_or_values_lt (h : Ahead x s) : x = s ∨ s.values < x.values := by
  induction h with
  | here hlater hcovers =>
    rcases hcovers with rfl | hframe
    · exact hlater.eq_or_values_lt
    · rcases hlater.eq_or_values_lt with rfl | hlt
      · exact .inr hframe.values_lt.1
      · exact .inr (hlt.trans hframe.values_lt.1)
  | @out f below n h ih =>
    have hframe : Surrounds ⟨below, f.n⟩ ⟨f :: below, n⟩ :=
      surrounds_iff.mpr ⟨[], f, rfl, rfl⟩
    rcases ih with rfl | hlt
    · exact .inr hframe.values_lt.2
    · exact .inr (hframe.values_lt.2.trans hlt)

end Site

end SatCheck
