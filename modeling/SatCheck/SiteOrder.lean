import SatCheck.ThreadCode
import Mathlib.Data.List.Lex
/-!
# The order of the sites of a run

The values on the stack of a point, read from the bottom, grow with every call of a run.
-/

namespace SatCheck

namespace Path

theorem exists_of_mem_loops {path : Path} {l : Site} (h : l ∈ loops path) :
    ∃ inner i, path = inner ++ .loop l.n i :: l.path := by
  induction path with
  | nil => simp [loops] at h
  | cons f path ih =>
    cases f with
    | arm n d =>
      obtain ⟨inner, i, rfl⟩ := ih h
      exact ⟨.arm n d :: inner, i, rfl⟩
    | loop n i =>
      rcases List.mem_cons.mp h with rfl | h
      · exact ⟨[], i, rfl⟩
      · obtain ⟨inner, i', rfl⟩ := ih h
        exact ⟨.loop n i :: inner, i', rfl⟩

end Path

namespace Site

def values (s : Site) : List Nat := s.path.entries.map Prod.snd ++ [s.n]

theorem values_lt_next (s : Site) : s.values < s.next.values := by
  apply List.append_left_lt
  exact List.cons_lt_cons_iff.mpr (Or.inl (Nat.lt_succ_self s.n))

/-- A site in a frame lies behind the record of the frame and before the next one. -/
theorem values_lt_of_frame {s b : Site} (d : Nat) (rest : List Nat)
    (h : s.values = b.path.entries.map Prod.snd ++ b.n :: d :: rest) :
    b.values < s.values ∧ s.values < b.next.values := by
  rw [h]
  constructor
  · apply List.append_left_lt
    exact List.cons_lt_cons_iff.mpr (Or.inr ⟨rfl, List.Lex.nil⟩)
  · apply List.append_left_lt
    exact List.cons_lt_cons_iff.mpr (Or.inl (Nat.lt_succ_self b.n))

theorem values_lt_branch {s b : Site} (h : b ∈ s.path.branches) :
    b.values < s.values ∧ s.values < b.next.values := by
  obtain ⟨inner, d, hpath⟩ := Path.exists_of_mem_branches h
  apply values_lt_of_frame d (inner.entries.map Prod.snd ++ [s.n])
  simp [values, hpath, Frame.entries]

theorem values_lt_loop {s l : Site} (h : l ∈ s.path.loops) :
    l.values < s.values ∧ s.values < l.next.values := by
  obtain ⟨inner, i, hpath⟩ := Path.exists_of_mem_loops h
  apply values_lt_of_frame i (inner.entries.map Prod.snd ++ [s.n])
  simp [values, hpath, Frame.entries]

theorem values_lt_arm (s : Site) (d : Nat) : s.values < (s.arm d).values :=
  (values_lt_branch (s := s.arm d) (by simp [arm, Path.branches])).1

theorem values_lt_body (s : Site) : s.values < s.body.values :=
  (values_lt_loop (s := s.body) (by simp [body, Path.loops])).1

private theorem values_lt_iterate {s : Site} {n i : Nat} {path : Path}
    (h : s.path = .loop n i :: path) :
    s.values < s.iterate.values := by
  have hs : s.values = path.entries.map Prod.snd ++ [n, i, s.n] := by
    simp [values, h, Frame.entries]
  have hiterate : s.iterate.values = path.entries.map Prod.snd ++ [n, i + 1, 0] := by
    simp [values, iterate, h, Frame.entries]
  rw [hs, hiterate]
  apply List.append_left_lt
  apply List.cons_lt_cons_iff.mpr
  exact Or.inr ⟨rfl, List.cons_lt_cons_iff.mpr (Or.inl (Nat.lt_succ_self i))⟩

end Site

/-! ## The records of a run -/

namespace Control

variable {k : Control} {call : Annotation}

/-- A call notes records from its site on, in order, and leads behind them. -/
theorem notes_sorted (hlegal : k.Legal call) :
    (k.notes call).Pairwise (fun a b => a.1.values < b.1.values) ∧
      (∀ note ∈ k.notes call, k.site.values ≤ note.1.values ∧
        note.1.values < (k.move call).site.values) ∧
      k.site.values < (k.move call).site.values := by
  cases call with
  | branchDir direction =>
    have := k.site.values_lt_arm direction
    simp [notes, move, this]
  | merge mcid =>
    obtain ⟨b, hb, hmem⟩ := hlegal
    have hbranch := (Site.values_lt_branch (Path.mergeable_subset hmem)).2
    have hnext := b.next.values_lt_next
    simp [notes, move, hb, behind, hbranch.le, hnext, hbranch.trans hnext]
  | enterLoop =>
    have hbody := k.site.values_lt_body
    have hnext := k.site.body.values_lt_next
    simp [notes, move, behind, hbody, hbody.le, hnext, hbody.trans hnext]
  | exitLoop =>
    obtain ⟨l, loops, hloops, hmem⟩ := hlegal.exists_loop
    have hloop := (Site.values_lt_loop hmem).2
    have hnext := l.next.values_lt_next
    simp [notes, move, hloops, behind, hloop, hloop.le, hnext, hloop.trans hnext]
  | loopIterate =>
    obtain ⟨n, i, path, hpath⟩ := hlegal
    simp [notes, move, Site.values_lt_iterate hpath]
  | event et numinputs => simp [notes, move, behind, Site.values_lt_next]
  | threadCreate => simp [notes, move, behind, Site.values_lt_next]
  | threadStart parent => simp [notes, move, behind, Site.values_lt_next]

theorem trace_sorted {code : Code} {calls : List Annotation} (hruns : code.Runs k calls) :
    (k.trace calls).Pairwise (fun a b => a.1.values < b.1.values) ∧
      ∀ note ∈ k.trace calls, k.site.values ≤ note.1.values := by
  induction calls generalizing k with
  | nil => simp [trace]
  | cons call calls ih =>
    obtain ⟨-, hlegal, hrest⟩ := hruns
    obtain ⟨hsorted, hnotes, hmove⟩ := notes_sorted hlegal
    obtain ⟨hrest, hbound⟩ := ih hrest
    constructor
    · rw [trace, List.pairwise_append]
      refine ⟨hsorted, hrest, fun a ha b hb => ?_⟩
      exact (hnotes a ha).2.trans_le (hbound b hb)
    · intro note hnote
      rcases List.mem_append.mp hnote with hnote | hnote
      · exact (hnotes note hnote).1
      · exact hmove.le.trans (hbound note hnote)

theorem trace_nodup {code : Code} {calls : List Annotation} (hruns : code.Runs k calls)
    (tid : Nat) : ((k.trace calls).map fun note => note.1.ep tid).Nodup := by
  rw [List.nodup_iff_pairwise_ne, List.pairwise_map]
  apply (trace_sorted hruns).1.imp
  intro a b hlt heq
  obtain ⟨-, heq⟩ := Site.ep_inj.mp heq
  rw [heq] at hlt
  exact lt_irrefl _ hlt

end Control

end SatCheck
