import SatCheck.RecordWalk
import SatCheck.SiteAhead
/-!
# Execution points grow

Every call of a run changes the stack above some entry, and increments that entry or pushes on it.
So the points of a thread grow over a run, in the order of `ExecPoint::compare`.  The entries are
natural numbers: below 2^32 events on each level an `execcount_t` does not wrap around.
-/

namespace SatCheck

namespace ExecPoint

/-- The assertions of the loop of `compare`: up to the first difference the types are the same. -/
def compareAsserts : List (ExecPointType × Nat) → List (ExecPointType × Nat) → Bool
  | (type, value) :: ps, (type', value') :: qs =>
      type == type' && (value != value' || compareAsserts ps qs)
  | _, _ => true

/-- The stack `qs` comes from `ps` by a push, or by an increment of a counter or an iteration. -/
inductive Precedes : List (ExecPointType × Nat) → List (ExecPointType × Nat) → Prop
  | inside {p : ExecPointType × Nat} {rest : List (ExecPointType × Nat)} : Precedes [] (p :: rest)
  | front {type : ExecPointType} {v v' : Nat} {ps qs : List (ExecPointType × Nat)}
      (hbranch : type ≠ .branch) (hlt : v < v') : Precedes ((type, v) :: ps) ((type, v') :: qs)
  | cons (p : ExecPointType × Nat) {ps qs : List (ExecPointType × Nat)} (h : Precedes ps qs) :
      Precedes (p :: ps) (p :: qs)

namespace Precedes

variable {ps qs rs : List (ExecPointType × Nat)}

theorem comparePairs_eq (h : Precedes ps qs) : comparePairs ps qs = .after := by
  induction h with
  | inside => rfl
  | front hbranch hlt => rw [comparePairs_cons_of_ne hlt.ne, if_neg hbranch, if_pos hlt]
  | cons p h ih => simpa [comparePairs] using ih

theorem compareAsserts_eq (h : Precedes ps qs) : compareAsserts ps qs = true := by
  induction h with
  | inside => rfl
  | front hbranch hlt => simp [compareAsserts, hlt.ne]
  | cons p h ih => simp [compareAsserts, ih]

theorem push (ps : List (ExecPointType × Nat)) (p : ExecPointType × Nat)
    (rest : List (ExecPointType × Nat)) : Precedes ps (ps ++ p :: rest) := by
  induction ps with
  | nil => exact .inside
  | cons q ps ih => exact .cons q ih

theorem append (h : Precedes ps qs) (rs : List (ExecPointType × Nat)) :
    Precedes ps (qs ++ rs) := by
  induction h with
  | inside => exact .inside
  | front hbranch hlt => exact .front hbranch hlt
  | cons p h ih => exact .cons p ih

theorem increment {type : ExecPointType} (hbranch : type ≠ .branch) {v v' : Nat} (hlt : v < v')
    (ps qs rs : List (ExecPointType × Nat)) :
    Precedes (ps ++ (type, v) :: qs) (ps ++ (type, v') :: rs) := by
  induction ps with
  | nil => exact .front hbranch hlt
  | cons p ps ih => exact .cons p ih

private theorem of_increment {type : ExecPointType} (hbranch : type ≠ .branch) {v v' : Nat}
    (hlt : v < v') (h : Precedes ps (qs ++ (type, v) :: rs)) (rs' : List (ExecPointType × Nat)) :
    Precedes ps (qs ++ (type, v') :: rs') := by
  induction qs generalizing ps with
  | nil =>
    cases h with
    | inside => exact .inside
    | front hbranch' hlt' => exact .front hbranch' (hlt'.trans hlt)
    | cons _ _ => exact .front hbranch hlt
  | cons q qs ih =>
    cases h with
    | inside => exact .inside
    | front hbranch' hlt' => exact .front hbranch' hlt'
    | cons _ h => exact .cons q (ih h)

end Precedes

end ExecPoint

open ExecPoint (Precedes)

/-! ## Sites -/

namespace Site

def Grows (s s' : Site) : Prop := ∀ ps, Precedes ps s.pairs → Precedes ps s'.pairs

variable {s s' b l : Site}

theorem Grows.refl (s : Site) : s.Grows s := fun _ h => h

theorem Grows.trans {q : Site} (h : s.Grows s') (h' : s'.Grows q) : s.Grows q :=
  fun ps hps => h' ps (h ps hps)

theorem grows_of_increment {type : ExecPointType} (hbranch : type ≠ .branch) {v v' : Nat}
    (hlt : v < v') (qs rs rs' : List (ExecPointType × Nat)) (hs : s.pairs = qs ++ (type, v) :: rs)
    (hs' : s'.pairs = qs ++ (type, v') :: rs') : s.Grows s' ∧ Precedes s.pairs s'.pairs := by
  constructor
  · intro ps hps
    rw [hs] at hps
    rw [hs']
    exact hps.of_increment hbranch hlt rs'
  · rw [hs, hs']
    exact Precedes.increment hbranch hlt qs rs rs'

theorem grows_of_push (p : ExecPointType × Nat) (rest : List (ExecPointType × Nat))
    (hs' : s'.pairs = s.pairs ++ p :: rest) : s.Grows s' ∧ Precedes s.pairs s'.pairs := by
  constructor
  · intro ps hps
    rw [hs']
    exact hps.append _
  · rw [hs']
    exact Precedes.push s.pairs p rest

theorem grows_next (s : Site) : s.Grows s.next ∧ Precedes s.pairs s.next.pairs :=
  grows_of_increment ExecPointType.noConfusion (Nat.lt_succ_self s.n) s.path.entries [] [] rfl rfl

theorem grows_arm (s : Site) (d : Nat) : s.Grows (s.arm d) ∧ Precedes s.pairs (s.arm d).pairs :=
  grows_of_push (.branch, d) [(.counter, 0)] (by simp [pairs, arm, Frame.entries])

theorem grows_body (s : Site) : s.Grows s.body ∧ Precedes s.pairs s.body.pairs :=
  grows_of_push (.loop, 0) [(.counter, 0)] (by simp [pairs, body, Frame.entries])

theorem grows_iterate {n i : Nat} {path : Path} (h : s.path = .loop n i :: path) :
    s.Grows s.iterate ∧ Precedes s.pairs s.iterate.pairs := by
  have hloop : ExecPointType.loop ≠ .branch := by decide
  apply grows_of_increment hloop (Nat.lt_succ_self i)
    (path.entries ++ [(.counter, n)]) [(.counter, s.n)] [(.counter, 0)]
  · simp [pairs, h, Frame.entries]
  · simp [pairs, iterate, h, Frame.entries]

theorem grows_out {inner path : Path} {f : Frame} (h : s.path = inner ++ f :: path) :
    s.Grows ⟨path, f.n + 1⟩ ∧ Precedes s.pairs (pairs ⟨path, f.n + 1⟩) := by
  obtain ⟨e, hentries⟩ : ∃ e, f.entries = [(.counter, f.n), e] := by
    cases f <;> exact ⟨_, rfl⟩
  have hcounter : ExecPointType.counter ≠ .branch := by decide
  apply grows_of_increment hcounter (Nat.lt_succ_self f.n)
    path.entries (e :: (Path.entries inner ++ [(.counter, s.n)])) []
  · simp [pairs, h, hentries]
  · rfl

theorem grows_branch (h : b ∈ s.path.branches) :
    s.Grows b.next ∧ Precedes s.pairs b.next.pairs := by
  obtain ⟨inner, d, hpath⟩ := Path.exists_of_mem_branches h
  exact grows_out hpath

theorem grows_loop (h : l ∈ s.path.loops) : s.Grows l.next ∧ Precedes s.pairs l.next.pairs := by
  obtain ⟨inner, i, hpath⟩ := Path.exists_of_mem_loops h
  exact grows_out hpath

end Site

/-! ## Calls of a thread -/

namespace Control

variable {k : Control} {call : Annotation} {calls : List Annotation}

def Nested : Control → List Annotation → Prop
  | _, [] => True
  | k, call :: calls => k.Legal call ∧ Nested (k.move call) calls

/-- A call notes records at its site or at later ones, in their order, and leads behind them. -/
structure Advances (k : Control) (call : Annotation) : Prop where
  moves : k.site.Grows (k.move call).site
  notes : ∀ note ∈ k.notes call, k.site.Grows note.1 ∧
    Precedes note.1.pairs (k.move call).site.pairs
  sorted : (k.notes call).Pairwise fun a b => Precedes a.1.pairs b.1.pairs

theorem advances (hlegal : k.Legal call) : k.Advances call := by
  have hplain : ∀ et, k.notes call = [(k.site, et)] → k.move call = k.behind k.site →
      k.Advances call := by
    intro et hnotes hmove
    obtain ⟨hgrows, hnext⟩ := k.site.grows_next
    constructor
    · rw [hmove]
      exact hgrows
    · rw [hmove, hnotes]
      simpa [behind] using ⟨Site.Grows.refl k.site, hnext⟩
    · simp [hnotes]
  cases call with
  | event et numinputs => exact hplain et rfl rfl
  | threadCreate => exact hplain .threadcreate rfl rfl
  | threadStart parent => exact hplain .threadbegin rfl rfl
  | branchDir direction =>
    obtain ⟨hgrows, harm⟩ := k.site.grows_arm direction
    constructor
    · exact hgrows
    · simpa [Control.notes, move] using ⟨Site.Grows.refl k.site, harm⟩
    · simp [Control.notes]
  | merge mcid =>
    obtain ⟨b, hb, hmem⟩ := hlegal
    obtain ⟨hgrows, -⟩ := Site.grows_branch (Path.mergeable_subset hmem)
    obtain ⟨hgrows', hnext⟩ := b.next.grows_next
    constructor
    · simpa [move, hb, behind] using hgrows.trans hgrows'
    · simpa [Control.notes, move, hb, behind] using ⟨hgrows, hnext⟩
    · simp [Control.notes, hb]
  | enterLoop =>
    obtain ⟨hgrows, hbody⟩ := k.site.grows_body
    obtain ⟨hgrows', hnext⟩ := k.site.body.grows_next
    constructor
    · exact hgrows.trans hgrows'
    · simpa [Control.notes, move, behind] using
        ⟨⟨Site.Grows.refl k.site, hgrows' _ hbody⟩, hgrows, hnext⟩
    · simpa [Control.notes] using hbody
  | exitLoop =>
    obtain ⟨l, loops, hloops, hmem⟩ := hlegal.exists_loop
    obtain ⟨hgrows, hlabel⟩ := Site.grows_loop hmem
    obtain ⟨hgrows', hnext⟩ := l.next.grows_next
    constructor
    · simpa [move, hloops, behind] using hgrows.trans hgrows'
    · simpa [Control.notes, move, hloops, behind] using
        ⟨⟨Site.Grows.refl k.site, hgrows' _ hlabel⟩, hgrows, hnext⟩
    · simpa [Control.notes, hloops] using hlabel
  | loopIterate =>
    obtain ⟨n, i, path, hpath⟩ := hlegal
    constructor
    · exact (Site.grows_iterate hpath).1
    · simp [Control.notes]
    · simp [Control.notes]

theorem trace_precedes (h : k.Nested calls) :
    (k.trace calls).Pairwise (fun a b => Precedes a.1.pairs b.1.pairs) ∧
      ∀ note ∈ k.trace calls, k.site.Grows note.1 := by
  induction calls generalizing k with
  | nil => simp [trace]
  | cons call calls ih =>
    obtain ⟨hlegal, hrest⟩ := h
    have hcall := advances hlegal
    obtain ⟨hsorted, hgrows⟩ := ih hrest
    constructor
    · apply List.pairwise_append.mpr
      refine ⟨hcall.sorted, hsorted, fun a ha b hb => ?_⟩
      exact hgrows b hb _ (hcall.notes a ha).2
    · intro note hnote
      rcases List.mem_append.mp hnote with hnote | hnote
      · exact (hcall.notes note hnote).1
      · exact hcall.moves.trans (hgrows note hnote)

end Control

theorem Threads.WellNested.nested {ts : Threads} {calls : List (Nat × Annotation)}
    (h : ts.WellNested calls) (t : Nat) : (ts.control t).Nested (threadCalls t calls) := by
  induction calls generalizing ts with
  | nil => trivial
  | cons call calls ih =>
    obtain ⟨tid, call⟩ := call
    obtain ⟨hlegal, hrest⟩ := h
    have hcalls := ih hrest
    rw [threadCalls_cons]
    split_ifs with ht
    · subst ht
      exact ⟨hlegal.1, by simpa [Threads.move] using hcalls⟩
    · simpa [Threads.move, ht] using hcalls

/-- Of two events of a thread in a run, the later one is after the earlier one, no assertion of
`compare` fails on them, and so no point is met twice. -/
theorem requestsOf_compare {before : List (List (Nat × Annotation))}
    {calls : List (Nat × Annotation)} (hbefore : ∀ calls ∈ before, Threads.start.WellNested calls)
    (hcalls : Threads.start.WellNested calls) (tid : Nat) :
    (((Recorder.empty.runs before).run calls).requestsOf tid).Pairwise (fun earlier later =>
      earlier.compare later = .after ∧
        ExecPoint.compareAsserts earlier.pairs later.pairs = true) ∧
    (((Recorder.empty.runs before).run calls).requestsOf tid).Nodup := by
  have hsorted : (((Recorder.empty.runs before).run calls).requestsOf tid).Pairwise
      fun earlier later => Precedes earlier.pairs later.pairs := by
    rw [ScheduleBuilder.requestsOf_run hbefore hcalls, List.pairwise_map]
    exact (Control.trace_precedes (hcalls.nested tid)).1
  constructor
  · apply hsorted.imp
    exact fun h => ⟨h.comparePairs_eq, h.compareAsserts_eq⟩
  · apply List.nodup_iff_pairwise_ne.mpr
    apply hsorted.imp
    rintro e e' h rfl
    have hafter := h.comparePairs_eq
    simp at hafter

def secondRound : List (Nat × Annotation) :=
  [(0, .threadStart none), (0, .enterLoop), (0, .event .load 1), (0, .loopIterate),
    (0, .branchDir 1), (0, .exitLoop), (0, .event .store 2)]

theorem requestsOf_compare_secondRound :
    ((Recorder.empty.run secondRound).requestsOf 0).length = 8 ∧
      ((Recorder.empty.run secondRound).requestsOf 0).Pairwise fun earlier later =>
        earlier.compare later = .after ∧
          ExecPoint.compareAsserts earlier.pairs later.pairs = true := by
  have hnested : Threads.start.WellNested secondRound := by
    simp [secondRound, Threads.WellNested, Threads.Legal, Threads.move, Threads.start,
      Control.Legal, Control.move, Control.start, Control.behind, Control.IsPlain, Site.start,
      Site.next, Site.arm, Site.body, Site.iterate, Path.loops]
  have hbefore : ∀ calls ∈ ([] : List (List (Nat × Annotation))),
      Threads.start.WellNested calls := by
    simp
  exact ⟨by decide +kernel, (requestsOf_compare hbefore hnested 0).1⟩

end SatCheck
