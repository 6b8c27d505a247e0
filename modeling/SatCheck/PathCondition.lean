import SatCheck.SingleThread
import SatCheck.Landmark
import SatCheck.Subsumption
import SatCheck.ThreadConditions
/-!
# Execution constraints of one thread

The constraint of a record has its innermost branch and the exits that are pending when the record
is visited.  With the directions of a run in the branch records it tells whether the run comes to
the record.
-/

namespace SatCheck

/-! ## Inside of a loop and behind it -/

namespace ExecPoint

/-- What is behind a point in a loop is in the loop too, or is the label of the loop, or behind
it. -/
theorem compare_label {ps xs rest : List (ExecPointType × Nat)} {n : Nat} {i : ExecPointType × Nat}
    (h : comparePairs xs (ps ++ (.counter, n) :: i :: rest) = .before) :
    (∃ pre p q tail, xs = pre ++ p :: q :: tail ∧ pre.map Prod.snd = ps.map Prod.snd ∧ p.2 = n) ∨
    comparePairs xs (ps ++ [(.counter, n + 1)]) = .before ∨
    xs.map Prod.snd = ps.map Prod.snd ++ [n + 1] := by
  induction ps generalizing xs with
  | nil =>
    cases xs with
    | nil => simp [comparePairs] at h
    | cons x xs =>
      obtain ⟨type, v⟩ := x
      rcases Nat.lt_trichotomy v n with hlt | rfl | hlt
      · rw [List.nil_append, comparePairs_cons_of_ne hlt.ne] at h
        split_ifs at h
      · cases xs with
        | nil => simp [comparePairs] at h
        | cons q tail => exact .inl ⟨[], (type, v), q, tail, rfl, rfl, rfl⟩
      · rw [List.nil_append, comparePairs_cons_of_ne hlt.ne'] at h
        right
        rcases Nat.lt_or_eq_of_le (show n + 1 ≤ v from hlt) with hlt' | rfl
        · left
          rw [List.nil_append, comparePairs_cons_of_ne hlt'.ne']
          split_ifs at h ⊢
          · exact absurd hlt' (by omega)
          · rfl
        · cases xs with
          | nil => exact .inr rfl
          | cons q tail => exact .inl (by simp [comparePairs])
  | cons p ps ih =>
    cases xs with
    | nil => simp [comparePairs] at h
    | cons x xs =>
      obtain ⟨type, v⟩ := x
      obtain ⟨type', v'⟩ := p
      by_cases hvv : v = v'
      · subst hvv
        simp only [List.cons_append, comparePairs, ne_eq, not_true_eq_false, if_false] at h ⊢
        rcases ih h with ⟨pre, p, q, tail, rfl, hpre, hp⟩ | hbefore | hvalues
        · exact .inl ⟨(type, v) :: pre, p, q, tail, rfl, by simp [hpre], hp⟩
        · exact .inr (.inl hbefore)
        · exact .inr (.inr (by simp [hvalues]))
      · right
        left
        rw [List.cons_append, comparePairs_cons_of_ne hvv] at h ⊢
        exact h

end ExecPoint

theorem Path.mem_loops_of_head {path : Path} {l l' : Site} {outer : List Site}
    (h : path.loops = l :: outer) (hl' : l' ∈ path.loops) : l' = l ∨ l' ∈ l.path.loops := by
  induction path with
  | nil => simp [loops] at h
  | cons frame path ih =>
    cases frame with
    | arm m d => exact ih h hl'
    | loop m i =>
      obtain ⟨rfl, rfl⟩ := List.cons_eq_cons.mp h
      exact List.mem_cons.mp hl'

namespace Site

variable {code : Code} {x y l : Site}

theorem exists_pairs_loop (h : l ∈ y.path.loops) :
    ∃ i rest, y.pairs = l.path.entries ++ (.counter, l.n) :: (.loop, i) :: rest := by
  obtain ⟨inner, i, hpath⟩ := Path.exists_of_mem_loops h
  exact ⟨i, Path.entries inner ++ [(.counter, y.n)], by simp [pairs, hpath, Frame.entries]⟩

theorem compare_next_loop (h : l ∈ y.path.loops) :
    ExecPoint.comparePairs l.next.pairs y.pairs = .before := by
  obtain ⟨i, rest, hpairs⟩ := exists_pairs_loop h
  have hnext : l.next.pairs = l.path.entries ++ [(.counter, l.n + 1)] := rfl
  rw [hnext, hpairs, ExecPoint.comparePairs_append, ExecPoint.comparePairs_cons_of_ne (by omega)]
  simp

/-- A record behind one that is in a loop is in the loop, or is the label, or behind it. -/
theorem mem_loops_or_behind (hx : Path.Typed code x.path) (hy : Path.Typed code y.path)
    (hl : l ∈ y.path.loops) (h : ExecPoint.comparePairs x.pairs y.pairs = .before) :
    l ∈ x.path.loops ∨ x = l.next ∨ ExecPoint.comparePairs x.pairs l.next.pairs = .before := by
  obtain ⟨inner', i', hpath'⟩ := Path.exists_of_mem_loops hl
  have hloop : Path.Typed code (.loop l.n i' :: l.path) := by
    rw [hpath'] at hy
    exact hy.of_append
  obtain ⟨i, rest, hpairs⟩ := exists_pairs_loop hl
  rw [hpairs] at h
  rcases ExecPoint.compare_label h with ⟨pre, p, q, tail, hsplit, hpre, hp⟩ | hbefore | hvalues
  · left
    have hfront : (pre ++ [p]).map Prod.snd =
        (l.path.entries ++ [(ExecPointType.counter, l.n)]).map Prod.snd := by
      simp [hpre, hp]
    have hentries : x.path.entries ++ [(.counter, x.n)] = pre ++ [p] ++ q :: tail := by
      simpa [pairs] using hsplit
    obtain ⟨inner, f, under, hpath, hunder, w, hw⟩ := Path.exists_frame hentries hfront
    have hframe : Path.Typed code (f :: under) := by
      rw [hpath] at hx
      exact hx.of_append
    obtain rfl := hframe.tail.eq_of_values hloop.tail hunder
    cases f with
    | loop k j =>
      obtain ⟨rfl, -⟩ : k = l.n ∧ j = w := by simpa [Frame.entries] using hw
      rw [hpath]
      exact Path.mem_loops_append inner List.mem_cons_self
    | arm k d =>
      obtain ⟨rfl, -⟩ : k = l.n ∧ d = w := by simpa [Frame.entries] using hw
      have hbranch := hframe.1 l (by simp [Path.branches])
      have hloop' := hloop.2 l (by simp [Path.loops])
      simp [hbranch] at hloop'
  · exact .inr (.inr hbefore)
  · right
    left
    rw [map_pairs, values] at hvalues
    obtain ⟨hpath, hn⟩ := List.append_inj' hvalues rfl
    obtain ⟨path, n⟩ := x
    obtain rfl := hx.eq_of_values hloop.tail hpath
    obtain rfl : n = l.n + 1 := by simpa using hn
    rfl

end Site

/-! ## Codes of a run -/

namespace Traversal

variable (g : EventGraph) (t : Traversal)

/-- The code of a direction: code `0` of a branch that is not always executed is left out. -/
def directionCode (branch : EPValue) : Nat :=
  let index := (g.valuevector branch.record).idxOf branch.value
  if (t.branchtable branch.record).any (·.alwaysexecuted) then index else index + 1

/-- Every branch has the code of the direction that the run takes, or `0` if the run does not come
to it. -/
def runCodes (tid : Nat) (calls : List Annotation) (record : ExecPoint) : Nat :=
  match (Control.start.taken calls).find? fun a => a.1.ep tid = record with
  | some a => t.directionCode g ⟨record, a.2⟩
  | none => 0

theorem takes_iff {t : Traversal} {codes : ExecPoint → Nat} {branch : EPValue} {br : BranchRecord}
    (hbr : t.branchtable branch.record = some br) :
    t.takes g codes branch = true ↔ branch.value ∈ g.valuevector branch.record ∧
      codes branch.record = t.directionCode g branch := by
  simp [takes, directionCode, hbr]

end Traversal

/-! ## Runs and conditions -/

/-- No branch is merged by some of the runs and left open by others, and the last run ends outside
of its loops. -/
structure MergedOrOpen (executions : List (List (Nat × Annotation))) (tid : Nat)
    (calls : List Annotation) : Prop where
  branches : ∀ b ∈ Control.start.leftOpen false calls, b ∉ mergedBy executions tid
  loops : (Control.start.after calls).site.path.loops = []

namespace Finished

variable {executions : List (List (Nat × Annotation))} {tid : Nat} {code : Code} {g : EventGraph}
  {noexecyields : Bool} {f : Site} {n : Nat} {calls : List Annotation} {x y : Site}

theorem mem_pre (h : Finished executions tid code noexecyields g f n) {pre post : List ExecPoint}
    (hsplit : (Traversal.traverse g noexecyields n).visited = pre ++ x.ep tid :: post)
    (hy : y.ep tid ∈ (Traversal.traverse g noexecyields n).visited)
    (hcompare : ExecPoint.comparePairs x.pairs y.pairs = .before) : y.ep tid ∈ pre := by
  have hinOrder := h.inOrder
  rw [hsplit] at hy hinOrder
  rcases List.mem_append.mp hy with hy | hy
  · exact hy
  · rcases List.mem_cons.mp hy with heq | hy
    · rw [(Site.ep_inj.mp heq).2] at hcompare
      simp at hcompare
    · have hafter := (List.pairwise_cons.mp (List.pairwise_append.mp hinOrder).2.1).1 _ hy
      have hcompare' : (x.ep tid).compare (y.ep tid) = .before := hcompare
      rcases hafter rfl with hafter | hafter <;> simp [hafter] at hcompare'

theorem around (h : Finished executions tid code noexecyields g f n)
    (hx : x.ep tid ∈ (Traversal.traverse g noexecyields n).visited) :
    f.values ≤ x.values ∧
      (∀ b ∈ x.path.branches, b.ep tid ∈ (Traversal.traverse g noexecyields n).visited) ∧
      (∀ l ∈ x.path.loops, l ∈ f.path.loops ∨
        l.ep tid ∈ (Traversal.traverse g noexecyields n).visited) ∧
      ∀ l ∈ f.path.loops, l ∈ x.path.loops := by
  obtain ⟨s, heq, hvalues, hbranches, hloops, hfirst⟩ :=
    h.shaped.around (h.mem_visited_iff.mp hx)
  obtain ⟨-, rfl⟩ := Site.ep_inj.mp heq
  refine ⟨?_, fun b hb => ?_, fun l hl => (hloops l hl).imp_right h.mem_visited_iff.mpr, hfirst⟩
  · rcases hvalues with rfl | hlt
    · exact le_rfl
    · exact hlt.le
  · rcases hbranches b hb with hb | hb
    · simp [h.branches_first] at hb
    · exact h.mem_visited_iff.mpr hb

/-- An exit that is in the condition of a record leaves a loop around the record. -/
theorem mem_loops_of_pending (h : Finished executions tid code noexecyields g f n)
    {pre post : List ExecPoint} {et : EventType}
    (hsplit : (Traversal.traverse g noexecyields n).visited = pre ++ x.ep tid :: post)
    (htype : g.getType (x.ep tid) = some et) (hlabel : et ≠ .label)
    (hy : y.ep tid ∈ g.pendingExits pre)
    (hcompare : ExecPoint.comparePairs x.pairs y.pairs = .before) :
    ∃ l loops, y.path.loops = l :: loops ∧ l ∈ x.path.loops := by
  obtain ⟨hexit, pre₁, post₁, rfl, hpost⟩ := EventGraph.mem_pendingExits.mp hy
  have hrecord : .record (y.ep tid) .nonlocaltrans ∈ threadLog executions tid :=
    Recorded.mem_threadLog_of_ne (h.logged.mem (.record (y.ep tid) .nonlocaltrans) hexit) rfl
      (by simp)
  obtain ⟨calls, hcalls, hlog⟩ := hrecord
  have hruns := h.thread.runs calls hcalls (h.thread.starts calls hcalls)
  obtain ⟨before, after, l, loops, hcallsSplit, hsite, hloops, htypeExit⟩ :=
    Control.exists_exit hruns (Control.mem_trace_of_log hlog)
  have hentry : ∀ e ∈ (Control.start.after before).entries tid .exitLoop,
      e ∈ threadLog executions tid := by
    intro e he
    refine ⟨calls, hcalls, ?_⟩
    rw [hcallsSplit]
    exact Control.log_append_subset (List.mem_append_left _ he)
  have hnextLoop := h.thread.getNextRecord h.logged (s := l) (x := l.next.ep tid)
    (hentry _ (by simp [Control.entries, Control.links, hsite, hloops]))
  have hnextExit := h.thread.getNextRecord h.logged (s := y) (x := l.next.ep tid)
    (hentry _ (by simp [Control.entries, Control.links, hsite, hloops]))
  have hmem : l ∈ y.path.loops := by simp [hloops]
  refine ⟨l, loops, hloops, ?_⟩
  have hxTyped := h.thread.typed h.logged (s := x) (by simp [htype])
  have hyTyped := h.thread.typed h.logged (s := y) (by simp [hexit])
  have hlabelType : code.type l.next = some .label :=
    (Code.type_next_of_loopenter (hyTyped.2 l hmem)).1
  have hvisited : ∀ s ∈ pre₁ ++ y.ep tid :: post₁,
      s ∈ (Traversal.traverse g noexecyields n).visited := by
    intro s hs
    rw [hsplit]
    exact List.mem_append_left _ hs
  have hxVisited : x.ep tid ∈ (Traversal.traverse g noexecyields n).visited := by simp [hsplit]
  rcases (h.around (hvisited (y.ep tid) (by simp))).2.2.1 l hmem with hfirst | hloop
  · exact (h.around hxVisited).2.2.2 l hfirst
  · -- the label of the loop is visited
    have hsucc : l.next.ep tid ∈ g.succs noexecyields (l.ep tid) :=
      EventGraph.mem_succs_next (h.thread.getType_of_next h.logged (hyTyped.2 l hmem) hnextLoop)
        (by decide) (by simp) hnextLoop
    have hlabelVisited := h.closed _ hloop _ hsucc
    rcases Site.mem_loops_or_behind hxTyped hyTyped hmem hcompare with hin | rfl | hbehind
    · exact hin
    · exfalso
      have hcode := (h.thread.leaves (Recorded.mem_threadLog_of_ne
        (h.logged.mem (.record (l.next.ep tid) et) htype) rfl (by simp))).type
      rw [hlabelType, Option.some_inj] at hcode
      exact hlabel hcode.symm
    · exfalso
      have hlabelPre := h.mem_pre hsplit hlabelVisited hbehind
      have hlabelGraph : g.getType (l.next.ep tid) = some .label :=
        (h.thread.getType h.logged (hentry _ (by
          simp [Control.entries, Control.notes, hsite, hloops]))).1
      rcases List.mem_append.mp hlabelPre with hmem₁ | hmem₁
      · have hinOrder := h.inOrder
        rw [hsplit, List.append_assoc] at hinOrder
        have hrel := (List.pairwise_append.mp hinOrder).2.2 _ hmem₁ (y.ep tid) (by simp)
        have hback : (l.next.ep tid).compare (y.ep tid) = .before := Site.compare_next_loop hmem
        rcases hrel rfl with hrel | hrel <;> simp [hrel] at hback
      · rcases List.mem_cons.mp hmem₁ with heq | hmem₁
        · rw [heq, hexit] at hlabelGraph
          simp at hlabelGraph
        · exact hpost _ hmem₁ hlabelGraph hnextExit

theorem getType_of_trace (h : Finished executions tid code noexecyields g f n)
    (hrun : RecordedRun tid code g calls) {et : EventType}
    (hnote : (x, et) ∈ Control.start.trace calls) : g.getType (x.ep tid) = some et :=
  (h.thread.getType h.logged (h.log_subset hrun _ (Control.mem_log_of_trace hnote))).1

theorem arms_taken (hrun : RecordedRun tid code g calls) {et : EventType}
    (hnote : (x, et) ∈ Control.start.trace calls) {a : Site × Nat} (ha : a ∈ x.path.arms) :
    a ∈ Control.start.taken calls := by
  have harms := Control.arms_of_trace hrun.runs hnote ha
  simpa [Control.start, Site.start, Path.arms] using harms

/-- A run that takes the directions around a record, and does not come to an exit that is in the
condition of the record, does not leave a loop around the record out of a branch. -/
theorem not_exits (h : Finished executions tid code noexecyields g f n)
    (hrun : RecordedRun tid code g calls) {pre post : List ExecPoint} {et : EventType}
    (hsplit : (Traversal.traverse g noexecyields n).visited = pre ++ x.ep tid :: post)
    (hx : g.getType (x.ep tid) = some et)
    (harms : ∀ a ∈ x.path.arms, a ∈ Control.start.taken calls)
    (hexits : ∀ y : Site, y.ep tid ∈ g.execCond (g.pendingExits pre) (x.ep tid) →
      ∀ b d, branchOf tid y.path = some ⟨Site.ep tid b, d⟩ → (b, d) ∉ Control.start.taken calls)
    {s : Site} (hs : (s, .nonlocaltrans) ∈ Control.start.trace calls)
    (hlt : s.values < x.values) {l : Site} (hl : s.path.loops.head? = some l) :
    l ∉ x.path.loops := by
  intro hmem
  have hxVisited : x.ep tid ∈ (Traversal.traverse g noexecyields n).visited := by simp [hsplit]
  obtain ⟨hfrom, -, -, hfirstLoops⟩ := h.around hxVisited
  obtain ⟨before, after, l', loops, rfl, hsite, hloops, htype⟩ := Control.exists_exit hrun.runs hs
  obtain rfl : l' = l := by simpa [hloops] using hl
  have hin := (Site.values_lt_loop hmem).2
  have hbehind : ∀ note ∈ Control.start.trace (before ++ .exitLoop :: after),
      s.values < note.1.values → l'.next.values ≤ note.1.values := by
    rw [← hsite] at hloops ⊢
    exact fun note hnote => Control.values_of_exit hrun.runs hloops hnote
  have hsGraph := h.getType_of_trace hrun hs
  have hxTyped := h.thread.typed h.logged (s := x) (by simp [hx])
  have hsTyped := h.thread.typed h.logged (s := s) (by simp [hsGraph])
  have hfirst : f.values ≤ s.values := by
    obtain ⟨pre', call', post', et', heq, hissues⟩ := h.exists_first hrun
    have hnote : (f, et') ∈ Control.start.trace (before ++ .exitLoop :: after) := by
      rw [heq, Control.trace_append]
      apply List.mem_append_right
      apply List.mem_append_left
      simp [hissues.notes]
    by_contra hlt'
    have hle := hbehind _ hnote (not_le.mp hlt')
    exact absurd hin (not_lt.mpr (hle.trans hfrom))
  have hsVisited : s.ep tid ∈ (Traversal.traverse g noexecyields n).visited :=
    h.mem_visited_of_trace hrun hs hfirst fun l'' hl'' =>
      hlt.trans (Site.values_lt_loop (hfirstLoops l'' hl'')).2
  have hcompare : ExecPoint.comparePairs x.pairs s.pairs = .before := by
    apply Site.compare_of_values_lt hxTyped hsTyped _ hlt
    intro b d d' hd hd'
    exact Control.direction_unique hrun.runs (harms _ hd) (arms_taken hrun hs hd')
  have hpre := h.mem_pre hsplit hsVisited hcompare
  -- its label is not visited before the record
  have hpending : s.ep tid ∈ g.pendingExits pre := by
    obtain ⟨p₁, p₂, rfl⟩ := List.append_of_mem hpre
    refine EventGraph.mem_pendingExits.mpr ⟨hsGraph, p₁, p₂, rfl, ?_⟩
    intro record hrecord _ hnext
    have hlink := h.thread.getNextRecord h.logged (s := s) (x := l'.next.ep tid)
      (h.log_subset hrun _ (Control.log_append_subset (List.mem_append_left _ (by
        simp [Control.entries, Control.links, hsite, hloops]))))
    obtain rfl := Option.some_inj.mp (hlink.symm.trans hnext)
    have hinOrder := h.inOrder
    rw [hsplit] at hinOrder
    have hrel := (List.pairwise_append.mp hinOrder).2.2 (l'.next.ep tid) (by simp [hrecord])
      (x.ep tid) List.mem_cons_self
    have hback : (l'.next.ep tid).compare (x.ep tid) = .before := Site.compare_next_loop hmem
    rcases hrel rfl with hrel | hrel <;> simp [hrel] at hback
  have hcond : s.ep tid ∈ g.execCond (g.pendingExits pre) (x.ep tid) := by
    refine (EventGraph.mem_execCond g (v := ⟨x.ep tid, g.pendingExits pre⟩)).mpr
      ⟨hpending, hcompare, ?_⟩
    intro branch hbranch hafter
    rw [h.placed x (by simp [hx])] at hbranch
    obtain ⟨b, d, rfl, hpath⟩ := Path.arms_eq hbranch
    have hb : (b, d) ∈ x.path.arms := by simp [hpath]
    have hlt' : s.values < b.values := Site.values_lt_of_compare hafter
    have hle := hbehind _ (Control.mem_trace_of_taken (harms _ hb)) hlt'
    have hbx := (Site.values_lt_branch (Path.mem_branches_of_arms hb)).1
    exact absurd (hbx.trans hin) (not_lt.mpr hle)
  have hbranch : ∃ b d, branchOf tid s.path = some ⟨Site.ep tid b, d⟩ ∧ (b, d) ∈ s.path.arms := by
    cases hpath : s.path with
    | nil => simp [hpath, Path.loops] at hloops
    | cons frame below =>
      cases frame with
      | arm m d => exact ⟨⟨below, m⟩, d, rfl, List.mem_cons_self⟩
      | loop m i => simp [Site.exitType, hpath] at htype
  obtain ⟨b, d, hof, hd⟩ := hbranch
  exact hexits s hcond b d hof (arms_taken hrun hs hd)

theorem directions (hrun : RecordedRun tid code g calls)
    (harms : ∀ a ∈ x.path.arms, a ∈ Control.start.taken calls) (b : Site) (d d' : Nat)
    (hd : (b, d) ∈ x.path.arms) (hd' : (b, d') ∈ Control.start.taken calls) : d = d' :=
  Control.direction_unique hrun.runs (harms _ hd) hd'

/-- A run that takes the directions around a record, and comes to no exit in the condition of the
record, comes to the record. -/
theorem mem_trace_of_arms (h : Finished executions tid code noexecyields g f n)
    (hrun : RecordedRun tid code g calls) (hopen : MergedOrOpen executions tid calls)
    {pre post : List ExecPoint} {et : EventType}
    (hsplit : (Traversal.traverse g noexecyields n).visited = pre ++ x.ep tid :: post)
    (hx : g.getType (x.ep tid) = some et)
    (harms : ∀ a ∈ x.path.arms, a ∈ Control.start.taken calls)
    (hexits : ∀ y : Site, y.ep tid ∈ g.execCond (g.pendingExits pre) (x.ep tid) →
      ∀ b d, branchOf tid y.path = some ⟨Site.ep tid b, d⟩ → (b, d) ∉ Control.start.taken calls) :
    ∃ et, (x, et) ∈ Control.start.trace calls := by
  have hlandmark := h.thread.landmark h.logged (s := x) (by simp [hx])
  have hdirections := directions hrun harms
  have hkeeps := hlandmark.keeps Code.reaches_start Code.throughTo_start Site.ahead_start hrun.runs
    hopen.branches hopen.loops
    (fun s hs hlt l hl => h.not_exits hrun hsplit hx harms hexits hs hlt hl) hdirections
  exact hlandmark.toTarget.mem_trace Code.reaches_start Site.ahead_start hrun.runs hkeeps
    hdirections

/-- A run that comes to a record takes no direction in which an exit lies that is in the condition
of the record. -/
theorem not_taken_of_pending (h : Finished executions tid code noexecyields g f n)
    (hrun : RecordedRun tid code g calls) (hopen : MergedOrOpen executions tid calls)
    {pre post : List ExecPoint} {et : EventType}
    (hsplit : (Traversal.traverse g noexecyields n).visited = pre ++ x.ep tid :: post)
    (hx : (x, et) ∈ Control.start.trace calls) (hlabel : et ≠ .label)
    (hy : y.ep tid ∈ g.execCond (g.pendingExits pre) (x.ep tid)) {b : Site} {d : Nat}
    (hbranch : branchOf tid y.path = some ⟨b.ep tid, d⟩) : (b, d) ∉ Control.start.taken calls := by
  intro htaken
  obtain ⟨hpending, hcompare, -⟩ :=
    (EventGraph.mem_execCond g (v := ⟨x.ep tid, g.pendingExits pre⟩)).mp hy
  have hlt : y.values < x.values := Site.values_lt_of_compare hcompare
  have htype := h.getType_of_trace hrun hx
  obtain ⟨l, loops, hloops, hmem⟩ := h.mem_loops_of_pending hsplit htype hlabel hpending hcompare
  have hexit := (EventGraph.mem_pendingExits.mp hpending).1
  have hinner : ∀ l' ∈ y.path.loops, x.values < l'.next.values := by
    intro l' hl'
    rcases Path.mem_loops_of_head hloops hl' with rfl | hl'
    · exact (Site.values_lt_loop hmem).2
    · exact (Site.values_lt_loop (Path.loops_of_loops hmem hl')).2
  have hleft : ∀ {s l'}, (s, .nonlocaltrans) ∈ Control.start.trace calls → s.values < x.values →
      s.path.loops.head? = some l' → l'.next.values ≤ x.values := by
    intro s l' hs hsx hl'
    obtain ⟨before, after, l'', loops', rfl, rfl, hloops', -⟩ := Control.exists_exit hrun.runs hs
    obtain rfl : l'' = l' := by simpa [hloops'] using hl'
    exact Control.values_of_exit hrun.runs hloops' hx hsx
  have harms : ∀ a ∈ y.path.arms, a ∈ Control.start.taken calls := by
    obtain ⟨b', d', heq, hpath⟩ := Path.arms_eq hbranch
    obtain ⟨hb, rfl⟩ := EPValue.mk.inj heq
    obtain ⟨-, rfl⟩ := Site.ep_inj.mp hb
    intro a ha
    rw [hpath] at ha
    rcases List.mem_cons.mp ha with rfl | ha
    · exact htaken
    · exact Control.arms_of_taken hrun.runs htaken ha
  have hlandmark := h.thread.landmark h.logged (s := y) (by simp [hexit])
  have hdirections := directions hrun harms
  have hkeeps := hlandmark.keeps Code.reaches_start Code.throughTo_start Site.ahead_start hrun.runs
    hopen.branches hopen.loops (by
      intro s hs hsy l' hl' hmem'
      exact absurd (hinner l' hmem') (not_lt.mpr (hleft hs (hsy.trans hlt) hl'))) hdirections
  obtain ⟨et', hnote⟩ := hlandmark.toTarget.mem_trace Code.reaches_start Site.ahead_start hrun.runs
    hkeeps hdirections
  obtain rfl : et' = .nonlocaltrans :=
    Option.some_inj.mp ((h.getType_of_trace hrun hnote).symm.trans hexit)
  have hhead : y.path.loops.head? = some l := by simp [hloops]
  have hle := hleft hnote hlt hhead
  exact absurd (Site.values_lt_loop hmem).2 (not_lt.mpr hle)

theorem runCodes_of_taken (hrun : RecordedRun tid code g calls) (t : Traversal) {b : Site} {d : Nat}
    (htaken : (b, d) ∈ Control.start.taken calls) :
    t.runCodes g tid calls (b.ep tid) = t.directionCode g ⟨b.ep tid, d⟩ := by
  unfold Traversal.runCodes
  cases hfind : (Control.start.taken calls).find? fun a => a.1.ep tid = b.ep tid with
  | none =>
    have hnone := List.find?_eq_none.mp hfind _ htaken
    simp at hnone
  | some a =>
    obtain ⟨b', d'⟩ := a
    have heq := List.find?_some hfind
    obtain ⟨-, rfl⟩ := Site.ep_inj.mp (of_decide_eq_true heq)
    rw [Control.direction_unique hrun.runs htaken (List.mem_of_find?_eq_some hfind)]

theorem runCodes_of_not_taken (t : Traversal) {b : Site}
    (hnone : ∀ d, (b, d) ∉ Control.start.taken calls) : t.runCodes g tid calls (b.ep tid) = 0 := by
  unfold Traversal.runCodes
  cases hfind : (Control.start.taken calls).find? fun a => a.1.ep tid = b.ep tid with
  | none => rfl
  | some a =>
    obtain ⟨b', d'⟩ := a
    have heq := List.find?_some hfind
    obtain ⟨-, rfl⟩ := Site.ep_inj.mp (of_decide_eq_true heq)
    exact absurd (List.mem_of_find?_eq_some hfind) (hnone d')

private theorem exists_taken_of_always (h : Finished executions tid code noexecyields g f n)
    (hrun : RecordedRun tid code g calls) (hopen : MergedOrOpen executions tid calls) {b : Site}
    (hb : b.ep tid ∈ (Traversal.traverse g noexecyields n).visited)
    (htype : g.getType (b.ep tid) = some .branchdir)
    (halways : (Traversal.traverse g noexecyields n).isAlwaysExecuted g (b.ep tid) = true) :
    ∃ d, (b, d) ∈ Control.start.taken calls := by
  obtain ⟨pre, post, hsplit, hexits⟩ := Traversal.exists_pendingExits g noexecyields hb
    (by simp [htype, Traversal.recordsExecCond])
  simp only [Traversal.isAlwaysExecuted, Bool.and_eq_true, List.isEmpty_iff,
    Option.isNone_iff_eq_none] at halways
  obtain ⟨hempty, hbranch⟩ := halways
  rw [h.placed b (by simp [htype])] at hbranch
  obtain ⟨et, hnote⟩ := h.mem_trace_of_arms hrun hopen hsplit htype
    (by simp [Path.arms_eq_nil hbranch]) (by simp [← hexits, hempty])
  obtain rfl : et = .branchdir :=
    Option.some_inj.mp ((h.getType_of_trace hrun hnote).symm.trans htype)
  exact Control.exists_taken hrun.runs hnote

theorem takes_runCodes_iff (h : Finished executions tid code noexecyields g f n)
    (hrun : RecordedRun tid code g calls) (hopen : MergedOrOpen executions tid calls) {b : Site}
    (hb : b.ep tid ∈ (Traversal.traverse g noexecyields n).visited)
    (htype : g.getType (b.ep tid) = some .branchdir) (d : Nat) :
    (Traversal.traverse g noexecyields n).takes g
        ((Traversal.traverse g noexecyields n).runCodes g tid calls) ⟨b.ep tid, d⟩ = true ↔
      (b, d) ∈ Control.start.taken calls := by
  obtain ⟨br, hbr, halways, -⟩ :=
    Traversal.branchesSeen_traverse g noexecyields h.nodup _ hb htype
  apply Iff.trans (Traversal.takes_iff g hbr)
  constructor
  · rintro ⟨hvalue, hcode⟩
    by_cases hreached : ∃ d', (b, d') ∈ Control.start.taken calls
    · obtain ⟨d', htaken⟩ := hreached
      rw [runCodes_of_taken hrun _ htaken] at hcode
      have hindex : (g.valuevector (b.ep tid)).idxOf d' = (g.valuevector (b.ep tid)).idxOf d := by
        simp only [Traversal.directionCode, hbr, Option.any_some] at hcode
        split_ifs at hcode
        · exact hcode
        · omega
      rwa [← (List.idxOf_inj (hrun.taken _ htaken)).mp hindex]
    · have hnone : ∀ d', (b, d') ∉ Control.start.taken calls := fun d' hd => hreached ⟨d', hd⟩
      rw [runCodes_of_not_taken _ hnone] at hcode
      cases hcase : br.alwaysexecuted with
      | true =>
        exact absurd (h.exists_taken_of_always hrun hopen hb htype (halways ▸ hcase)) hreached
      | false => simp [Traversal.directionCode, hbr, hcase] at hcode
  · exact fun htaken => ⟨hrun.taken _ htaken, runCodes_of_taken hrun _ htaken⟩

theorem exists_branch (h : Finished executions tid code noexecyields g f n)
    (hx : x.ep tid ∈ (Traversal.traverse g noexecyields n).visited)
    (htype : g.getType (x.ep tid) ≠ none) {branch : EPValue}
    (hbranch : g.getBranch (x.ep tid) = some branch) : ∃ (b : Site) (d : Nat),
      branch = ⟨b.ep tid, d⟩ ∧ branchOf tid x.path = some ⟨b.ep tid, d⟩ ∧
        x.path.arms = (b, d) :: b.path.arms ∧
        b.ep tid ∈ (Traversal.traverse g noexecyields n).visited ∧
        g.getType (b.ep tid) = some .branchdir := by
  rw [h.placed x htype] at hbranch
  obtain ⟨b, d, rfl, harms⟩ := Path.arms_eq hbranch
  have hmem : b ∈ x.path.branches := Path.mem_branches_of_arms (a := (b, d)) (by simp [harms])
  exact ⟨b, d, rfl, hbranch, harms, (h.around hx).2.1 b hmem,
    h.thread.getType_branch h.logged htype hmem⟩

/-- The condition of a record holds for the codes of a run exactly if the run comes to it. -/
theorem executed_iff (h : Finished executions tid code noexecyields g f n)
    (hrun : RecordedRun tid code g calls) (hopen : MergedOrOpen executions tid calls)
    (hx : x.ep tid ∈ (Traversal.traverse g noexecyields n).visited)
    (hcond : (g.getType (x.ep tid)).any Traversal.recordsExecCond) :
    (Traversal.traverse g noexecyields n).getExecutionConstraint g
        ((Traversal.traverse g noexecyields n).runCodes g tid calls) (x.ep tid) = true ↔
      ∃ et, (x, et) ∈ Control.start.trace calls := by
  obtain ⟨pre, post, hsplit, hexits⟩ := Traversal.exists_pendingExits g noexecyields hx hcond
  obtain ⟨et, htype⟩ : ∃ et, g.getType (x.ep tid) = some et := by
    cases htype : g.getType (x.ep tid) with
    | none => simp [htype] at hcond
    | some et => exact ⟨et, rfl⟩
  have hexit : ∀ e ∈ g.execCond (g.pendingExits pre) (x.ep tid), ∃ y : Site, e = y.ep tid ∧
      e ∈ (Traversal.traverse g noexecyields n).visited ∧ g.getType e = some .nonlocaltrans := by
    intro e he
    have hpending := ((EventGraph.mem_execCond g (v := ⟨x.ep tid, g.pendingExits pre⟩)).mp he).1
    obtain ⟨htypeExit, p₁, p₂, rfl, -⟩ := EventGraph.mem_pendingExits.mp hpending
    have hvisited : e ∈ (Traversal.traverse g noexecyields n).visited := by simp [hsplit]
    obtain ⟨y, rfl, -⟩ := h.shaped.around (h.mem_visited_iff.mp hvisited)
    exact ⟨y, rfl, hvisited, htypeExit⟩
  simp only [Traversal.getExecutionConstraint, Traversal.executed, hexits, Bool.and_eq_true,
    List.all_eq_true, Option.all_eq_true, Bool.not_eq_true']
  constructor
  · rintro ⟨hexits, harms⟩
    apply h.mem_trace_of_arms hrun hopen hsplit htype
    · cases hbranch : g.getBranch (x.ep tid) with
      | none =>
        rw [h.placed x (by simp [htype])] at hbranch
        simp [Path.arms_eq_nil hbranch]
      | some branch =>
        obtain ⟨b, d, rfl, -, hpath, hb, htypeBranch⟩ :=
          h.exists_branch hx (by simp [htype]) hbranch
        have htaken := (h.takes_runCodes_iff hrun hopen hb htypeBranch d).mp (harms _ hbranch)
        intro a ha
        rw [hpath] at ha
        rcases List.mem_cons.mp ha with rfl | ha
        · exact htaken
        · exact Control.arms_of_taken hrun.runs htaken ha
    · intro y hy b d hbranch htaken
      obtain ⟨-, -, hvisited, htypeExit⟩ := hexit _ hy
      have hbranch' : g.getBranch (y.ep tid) = some ⟨b.ep tid, d⟩ := by
        rw [h.placed y (by simp [htypeExit]), hbranch]
      obtain ⟨b', d', heq, -, -, hb, htypeBranch⟩ :=
        h.exists_branch hvisited (by simp [htypeExit]) hbranch'
      obtain ⟨hep, rfl⟩ := EPValue.mk.inj heq
      obtain ⟨-, rfl⟩ := Site.ep_inj.mp hep
      have htakes := hexits _ hy _ hbranch'
      rw [(h.takes_runCodes_iff hrun hopen hb htypeBranch d).mpr htaken] at htakes
      simp at htakes
  · rintro ⟨et', hnote⟩
    obtain rfl : et' = et := Option.some_inj.mp ((h.getType_of_trace hrun hnote).symm.trans htype)
    have hlabel : et' ≠ .label := by
      rintro rfl
      simp [htype, Traversal.recordsExecCond] at hcond
    constructor
    · intro e he branch hbranch
      obtain ⟨y, rfl, hvisited, htypeExit⟩ := hexit e he
      obtain ⟨b, d, rfl, hof, -, hb, htypeBranch⟩ :=
        h.exists_branch hvisited (by simp [htypeExit]) hbranch
      have hnot := h.not_taken_of_pending hrun hopen hsplit hnote hlabel he hof
      apply Bool.eq_false_iff.mpr
      exact fun htakes => hnot ((h.takes_runCodes_iff hrun hopen hb htypeBranch d).mp htakes)
    · intro branch hbranch
      obtain ⟨b, d, rfl, -, hpath, hb, htypeBranch⟩ := h.exists_branch hx (by simp [htype]) hbranch
      apply (h.takes_runCodes_iff hrun hopen hb htypeBranch d).mpr
      exact arms_taken hrun hnote (by simp [hpath])

end Finished

/-! ## Execution constraints of a program of one thread -/

namespace SingleThread

variable {executions : List (List (Nat × Annotation))} {tid : Nat} {code : Code}
  {noexecyields : Bool} {first : ExecPoint}

private theorem exists_finished (h : SingleThread executions tid code) (len : ExecPoint → Nat)
    (hyield : noexecyields = true →
      ∀ s numinputs, code s = some (.event .yield numinputs) → code s.next = none)
    (hfirst : (Recorder.empty.runs executions).mcidFirst = some first) : ∃ f : Site,
      first = f.ep tid ∧ ∀ n, (Traversal.traverse
        ((Recorder.empty.runs executions).graph len first) noexecyields n).pending = [] →
          Finished executions tid code noexecyields
            ((Recorder.empty.runs executions).graph len first) f n := by
  obtain ⟨hlinked, hlogged⟩ := Recorder.logged_runs h.nested
  obtain ⟨f, hf, hissued⟩ := h.exists_issuesFirst hfirst
  exact ⟨f, hf, fun n hdone => ⟨h, hlogged len first,
    ScheduleBuilder.placed_graph hlinked len first tid, h.shaped len first, hyield, hf, hissued,
    hdone⟩⟩

/-- The traversal ends, and for every run that takes recorded directions the execution constraint
of a record holds exactly if the run comes to the record. -/
theorem getExecutionConstraint_iff (h : SingleThread executions tid code) (len : ExecPoint → Nat)
    (hyield : noexecyields = true →
      ∀ s numinputs, code s = some (.event .yield numinputs) → code s.next = none)
    (hfirst : (Recorder.empty.runs executions).mcidFirst = some first) {g : EventGraph}
    (hg : g = (Recorder.empty.runs executions).graph len first) :
    (∃ n, (Traversal.traverse g noexecyields n).pending = []) ∧
    ∀ n, (Traversal.traverse g noexecyields n).pending = [] →
      ∀ calls, SingleThread [calls] tid code →
        (∀ a ∈ Control.start.taken (threadCalls tid calls), a.2 ∈ g.valuevector (a.1.ep tid)) →
        MergedOrOpen executions tid (threadCalls tid calls) →
        ∀ record ∈ (Traversal.traverse g noexecyields n).visited,
          (g.getType record).any Traversal.recordsExecCond →
          ((Traversal.traverse g noexecyields n).getExecutionConstraint g
            ((Traversal.traverse g noexecyields n).runCodes g tid (threadCalls tid calls))
              record = true ↔ Executes executions calls record) := by
  subst hg
  obtain ⟨f, hf, hfinished⟩ := h.exists_finished len hyield hfirst
  obtain ⟨-, hlogged⟩ := Recorder.logged_runs h.nested
  refine ⟨(h.shaped len first).exists_traverse_nil noexecyields (hlogged len first) hf, ?_⟩
  intro n hdone calls hcalls htaken hopen record hrecord hcond
  have hall := hfinished n hdone
  have hmem : calls ∈ [calls] := List.mem_singleton_self calls
  have hrun : RecordedRun tid code ((Recorder.empty.runs executions).graph len first)
      (threadCalls tid calls) :=
    ⟨hcalls.runs calls hmem (hcalls.starts calls hmem), hcalls.rooted calls hmem, htaken⟩
  obtain ⟨x, rfl, -⟩ := hall.shaped.around (hall.mem_visited_iff.mp hrecord)
  rw [hall.executed_iff hrun hopen hrecord hcond,
    executes_iff h.recorded_all (hcalls.nested calls hmem)]
  constructor
  · rintro ⟨et, hnote⟩
    exact ⟨x, et, rfl, hnote⟩
  · rintro ⟨y, et, heq, hnote⟩
    obtain ⟨-, rfl⟩ := Site.ep_inj.mp heq
    exact ⟨et, hnote⟩

end SingleThread

private theorem singleThread_breakCode {executions : List (List (Nat × Annotation))}
    (hsub : ∀ calls ∈ executions, calls ∈ [storeRun, breakRun]) :
    SingleThread executions 0 (breakCode 0) where
  nested calls hcalls := (runOf_breakCode calls (hsub calls hcalls)).nested
  runs calls hcalls := (runOf_breakCode calls (hsub calls hcalls)).runs 0
  only calls hcalls := by
    have hboth : ∀ calls ∈ [storeRun, breakRun], ∀ call ∈ calls, call.1 = 0 := by decide
    exact hboth calls (hsub calls hcalls)
  rooted calls hcalls call hcall p := by
    rintro rfl
    have hcalls := hsub calls hcalls
    simp only [List.mem_cons, List.not_mem_nil, or_false] at hcalls
    rcases hcalls with rfl | rfl <;> simp [storeRun, breakRun, threadCalls] at hcall
  starts calls hcalls := by
    have hboth : ∀ calls ∈ [storeRun, breakRun], threadCalls 0 calls ≠ [] := by decide
    exact hboth calls (hsub calls hcalls)

def breakGraph : EventGraph :=
  (Recorder.empty.runs [storeRun, breakRun]).graph (fun _ => 2) (Site.ep 0 ⟨[], 1⟩)

/-- The run that takes the exit does not come to the store in the loop. -/
theorem getExecutionConstraint_breakRun :
    (Traversal.traverse breakGraph false 40).getExecutionConstraint breakGraph
      ((Traversal.traverse breakGraph false 40).runCodes breakGraph 0 (threadCalls 0 breakRun))
        (Site.ep 0 ⟨[.loop 2 0], 3⟩) = false ∧
      ¬ Executes [storeRun, breakRun] breakRun (Site.ep 0 ⟨[.loop 2 0], 3⟩) := by
  have hthread : SingleThread [storeRun, breakRun] 0 (breakCode 0) :=
    singleThread_breakCode fun _ h => h
  have hfirst : (Recorder.empty.runs [storeRun, breakRun]).mcidFirst =
      some (Site.ep 0 ⟨[], 1⟩) := by
    decide +kernel
  have hyield : false = true →
      ∀ s numinputs, breakCode 0 s = some (.event .yield numinputs) → breakCode 0 s.next = none :=
    fun h => absurd h (by decide)
  have hboth := (hthread.getExecutionConstraint_iff (fun _ => 2) hyield hfirst rfl).2 40
    (by decide +kernel) breakRun
      (singleThread_breakCode (by simp)) (by decide +kernel)
      ⟨by
        rw [show Control.start.leftOpen false (threadCalls 0 breakRun) = [] by decide]
        simp, by decide⟩
      (Site.ep 0 ⟨[.loop 2 0], 3⟩) (by decide +kernel) (by decide +kernel)
  have hfalse : (Traversal.traverse breakGraph false 40).getExecutionConstraint breakGraph
      ((Traversal.traverse breakGraph false 40).runCodes breakGraph 0 (threadCalls 0 breakRun))
        (Site.ep 0 ⟨[.loop 2 0], 3⟩) = false := by decide +kernel
  refine ⟨hfalse, fun hexecutes => ?_⟩
  have htrue := hboth.mpr hexecutes
  rw [show (Recorder.empty.runs [storeRun, breakRun]).graph (fun _ => 2) (Site.ep 0 ⟨[], 1⟩) =
    breakGraph from rfl, hfalse] at htrue
  simp at htrue

private theorem singleThread_returnCode {executions : List (List (Nat × Annotation))}
    (hsub : ∀ calls ∈ executions, calls ∈ [ScheduleBuilder.mergeRun, ScheduleBuilder.returnRun]) :
    SingleThread executions 0 ScheduleBuilder.returnCode where
  nested calls hcalls := ScheduleBuilder.recorded_returnCode.nested calls (hsub calls hcalls)
  runs calls hcalls := ScheduleBuilder.recorded_returnCode.runs calls (hsub calls hcalls)
  only calls hcalls := by
    have hboth : ∀ calls ∈ [ScheduleBuilder.mergeRun, ScheduleBuilder.returnRun],
        ∀ call ∈ calls, call.1 = 0 := by decide
    exact hboth calls (hsub calls hcalls)
  rooted calls hcalls call hcall p := by
    rintro rfl
    have hcalls := hsub calls hcalls
    simp only [List.mem_cons, List.not_mem_nil, or_false] at hcalls
    rcases hcalls with rfl | rfl <;>
      simp [ScheduleBuilder.mergeRun, ScheduleBuilder.returnRun, threadCalls] at hcall
  starts calls hcalls := by
    have hboth : ∀ calls ∈ [ScheduleBuilder.mergeRun, ScheduleBuilder.returnRun],
        threadCalls 0 calls ≠ [] := by decide
    exact hboth calls (hsub calls hcalls)

/-- The store behind the merge has no branch and no exit in its constraint, and the run that
returns instead of merging does not come to it. -/
theorem getExecutionConstraint_returnRun :
    ¬ ∀ (executions : List (List (Nat × Annotation))) (tid : Nat) (code : Code)
      (len : ExecPoint → Nat) (first : ExecPoint) (g : EventGraph) (n : Nat)
      (calls : List (Nat × Annotation)) (record : ExecPoint),
      SingleThread executions tid code →
      (Recorder.empty.runs executions).mcidFirst = some first →
      g = (Recorder.empty.runs executions).graph len first →
      (Traversal.traverse g false n).pending = [] →
      SingleThread [calls] tid code →
      (∀ a ∈ Control.start.taken (threadCalls tid calls), a.2 ∈ g.valuevector (a.1.ep tid)) →
      (Control.start.after (threadCalls tid calls)).site.path.loops = [] →
      record ∈ (Traversal.traverse g false n).visited →
      (g.getType record).any Traversal.recordsExecCond →
      ((Traversal.traverse g false n).getExecutionConstraint g
        ((Traversal.traverse g false n).runCodes g tid (threadCalls tid calls)) record = true ↔
          Executes executions calls record) := by
  intro hclaim
  have hiff := hclaim [ScheduleBuilder.mergeRun, ScheduleBuilder.returnRun] 0
    ScheduleBuilder.returnCode (fun _ => 2) (Site.ep 0 ⟨[], 1⟩) _ 20 ScheduleBuilder.returnRun
    (Site.ep 0 ⟨[], 3⟩) (singleThread_returnCode fun _ h => h) (by decide +kernel) rfl
    (by decide +kernel) (singleThread_returnCode (by simp)) (by decide +kernel)
    (by decide +kernel) (by decide +kernel) (by decide +kernel)
  have hexecutes : Site.ep 0 ⟨[], 3⟩ ∈ (((Recorder.empty.runs
      [ScheduleBuilder.mergeRun, ScheduleBuilder.returnRun]).run
        ScheduleBuilder.returnRun).requestsOf 0) :=
    hiff.mp (by decide +kernel)
  exact absurd hexecutes (by decide +kernel)

end SatCheck
