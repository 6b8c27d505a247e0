import SatCheck.RunWalk
/-!
# Coverage of the latest run

The traversal and `buildSchedule` both begin at the record of the first MCID.  What they come to
depends on the loops around that record and on the threads that are started behind it.
-/

namespace SatCheck

/-! ## What the first event decides -/

def EventType.isMemory : EventType → Bool
  | .load | .store | .rmw => true
  | _ => false

theorem EventType.cases_of_isMemory {et : EventType} (h : et.isMemory = true) :
    et = .load ∨ et = .store ∨ et = .rmw := by
  cases et <;> simp [isMemory] at h ⊢

namespace EventGraph

variable (g : EventGraph)

def InsideLoops (record : ExecPoint) : Prop :=
  ∃ f s : Site, g.first = f.ep record.tid ∧ record = s.ep record.tid ∧
    ∀ l ∈ f.path.loops, l ∈ s.path.loops

/-- A thread has been started by a record that counts, one of the thread of the first event or of a
thread that has been started itself. -/
inductive Started (counts : ExecPoint → Prop) : Nat → Prop
  | first {parent : ExecPoint} {t : Nat}
      (hchild : g.getChildRecord parent = some (ExecPoint.start t)) (hcounts : counts parent)
      (hparent : parent.tid = g.first.tid) : Started counts t
  | other {parent : ExecPoint} {t : Nat}
      (hchild : g.getChildRecord parent = some (ExecPoint.start t)) (hcounts : counts parent)
      (hparent : Started counts parent.tid) : Started counts t

/-- The traversal visits what has got an MCID in the run. -/
def TraversesRun (latest : Recorder) : Prop :=
  ∀ r ∈ latest.requests, Recorder.issuesMcid r.event = true →
    ∃ n, r.ep ∈ (Traversal.traverse g false n).visited

/-- The selection loop of `buildSchedule` is offered the memory actions of the run. -/
def SchedulesRun (index : ExecPoint → Option Nat) (order : ExecPoint → ExecPoint → Bool)
    (latest : Recorder) : Prop :=
  ∀ r ∈ latest.requests, r.event.isMemory = true → ScheduleBuilder.Offers g false index order r.ep

/-- The traversal comes to a THREADCREATE of the thread of the first event from that event on, as
long as the loops around the event are not left. -/
def CountsTraversed (parent : ExecPoint) : Prop :=
  parent.tid = g.first.tid → g.first.compare parent = .after ∧ g.InsideLoops parent

/-- A schedule comes to the THREADCREATE of the run from the first event on. -/
structure CountsScheduled (latest : Recorder) (parent : ExecPoint) : Prop where
  created : ∃ created ∈ latest.requests, created.ep = parent
  behind : parent.tid = g.first.tid → g.first.compare parent = .after

/-- The thread of the first event gets no MCID behind a loop around that event, and the other
threads of the run that get one have been started from there on, in some run. -/
structure BeginsTraversal (latest : Recorder) : Prop where
  loops : ∀ r ∈ latest.requests, Recorder.issuesMcid r.event = true → r.ep.tid = g.first.tid →
    g.InsideLoops r.ep
  threads : ∀ r ∈ latest.requests, Recorder.issuesMcid r.event = true → r.ep.tid ≠ g.first.tid →
    g.Started g.CountsTraversed r.ep.tid

/-- The other threads of the run that have memory actions have been started from the first event
on, in this run. -/
def BeginsSchedule (latest : Recorder) : Prop :=
  ∀ r ∈ latest.requests, r.event.isMemory = true → r.ep.tid ≠ g.first.tid →
    g.Started (g.CountsScheduled latest) r.ep.tid

end EventGraph

theorem EventGraph.Shaped.LeadsInto.loops {s s' : Site} (h : EventGraph.Shaped.LeadsInto s s') :
    ∀ l ∈ s.path.loops, l ∈ s'.path.loops := by
  rcases h with rfl | ⟨d, rfl⟩ | hlater
  · exact fun l hl => List.mem_cons_of_mem _ hl
  · exact fun l hl => hl
  · intro l hl
    rwa [hlater.around.2]

/-- The latest run, its first MCID and the graph that all runs have left. -/
structure FirstMcid (before : List (List (Nat × Annotation))) (calls : List (Nat × Annotation))
    (main : Nat) (code : Nat → Code) (g : EventGraph) (latest : Recorder) : Prop where
  program : ProgramRuns (before ++ [calls]) main code
  runs : latest = Recorder.empty.runs (before ++ [calls])
  graph : ∃ len, g = latest.graph len g.first
  first : latest.mcidFirst = some g.first

namespace FirstMcid

variable {before : List (List (Nat × Annotation))} {calls : List (Nat × Annotation)} {main : Nat}
  {code : Nat → Code} {g : EventGraph} {latest : Recorder}

theorem logged (h : FirstMcid before calls main code g latest) :
    g.Logged (Recorder.runsLog (before ++ [calls])) := by
  obtain ⟨len, hgraph⟩ := h.graph
  obtain ⟨-, hlogged⟩ := Recorder.logged_runs (h.program.recorded 0).nested
  rw [hgraph, h.runs]
  exact hlogged len g.first

theorem placed (h : FirstMcid before calls main code g latest) (tid : Nat) : g.Placed tid := by
  obtain ⟨len, hgraph⟩ := h.graph
  obtain ⟨hlinked, -⟩ := Recorder.logged_runs (h.program.recorded 0).nested
  rw [hgraph, h.runs]
  exact ScheduleBuilder.placed_graph hlinked len g.first tid

theorem requests_eq (h : FirstMcid before calls main code g latest) (tid : Nat) :
    ((latest.requests.map fun r => (r.ep, r.event)).filter fun x => x.1.tid = tid) =
      (Control.start.trace (threadCalls tid calls)).map fun note => (note.1.ep tid, note.2) := by
  have hbefore : ∀ calls ∈ before, Threads.start.WellNested calls :=
    fun calls hcalls => (h.program.recorded 0).nested calls (by simp [hcalls])
  obtain ⟨hlinked, hlogged⟩ := Recorder.logged_runs hbefore
  have hrequests := Recorder.requests_run hlinked hlogged
    ((h.program.recorded 0).nested calls (by simp)) tid
  have hlatest : latest = (Recorder.empty.runs before).run calls := by
    rw [h.runs, Recorder.runs, List.foldl_append]
    rfl
  rwa [← hlatest] at hrequests

theorem mem_requests (h : FirstMcid before calls main code g latest) {r : Request}
    (hr : r ∈ latest.requests) : ∃ s : Site, r.ep = s.ep r.ep.tid ∧
      (s, r.event) ∈ Control.start.trace (threadCalls r.ep.tid calls) := by
  have hmem : (r.ep, r.event) ∈ (latest.requests.map fun r => (r.ep, r.event)).filter
      fun x => x.1.tid = r.ep.tid :=
    List.mem_filter.mpr ⟨List.mem_map.mpr ⟨r, hr, rfl⟩, by simp⟩
  rw [h.requests_eq] at hmem
  obtain ⟨note, hnote, heq⟩ := List.mem_map.mp hmem
  obtain ⟨hep, hevent⟩ := Prod.mk.inj heq
  exact ⟨note.1, hep.symm, hevent ▸ hnote⟩

theorem exists_request (h : FirstMcid before calls main code g latest) {tid : Nat}
    {note : Site × EventType} (hnote : note ∈ Control.start.trace (threadCalls tid calls)) :
    ∃ r ∈ latest.requests, r.ep = note.1.ep tid := by
  have hmem : (note.1.ep tid, note.2) ∈
      (Control.start.trace (threadCalls tid calls)).map fun note => (note.1.ep tid, note.2) :=
    List.mem_map.mpr ⟨note, hnote, rfl⟩
  rw [← h.requests_eq] at hmem
  obtain ⟨r, hr, heq⟩ := List.mem_map.mp (List.mem_filter.mp hmem).1
  exact ⟨r, hr, (Prod.mk.inj heq).1⟩

theorem exists_firstNote (h : FirstMcid before calls main code g latest) :
    ∃ f et, g.first = Site.ep g.first.tid f ∧ FirstNote (threadCalls g.first.tid calls) f et :=
  (h.program.recorded g.first.tid).exists_firstNote (h.runs ▸ h.first) rfl

theorem runs_of_mem (h : FirstMcid before calls main code g latest) {tid : Nat} {s : Site}
    {et : EventType} (hs : (s, et) ∈ Control.start.trace (threadCalls tid calls)) :
    (code tid).Runs Control.start (threadCalls tid calls) := by
  apply (h.program.recorded tid).runs calls (by simp)
  intro hnil
  simp [hnil, Control.trace] at hs

theorem getType_of_trace (h : FirstMcid before calls main code g latest) {tid : Nat} {s : Site}
    {et : EventType} (hs : (s, et) ∈ Control.start.trace (threadCalls tid calls)) :
    g.getType (s.ep tid) = some et :=
  ((h.program.recorded tid).getType h.logged ⟨calls, by simp, Control.mem_log_of_trace hs⟩).1

/-- A THREADCREATE that is not in front of the first event comes behind it. -/
theorem compare_of_created (h : FirstMcid before calls main code g latest) {f s : Site}
    (hf : g.first = f.ep g.first.tid) (htype : g.getType (s.ep g.first.tid) = some .threadcreate)
    (hfrom : s = f ∨ f.values < s.values) : g.first.compare (s.ep g.first.tid) = .after := by
  obtain ⟨f', et, hf', hnote⟩ := h.exists_firstNote
  obtain rfl : f = f' := (Site.ep_inj.mp (hf.symm.trans hf')).2
  obtain ⟨pre, call, post, hsplit, hissues⟩ := hnote.issues
  have hftrace : (f, et) ∈ Control.start.trace (threadCalls g.first.tid calls) := by
    obtain ⟨front, back, htrace, -⟩ := hnote.trace
    simp [htrace]
  have hruns := h.runs_of_mem hftrace
  have hftype := h.getType_of_trace hftrace
  rw [hsplit] at hruns
  have hkind := hissues.kind
  have harms : ∀ b d, (b, d) ∉ f.path.arms := by
    intro b d hb
    have hbranch := Path.mem_branches_of_arms hb
    simp [hissues.branches_eq_nil hruns] at hbranch
  have hvalues : f.values < s.values := by
    refine hfrom.resolve_left ?_
    rintro rfl
    rw [htype, Option.some_inj] at hftype
    simp [← hftype, Recorder.issuesMcid] at hkind
  rw [hf, Site.ep_tid]
  have htyped := (h.program.recorded g.first.tid).typed h.logged (s := f) (by simp [hftype])
  have htyped' := (h.program.recorded g.first.tid).typed h.logged (s := s) (by simp [htype])
  exact Site.compare_after_of_values_lt htyped htyped' (fun b d d' hb => absurd hb (harms b d))
    hvalues

/-! ## The traversal -/

section Traversal

variable {V : Set ExecPoint}

theorem mem_of_inside (h : FirstMcid before calls main code g latest) (hV : g.first ∈ V)
    (hclosed : ∀ r ∈ V, ∀ y ∈ g.succs false r, y ∈ V) {record : ExecPoint}
    (hrecord : g.getType record ≠ none) (htid : record.tid = g.first.tid)
    (hinside : g.InsideLoops record)
    (hfrom : ∀ f s : Site, g.first = f.ep g.first.tid → record = s.ep g.first.tid →
      f.values ≤ s.values) : record ∈ V := by
  obtain ⟨f, s, hf, hs, hloops⟩ := hinside
  rw [htid] at hf hs
  rw [hs] at hrecord ⊢
  exact h.program.mem_of_first h.logged (h.runs ▸ h.first) hf hV hclosed hrecord (hfrom f s hf hs)
    fun l hl => (Site.values_lt_loop (hloops l hl)).2

private theorem mem_of_started (h : FirstMcid before calls main code g latest) (hV : g.first ∈ V)
    (hclosed : ∀ r ∈ V, ∀ y ∈ g.succs false r, y ∈ V) {t : Nat}
    (hstarted : g.Started g.CountsTraversed t) : ExecPoint.start t ∈ V := by
  have htype : ∀ {parent : ExecPoint} {t : Nat},
      g.getChildRecord parent = some (ExecPoint.start t) → g.getType parent ≠ none :=
    fun hchild => by simp [(h.program.child_start h.logged hchild).2]
  induction hstarted with
  | first hchild hcounts hparent =>
    obtain ⟨hafter, hinside⟩ := hcounts hparent
    refine hclosed _ (h.mem_of_inside hV hclosed (htype hchild) hparent hinside ?_) _
      (EventGraph.mem_succs_child hchild)
    intro f s hf hs
    rw [hf, hs] at hafter
    exact (Site.values_lt_of_after hafter).le
  | other hchild _ _ ih =>
    exact hclosed _ (h.program.mem_of_start h.logged hclosed (htype hchild) ih) _
      (EventGraph.mem_succs_child hchild)

end Traversal

theorem traversesRun (h : FirstMcid before calls main code g latest)
    (hbegins : g.BeginsTraversal latest) : g.TraversesRun latest := by
  have hacc : Acc (fun b a => b ∈ g.succs false a) g.first :=
    EventGraph.acc_succs h.logged (P := fun _ => True)
      (fun a _ x hx => ⟨trivial, h.program.rank_lt_of_succs h.logged hx⟩) trivial
  obtain ⟨n, hdone⟩ := EventGraph.exists_traverse_nil hacc
  have hV : g.first ∈ {x | x ∈ (Traversal.traverse g false n).visited} :=
    Traversal.first_mem_visited hdone
  have hclosed : ∀ r ∈ {x | x ∈ (Traversal.traverse g false n).visited}, ∀ y ∈ g.succs false r,
      y ∈ {x | x ∈ (Traversal.traverse g false n).visited} := Traversal.visited_closed hdone
  intro r hr hkind
  refine ⟨n, ?_⟩
  obtain ⟨s, hs, htrace⟩ := h.mem_requests hr
  have htype : g.getType r.ep ≠ none := by
    rw [hs]
    simp [h.getType_of_trace htrace]
  by_cases htid : r.ep.tid = g.first.tid
  · apply h.mem_of_inside hV hclosed htype htid (hbegins.loops r hr hkind htid)
    intro f' s' hf' hs'
    obtain ⟨f, et, hf, hnote⟩ := h.exists_firstNote
    rw [htid] at hs htrace
    obtain rfl : f' = f := (Site.ep_inj.mp (hf'.symm.trans hf)).2
    obtain rfl : s' = s := (Site.ep_inj.mp (hs'.symm.trans hs)).2
    exact hnote.values_le (h.runs_of_mem htrace) htrace hkind
  · exact h.program.mem_of_start h.logged hclosed htype
      (h.mem_of_started hV hclosed (hbegins.threads r hr hkind htid))

/-- A record from the first event on and inside the loops around it, or of a thread that has been
started. -/
inductive Traversed (g : EventGraph) (f : Site) : ExecPoint → Prop
  | own {s : Site} (hfrom : s = f ∨ f.values < s.values)
      (hloops : ∀ l ∈ f.path.loops, l ∈ s.path.loops) : Traversed g f (s.ep g.first.tid)
  | other {x : ExecPoint} (hyoung : g.first.tid < x.tid)
      (hstarted : g.Started g.CountsTraversed x.tid) : Traversed g f x

theorem Traversed.step (h : FirstMcid before calls main code g latest) {f : Site}
    (hf : g.first = f.ep g.first.tid) {p x : ExecPoint} (hp : Traversed g f p)
    (hx : x ∈ g.succs false p) : Traversed g f x := by
  rcases h.program.succs_cases h.logged hx with ⟨s, s', hs, rfl, hleads⟩ | ⟨t, hlt, rfl, hchild⟩
  · cases hp with
    | own hfrom hloops =>
      rw [Site.ep_tid] at hs ⊢
      obtain rfl := (Site.ep_inj.mp hs).2
      have hvalues := EventGraph.Shaped.values_lt_of_leadsInto hleads
      refine .own (.inr ?_) fun l hl => hleads.loops l (hloops l hl)
      rcases hfrom with rfl | hfrom
      · exact hvalues
      · exact hfrom.trans hvalues
    | other hyoung hstarted => exact .other hyoung hstarted
  · have htype := (h.program.child_start h.logged hchild).2
    cases hp with
    | @own s hfrom hloops =>
      have hafter := h.compare_of_created hf htype hfrom
      exact .other hlt (.first hchild (fun _ => ⟨hafter, f, s, hf, rfl, hloops⟩) rfl)
    | other hyoung hstarted =>
      refine .other (hyoung.trans hlt) (.other hchild (fun htid => ?_) hstarted)
      exact absurd htid hyoung.ne'

private theorem traversed_of_reached (h : FirstMcid before calls main code g latest) {f : Site}
    (hf : g.first = f.ep g.first.tid) {x : ExecPoint}
    (hx : Relation.ReflTransGen (fun a b => b ∈ g.succs false a) g.first x) :
    Traversed g f x := by
  induction hx with
  | refl =>
    rw [hf]
    exact .own (.inl rfl) fun l hl => hl
  | tail _ hsucc ih => exact ih.step h hf hsucc

theorem beginsTraversal (h : FirstMcid before calls main code g latest)
    (htraverses : g.TraversesRun latest) : g.BeginsTraversal latest := by
  obtain ⟨f, et, hf, -⟩ := h.exists_firstNote
  have htraversed : ∀ r ∈ latest.requests, Recorder.issuesMcid r.event = true →
      Traversed g f r.ep := by
    intro r hr hkind
    obtain ⟨n, hn⟩ := htraverses r hr hkind
    obtain ⟨m, hm⟩ := Traversal.exists_worklist g false n
    apply h.traversed_of_reached hf
    apply Worklist.reachable_run g.first m
    left
    rw [← hm]
    exact hn
  constructor
  · intro r hr hkind htid
    have hcases := htraversed r hr hkind
    generalize r.ep = x at hcases htid ⊢
    cases hcases with
    | own _ hloops => exact ⟨f, _, hf, rfl, hloops⟩
    | other hyoung _ => exact absurd htid hyoung.ne'
  · intro r hr hkind hne
    have hcases := htraversed r hr hkind
    generalize r.ep = x at hcases hne ⊢
    cases hcases with
    | own => exact absurd rfl hne
    | other _ hstarted => exact hstarted

/-! ## The schedule -/

section Schedule

variable {index : ExecPoint → Option Nat} {order : ExecPoint → ExecPoint → Bool}

/-- The solution takes the directions of the run, and no run merges a branch that a merge of this
run leaves open. -/
structure Solves (g : EventGraph) (executions : List (List (Nat × Annotation)))
    (calls : List (Nat × Annotation)) (index : ExecPoint → Option Nat) : Prop where
  gives : ∀ tid, ∀ taken ∈ Control.start.taken (threadCalls tid calls),
    ScheduleBuilder.Gives g index tid taken.1 taken.2
  merged : ∀ tid, ∀ b ∈ Control.start.leftAtMerges (threadCalls tid calls), ∀ calls' ∈ executions,
    b ∉ Control.start.merged (threadCalls tid calls')

/-- The path of the solution is that of the run also at the ends of the threads, and the run goes
into every thread that it creates. -/
structure Completes (g : EventGraph) (executions : List (List (Nat × Annotation)))
    (calls : List (Nat × Annotation)) (latest : Recorder) : Prop where
  merged : ∀ tid, ∀ b ∈ Control.start.leftOpen false (threadCalls tid calls), ∀ calls' ∈ executions,
    b ∉ Control.start.merged (threadCalls tid calls')
  started : ∀ created ∈ latest.requests, ∀ t,
    g.getChildRecord created.ep = some (ExecPoint.start t) → threadCalls t calls ≠ []

theorem passed_start (g : EventGraph) (index : ExecPoint → Option Nat) (tid : Nat) :
    ScheduleBuilder.Passed (before ++ [calls]) g false index tid Control.start where
  branches := by simp [Control.start, Site.start, Path.branches]
  prev := by simp [Control.start]
  begin _ := .inl rfl

theorem next_none (h : FirstMcid before calls main code g latest)
    (hsolves : Solves g (before ++ [calls]) calls index) {tid : Nat}
    (hruns : (code tid).Runs Control.start (threadCalls tid calls)) :
    ∀ b ∈ Control.start.leftAtMerges (threadCalls tid calls),
      g.getNextRecord (b.ep tid) = none := by
  intro b hb
  have htype := Control.type_of_leftOpen Code.reaches_start hruns
    (Control.leftAtMerges_subset _ _ hb)
  exact ((h.program.recorded tid).next_eq_none_iff h.logged htype).mpr (hsolves.merged tid b hb)

/-- A schedule comes to the records of a thread from the begin of the thread. -/
theorem follows_of_start (h : FirstMcid before calls main code g latest)
    (hsolves : Solves g (before ++ [calls]) calls index) {tid : Nat}
    (hstart : Relation.ReflTransGen (ScheduleBuilder.Follows g false index) g.first
      (ExecPoint.start tid)) {note : Site × EventType}
    (hnote : note ∈ Control.start.trace (threadCalls tid calls)) :
    Relation.ReflTransGen (ScheduleBuilder.Follows g false index) g.first (note.1.ep tid) := by
  have hruns := h.runs_of_mem hnote
  apply ScheduleBuilder.mem_of_run
    (V := {x | Relation.ReflTransGen (ScheduleBuilder.Follows g false index) g.first x})
    (h.program.recorded tid) h.logged (h.placed tid) (fun r hr x hx => hr.tail (.inl hx))
    Code.reaches_start (passed_start g index tid) hruns (fun e he => ⟨calls, by simp, he⟩)
    (hsolves.gives tid) (h.next_none hsolves hruns) _ note hnote
  rintro x hx
  obtain rfl := Option.some_inj.mp hx
  exact hstart

/-- In the thread of the first event, a schedule comes to the records from that event on. -/
theorem follows_of_first (h : FirstMcid before calls main code g latest)
    (hsolves : Solves g (before ++ [calls]) calls index) {f s : Site} {et et' : EventType}
    (hf : g.first = f.ep g.first.tid) (hnote : FirstNote (threadCalls g.first.tid calls) f et)
    (hs : (s, et') ∈ Control.start.trace (threadCalls g.first.tid calls))
    (hfrom : f.values ≤ s.values) :
    Relation.ReflTransGen (ScheduleBuilder.Follows g false index) g.first (s.ep g.first.tid) := by
  obtain ⟨pre, call, post, hsplit, hissues⟩ := hnote.issues
  have hruns := h.runs_of_mem hs
  have hopen := h.next_none hsolves hruns
  have hgives := hsolves.gives g.first.tid
  have hlog : ∀ e ∈ Control.start.log g.first.tid (threadCalls g.first.tid calls),
      e ∈ threadLog (before ++ [calls]) g.first.tid := fun e he => ⟨calls, by simp, he⟩
  rw [hsplit] at hs hruns hopen hgives hlog
  apply ScheduleBuilder.mem_of_run_from
    (V := {x | Relation.ReflTransGen (ScheduleBuilder.Follows g false index) g.first x})
    (h.program.recorded g.first.tid) h.logged (h.placed g.first.tid)
    (fun r hr x hx => hr.tail (.inl hx)) Code.reaches_start (passed_start g index g.first.tid) hruns
    hlog hgives hopen _ _ (s, et') (hissues.mem_trace_after hruns hs hfrom)
  · show Relation.ReflTransGen _ g.first ((Control.start.after pre).site.ep g.first.tid)
    rw [hissues.site, ← hf]
  · intro e he
    apply hlog e
    apply Control.log_append_subset
    exact List.mem_append_left _ (hissues.arrive_subset _ he)

/-- A schedule comes to the begin of a thread that the run has started from the first event on. -/
theorem follows_of_started (h : FirstMcid before calls main code g latest)
    (hsolves : Solves g (before ++ [calls]) calls index) {t : Nat}
    (hstarted : g.Started (g.CountsScheduled latest) t) :
    Relation.ReflTransGen (ScheduleBuilder.Follows g false index) g.first (ExecPoint.start t) := by
  obtain ⟨f, et, hf, hnote⟩ := h.exists_firstNote
  induction hstarted with
  | @first parent t hchild hcounts hparent =>
    have htype := (h.program.child_start h.logged hchild).2
    obtain ⟨⟨created, hcreated, rfl⟩, hafter⟩ := hcounts
    obtain ⟨s, hs, htrace⟩ := h.mem_requests hcreated
    have hlt : f.values < s.values := by
      have hafter := hafter hparent
      rw [hf, hs] at hafter
      exact Site.values_lt_of_after hafter
    have hcreator : Relation.ReflTransGen (ScheduleBuilder.Follows g false index) g.first
        created.ep := by
      rw [hs]
      rw [hparent] at htrace ⊢
      exact h.follows_of_first hsolves hf hnote htrace hlt.le
    exact hcreator.tail (.inr ⟨htype, hchild⟩)
  | @other parent t hchild hcounts _ ih =>
    have htype := (h.program.child_start h.logged hchild).2
    obtain ⟨⟨created, hcreated, rfl⟩, -⟩ := hcounts
    obtain ⟨s, hs, htrace⟩ := h.mem_requests hcreated
    have hcreator := h.follows_of_start hsolves ih htrace
    rw [← hs] at hcreator
    exact hcreator.tail (.inr ⟨htype, hchild⟩)

theorem schedulesRun (h : FirstMcid before calls main code g latest)
    (hsolves : Solves g (before ++ [calls]) calls index) (hbegins : g.BeginsSchedule latest) :
    g.SchedulesRun index order latest := by
  obtain ⟨f, et, hf, hnote⟩ := h.exists_firstNote
  obtain ⟨w, hw⟩ : ∃ w, ScheduleBuilder.Weighs g false index w :=
    h.program.exists_weighs h.logged h.placed
  intro r hr hmemory
  obtain ⟨s, hs, htrace⟩ := h.mem_requests hr
  have htype := h.getType_of_trace htrace
  rw [← hs] at htype
  have hstays : ScheduleBuilder.processRecord g false index r.ep = some r.ep := by
    rcases EventType.cases_of_isMemory hmemory with hevent | hevent | hevent <;>
      simp [ScheduleBuilder.processRecord, htype, hevent]
  apply ScheduleBuilder.offers_of_follows hw _ hstays
  by_cases htid : r.ep.tid = g.first.tid
  · have hkind : Recorder.issuesMcid r.event = true := by
      rcases EventType.cases_of_isMemory hmemory with hevent | hevent | hevent <;>
        simp [hevent, Recorder.issuesMcid]
    rw [hs]
    rw [htid] at htrace ⊢
    exact h.follows_of_first hsolves hf hnote htrace
      (hnote.values_le (h.runs_of_mem htrace) htrace hkind)
  · have hfollows := h.follows_of_start hsolves
      (h.follows_of_started hsolves (hbegins r hr hmemory htid)) htrace
    rwa [← hs] at hfollows

theorem exists_trace_of_step (h : FirstMcid before calls main code g latest)
    (hsolves : Solves g (before ++ [calls]) calls index)
    (hcompletes : Completes g (before ++ [calls]) calls latest) {tid : Nat}
    {note : Site × EventType} (hnote : note ∈ Control.start.trace (threadCalls tid calls))
    {x : ExecPoint} (hstep : ScheduleBuilder.step g false index (note.1.ep tid) = some x) :
    ∃ note ∈ Control.start.trace (threadCalls tid calls), note.1.ep tid = x := by
  have hruns := h.runs_of_mem hnote
  have hne : threadCalls tid calls ≠ [] := by
    intro hnil
    simp [hnil, Control.trace] at hnote
  have hopen : ∀ b ∈ Control.start.leftOpen false (threadCalls tid calls),
      g.getNextRecord (b.ep tid) = none := by
    intro b hb
    have htype := Control.type_of_leftOpen Code.reaches_start hruns hb
    exact ((h.program.recorded tid).next_eq_none_iff h.logged htype).mpr
      (hcompletes.merged tid b hb)
  exact ScheduleBuilder.mem_trace_of_step (h.program.recorded tid) h.logged (h.placed tid) hne
    (passed_start g index tid) hruns (fun e he => ⟨calls, by simp, he⟩) (hsolves.gives tid) hopen
    hnote hstep

theorem mem_trace_start (h : FirstMcid before calls main code g latest) {t : Nat}
    (hne : threadCalls t calls ≠ []) :
    (Site.start, .threadbegin) ∈ Control.start.trace (threadCalls t calls) := by
  obtain ⟨parent, rest, hbegin, -⟩ := (h.program.starts calls (by simp)).begins t hne
  rw [hbegin]
  exact List.mem_append_left _ List.mem_cons_self

/-- A record of the run from the first event on, or of a thread that the run has started. -/
inductive Scheduled (g : EventGraph) (calls : List (Nat × Annotation)) (latest : Recorder)
    (f : Site) : ExecPoint → Prop
  | own {note : Site × EventType}
      (hnote : note ∈ Control.start.trace (threadCalls g.first.tid calls))
      (hfrom : note.1 = f ∨ f.values < note.1.values) :
      Scheduled g calls latest f (note.1.ep g.first.tid)
  | other {note : Site × EventType} {t : Nat}
      (hnote : note ∈ Control.start.trace (threadCalls t calls)) (hyoung : g.first.tid < t)
      (hstarted : g.Started (g.CountsScheduled latest) t) :
      Scheduled g calls latest f (note.1.ep t)

theorem Scheduled.step (h : FirstMcid before calls main code g latest)
    (hsolves : Solves g (before ++ [calls]) calls index)
    (hcompletes : Completes g (before ++ [calls]) calls latest) {f : Site} {p x : ExecPoint}
    (hp : Scheduled g calls latest f p)
    (hstep : ScheduleBuilder.step g false index p = some x) : Scheduled g calls latest f x := by
  have hlt := (h.program.rank_lt_of_follows h.logged h.placed (.inl hstep)).1
  cases hp with
  | own hnote hfrom =>
    obtain ⟨note', hnote', rfl⟩ := h.exists_trace_of_step hsolves hcompletes hnote hstep
    rw [Site.rank_ep, Site.rank_ep, Prod.Lex.toLex_lt_toLex] at hlt
    simp only [lt_self_iff_false, true_and, false_or] at hlt
    refine .own hnote' (.inr ?_)
    rcases hfrom with hfrom | hfrom
    · exact hfrom ▸ hlt
    · exact hfrom.trans hlt
  | other hnote hyoung hstarted =>
    obtain ⟨note', hnote', rfl⟩ := h.exists_trace_of_step hsolves hcompletes hnote hstep
    exact .other hnote' hyoung hstarted

theorem Scheduled.created (h : FirstMcid before calls main code g latest)
    (hcompletes : Completes g (before ++ [calls]) calls latest) {f : Site}
    (hf : g.first = f.ep g.first.tid) {p x : ExecPoint} (hp : Scheduled g calls latest f p)
    (htype : g.getType p = some .threadcreate) (hchild : g.getChildRecord p = some x) :
    Scheduled g calls latest f x := by
  obtain ⟨t, hlt, rfl⟩ := h.program.child_of_threadcreate h.logged htype hchild
  have hnote : ∀ created ∈ latest.requests, created.ep = p →
      (Site.start, .threadbegin) ∈ Control.start.trace (threadCalls t calls) := by
    rintro created hcreated rfl
    exact h.mem_trace_start (hcompletes.started created hcreated t hchild)
  rw [← Site.ep_start]
  cases hp with
  | own hmem hfrom =>
    obtain ⟨created, hcreated, hep⟩ := h.exists_request hmem
    have hafter := h.compare_of_created hf htype hfrom
    exact .other (hnote created hcreated hep) hlt
      (.first hchild ⟨⟨created, hcreated, hep⟩, fun _ => hafter⟩ rfl)
  | other hmem hyoung hstarted =>
    obtain ⟨created, hcreated, hep⟩ := h.exists_request hmem
    refine .other (hnote created hcreated hep) (hyoung.trans hlt)
      (.other hchild ⟨⟨created, hcreated, hep⟩, fun htid => ?_⟩ hstarted)
    exact absurd htid hyoung.ne'

private theorem scheduled_of_follows (h : FirstMcid before calls main code g latest)
    (hsolves : Solves g (before ++ [calls]) calls index)
    (hcompletes : Completes g (before ++ [calls]) calls latest) {f : Site} {et : EventType}
    (hf : g.first = f.ep g.first.tid) (hnote : FirstNote (threadCalls g.first.tid calls) f et)
    {x : ExecPoint}
    (hx : Relation.ReflTransGen (ScheduleBuilder.Follows g false index) g.first x) :
    Scheduled g calls latest f x := by
  induction hx with
  | refl =>
    obtain ⟨front, back, htrace, -⟩ := hnote.trace
    have hmem : (f, et) ∈ Control.start.trace (threadCalls g.first.tid calls) := by simp [htrace]
    rw [hf]
    exact .own hmem (.inl rfl)
  | tail _ hfollows ih =>
    rcases hfollows with hstep | ⟨htype, hchild⟩
    · exact ih.step h hsolves hcompletes hstep
    · exact ih.created h hcompletes hf htype hchild

private theorem beginsSchedule (h : FirstMcid before calls main code g latest)
    (hsolves : Solves g (before ++ [calls]) calls index)
    (hcompletes : Completes g (before ++ [calls]) calls latest)
    (hschedules : g.SchedulesRun index order latest) : g.BeginsSchedule latest := by
  obtain ⟨f, et, hf, hnote⟩ := h.exists_firstNote
  intro r hr hmemory hne
  have hscheduled := h.scheduled_of_follows hsolves hcompletes hf hnote
    (ScheduleBuilder.follows_of_offers (hschedules r hr hmemory))
  generalize r.ep = x at hscheduled hne ⊢
  cases hscheduled with
  | own => exact absurd rfl hne
  | other _ _ hstarted => exact hstarted

end Schedule

/-- The traversal covers the run exactly if the first event lies early enough, and then
`buildSchedule` covers it if the run has started its threads from there on. -/
theorem covers_run (h : FirstMcid before calls main code g latest)
    (index : ExecPoint → Option Nat) (order : ExecPoint → ExecPoint → Bool) :
    (g.TraversesRun latest ↔ g.BeginsTraversal latest) ∧
      (g.BeginsTraversal latest → Solves g (before ++ [calls]) calls index →
        (g.BeginsSchedule latest → g.SchedulesRun index order latest) ∧
          (Completes g (before ++ [calls]) calls latest → g.SchedulesRun index order latest →
            g.BeginsSchedule latest)) :=
  ⟨⟨h.beginsTraversal, h.traversesRun⟩, fun _ hsolves =>
    ⟨h.schedulesRun hsolves, fun hcompletes => h.beginsSchedule hsolves hcompletes⟩⟩

end FirstMcid

/-! ## A load in a loop -/

def loopCode : Nat → Code
  | 0 => fun s =>
    if s = ⟨[], 0⟩ then some .threadStart
    else if s = ⟨[], 1⟩ then some .enterLoop
    else if s = ⟨[.loop 1 0], 1⟩ then some (.event .load 1)
    else if s = ⟨[.loop 1 0], 2⟩ then some .exitLoop
    else if s = ⟨[], 3⟩ then some (.event .store 2)
    else none
  | _ => fun _ => none

def loopRun : List (Nat × Annotation) :=
  [(0, .threadStart none), (0, .enterLoop), (0, .event .load 1), (0, .exitLoop),
    (0, .event .store 2)]

def loopGraph : EventGraph :=
  (Recorder.empty.runs [loopRun]).graph (fun _ => 2) (Site.ep 0 ⟨[.loop 1 0], 1⟩)

private theorem programRuns_loopRun : ProgramRuns [loopRun] 0 loopCode where
  recorded tid := by
    constructor
    · intro calls hcalls
      obtain rfl := List.mem_singleton.mp hcalls
      simp [loopRun, Threads.WellNested, Threads.Legal, Threads.move, Threads.start, Control.Legal,
        Control.move, Control.start, Control.behind, Control.IsPlain, Site.start, Site.next,
        Site.body, Path.loops]
    · intro calls hcalls hne
      obtain rfl := List.mem_singleton.mp hcalls
      cases tid with
      | zero =>
        simp [loopRun, threadCalls, loopCode, Code.Runs, Instruction.Allows, Control.Legal,
          Control.move, Control.start, Control.behind, Control.IsPlain, Site.start, Site.next,
          Site.body, Path.loops]
      | succ tid => simp [loopRun, threadCalls] at hne
  starts calls hcalls := by
    obtain rfl := List.mem_singleton.mp hcalls
    constructor
    · intro t hne
      cases t with
      | zero => exact ⟨none, _, rfl, by simp⟩
      | succ t => simp [loopRun, threadCalls] at hne
    · intro t parent hmem
      obtain ⟨rfl, rfl⟩ : t = 0 ∧ parent = none := by simpa [loopRun] using hmem
      simp
    · intro t parent hmem
      simp [loopRun] at hmem

/-- The traversal ends with the loop. -/
theorem not_traversesRun_loopRun :
    FirstMcid [] loopRun 0 loopCode loopGraph (Recorder.empty.runs [loopRun]) ∧
      ¬ loopGraph.TraversesRun (Recorder.empty.runs [loopRun]) := by
  have h : FirstMcid [] loopRun 0 loopCode loopGraph (Recorder.empty.runs [loopRun]) :=
    ⟨programRuns_loopRun, rfl, ⟨fun _ => 2, rfl⟩, by decide +kernel⟩
  refine ⟨h, fun htraverses => ?_⟩
  have hstore : ∃ r ∈ (Recorder.empty.runs [loopRun]).requests,
      Recorder.issuesMcid r.event = true ∧ r.ep = Site.ep 0 ⟨[], 3⟩ := by decide +kernel
  obtain ⟨r, hr, hkind, hep⟩ := hstore
  obtain ⟨f, s, hf, hs, hloops⟩ := (h.beginsTraversal htraverses).loops r hr hkind
    (by rw [hep]; rfl)
  rw [hep] at hf hs
  obtain rfl : ⟨[.loop 1 0], 1⟩ = f := (Site.ep_inj.mp hf).2
  obtain rfl : ⟨[], 3⟩ = s := (Site.ep_inj.mp hs).2
  simp [Path.loops] at hloops

/-- A run whose thread is created behind the first event is covered, also where it has not been
created before. -/
theorem covers_createdOnce :
    createdOnce.TraversesRun (Recorder.empty.runs [passRun, createRun]) ∧
      createdOnce.SchedulesRun (fun _ => some 1) (fun _ _ => false)
        (Recorder.empty.runs [passRun, createRun]) := by
  have h : FirstMcid [passRun] createRun 0 createInOneCode createdOnce
      (Recorder.empty.runs [passRun, createRun]) :=
    ⟨programRuns_createInOne, rfl, ⟨fun _ => 2, rfl⟩, by decide +kernel⟩
  have hchild : createdOnce.getChildRecord (Site.ep 0 ⟨[.arm 1 0], 0⟩) =
      some (ExecPoint.start 1) := by decide +kernel
  have hafter : createdOnce.first.compare (Site.ep 0 ⟨[.arm 1 0], 0⟩) = .after := by decide
  have hcreated : ∃ created ∈ (Recorder.empty.runs [passRun, createRun]).requests,
      created.ep = Site.ep 0 ⟨[.arm 1 0], 0⟩ := by decide +kernel
  have htids : ∀ r ∈ (Recorder.empty.runs [passRun, createRun]).requests,
      r.ep.tid ≠ 0 → r.ep.tid = 1 := by decide +kernel
  have hinside : ∀ s : Site, createdOnce.InsideLoops (s.ep 0) :=
    fun s => ⟨⟨[], 1⟩, s, rfl, rfl, by simp [Path.loops]⟩
  have hbegins : createdOnce.BeginsTraversal (Recorder.empty.runs [passRun, createRun]) := by
    constructor
    · intro r hr _ htid
      obtain ⟨s, hs, -⟩ := h.mem_requests hr
      rw [hs, htid]
      exact hinside s
    · intro r hr _ htid
      rw [htids r hr htid]
      exact .first hchild (fun _ => ⟨hafter, hinside _⟩) rfl
  have hschedule : createdOnce.BeginsSchedule (Recorder.empty.runs [passRun, createRun]) := by
    intro r hr _ htid
    rw [htids r hr htid]
    exact .first hchild ⟨hcreated, fun _ => hafter⟩ rfl
  have hsolves : FirstMcid.Solves createdOnce ([passRun] ++ [createRun]) createRun
      (fun _ => some 1) := by
    constructor
    · intro tid
      rcases tid with _ | _ | tid
      · unfold ScheduleBuilder.Gives
        decide +kernel
      · unfold ScheduleBuilder.Gives
        decide +kernel
      · simp [createRun, threadCalls, Control.taken]
    · intro tid
      rcases tid with _ | _ | tid
      · decide
      · decide
      · simp [createRun, threadCalls, Control.leftAtMerges]
  have hcovers := h.covers_run (fun _ => some 1) fun _ _ => false
  exact ⟨hcovers.1.mpr hbegins, (hcovers.2 hbegins hsolves).1 hschedule⟩

end SatCheck
