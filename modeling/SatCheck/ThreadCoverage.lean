import SatCheck.FirstAnnotated
import SatCheck.TraverseEnds
import SatCheck.TSOFence
/-!
# Coverage of all threads

The traversal goes on from a THREADCREATE record to the thread that it has as its child.  It comes
to every thread once exactly if every thread is the child of one record.
-/

namespace SatCheck

/-- Every thread begins with its start, the main thread by itself and the others by a THREADCREATE
of an older thread. -/
structure StartsThreads (main : Nat) (calls : List (Nat × Annotation)) : Prop where
  begins : ∀ t, threadCalls t calls ≠ [] → ∃ parent rest,
    threadCalls t calls = .threadStart parent :: rest ∧ ∀ p, .threadStart p ∉ rest
  root : ∀ t parent, (t, .threadStart parent) ∈ calls → (parent = none ↔ t = main)
  older : ∀ t parent, (t, .threadStart (some parent)) ∈ calls → parent.tid < t

/-- Runs of a program that starts with the thread `main`. -/
structure ProgramRuns (executions : List (List (Nat × Annotation))) (main : Nat)
    (code : Nat → Code) : Prop where
  recorded : ∀ tid, Recorded executions tid (code tid)
  starts : ∀ calls ∈ executions, StartsThreads main calls

/-- The first annotated event is one of the main thread outside of loops and branches, before all
thread creations. -/
structure FirstEvent (executions : List (List (Nat × Annotation))) (main : Nat) (g : EventGraph) :
    Prop where
  mcid : (Recorder.empty.runs executions).mcidFirst = some g.first
  outside : ∃ n, g.first = Site.ep main ⟨[], n⟩
  before : ∀ record, g.getType record = some .threadcreate → record.tid = main →
    g.first.compare record = .after

namespace EventGraph

variable (g : EventGraph)

/-- The first event, an event of the main thread behind it, or one of another thread. -/
def Due (main : Nat) (record : ExecPoint) : Prop :=
  g.getType record ≠ none ∧
    (record.tid = main → record = g.first ∨ g.first.compare record = .after)

/-- The traversal ends, visits what is due once, and visits the events of a thread in their
order. -/
def TraversedOnce (main : Nat) : Prop :=
  ∃ n, (Traversal.traverse g false n).pending = [] ∧
    (∀ record, g.Due main record → (Traversal.traverse g false n).visited.count record = 1) ∧
    ∀ a b, g.Due main a → g.Due main b → a.tid = b.tid → a.compare b = .after →
      (Traversal.traverse g false n).visited.idxOf a <
        (Traversal.traverse g false n).visited.idxOf b

def StartedOnce (main : Nat) : Prop :=
  ∀ t, t ≠ main → g.getType (ExecPoint.start t) ≠ none →
    ∃! parent, g.getChildRecord parent = some (ExecPoint.start t)

end EventGraph

/-! ## Starts of threads -/

theorem Control.exists_site {k : Control} {calls : List Annotation} {tid : Nat} {record : ExecPoint}
    {et : EventType} (h : .record record et ∈ k.log tid calls) : ∃ s : Site, record = s.ep tid := by
  obtain ⟨k', call, -, hentry, -⟩ := mem_log h
  have harrive : .record record et ∉ k'.arrive tid := by
    unfold arrive
    split <;> simp
  rcases List.mem_append.mp hentry with hentry | hentry
  · obtain ⟨note, -, heq⟩ := List.mem_map.mp hentry
    exact ⟨note.1, (GraphEntry.record.inj heq).1.symm⟩
  · exfalso
    cases call <;> simp [links, harrive] at hentry

theorem EventGraph.Logged.exists_trace {executions : List (List (Nat × Annotation))}
    {g : EventGraph} (hg : g.Logged (Recorder.runsLog executions)) {record : ExecPoint}
    (hrecord : g.getType record ≠ none) : ∃ (s : Site) (et : EventType), record = s.ep record.tid ∧
      g.getType record = some et ∧ ∃ calls ∈ executions, threadCalls record.tid calls ≠ [] ∧
        (s, et) ∈ Control.start.trace (threadCalls record.tid calls) := by
  obtain ⟨et, het⟩ := Option.ne_none_iff_exists'.mp hrecord
  obtain ⟨calls, hcalls, t, hlog⟩ := hg.mem (.record record et) het
  obtain ⟨s, rfl⟩ := Control.exists_site hlog
  refine ⟨s, et, rfl, het, calls, hcalls, ?_, Control.mem_trace_of_log hlog⟩
  rintro hnil
  simp only [Site.ep_tid] at hnil
  simp [hnil, Control.log] at hlog

namespace ProgramRuns

variable {executions : List (List (Nat × Annotation))} {main : Nat} {code : Nat → Code}
  {g : EventGraph}

/-- The record at the begin of a thread is a child of a THREADCREATE of an older thread. -/
theorem child_start (h : ProgramRuns executions main code)
    (hg : g.Logged (Recorder.runsLog executions)) {parent : ExecPoint} {t : Nat}
    (hchild : g.getChildRecord parent = some (ExecPoint.start t)) :
    parent.tid < t ∧ g.getType parent = some .threadcreate := by
  obtain ⟨calls, hcalls, t', hlog⟩ := hg.mem (.child parent (ExecPoint.start t)) hchild
  obtain ⟨k, call, hcall, hentry, -⟩ := Control.mem_log hlog
  rw [← Site.ep_start] at hentry
  rcases Control.child_entries hentry with ⟨-, -, hbody⟩ | ⟨rfl, hsite⟩
  · have hpath := congrArg Site.path (Site.ep_inj.mp hbody).2
    simp [Site.start, Site.body] at hpath
  · obtain ⟨rfl, -⟩ := Site.ep_inj.mp hsite
    have hmem := Control.mem_threadCalls.mp hcall
    refine ⟨(h.starts calls hcalls).older t parent hmem, ?_⟩
    rcases ((h.recorded t).nested calls hcalls).created hmem with hnone | ⟨t', hrecord⟩
    · simp [Threads.start] at hnone
    · obtain ⟨s, rfl⟩ := Control.exists_site hrecord
      exact ((h.recorded t').getType hg ⟨calls, hcalls, hrecord⟩).1

theorem child_site (h : ProgramRuns executions main code) {calls : List (Nat × Annotation)}
    (hcalls : calls ∈ executions) {t : Nat} {parent x : ExecPoint}
    (hlog : .child parent x ∈ Control.start.log t (threadCalls t calls)) :
    (∃ s : Site, (s, .loopenter) ∈ Control.start.trace (threadCalls t calls) ∧
      parent = s.ep t ∧ x = s.body.ep t) ∨ x = ExecPoint.start t := by
  obtain ⟨pre, call, post, hsplit, hentry⟩ := Control.exists_of_mem_log hlog
  rcases Control.child_entries hentry with ⟨rfl, hs, hbody⟩ | ⟨rfl, hsite⟩
  · refine .inl ⟨_, ?_, hs, hbody⟩
    rw [hsplit, Control.trace_append]
    exact List.mem_append_right _ (List.mem_append_left _ List.mem_cons_self)
  · right
    obtain ⟨parent', rest, hbegin, honly⟩ :=
      (h.starts calls hcalls).begins t (by simp [hsplit])
    rw [hsplit] at hbegin
    cases pre with
    | nil => exact hsite
    | cons call pre =>
      obtain ⟨-, rfl⟩ := List.cons_eq_cons.mp hbegin
      exact absurd (by simp) (honly (some parent))

/-- A run that a thread makes begins with the record that its start notes. -/
theorem getType_start (h : ProgramRuns executions main code)
    (hg : g.Logged (Recorder.runsLog executions)) {calls : List (Nat × Annotation)}
    (hcalls : calls ∈ executions) {t : Nat} (hne : threadCalls t calls ≠ []) :
    g.getType (ExecPoint.start t) = some .threadbegin := by
  obtain ⟨parent, rest, hbegin, -⟩ := (h.starts calls hcalls).begins t hne
  have hrecord : .record (Site.start.ep t) .threadbegin ∈ threadLog executions t := by
    refine ⟨calls, hcalls, ?_⟩
    rw [hbegin]
    apply List.mem_append_left
    simp [Control.entries, Control.notes, Control.start]
  simpa using ((h.recorded t).getType hg hrecord).1

section Covers

variable {V : Set ExecPoint}

/-- The traversal comes to the events behind the first one, in the thread of that one, if they are
inside the loops around it. -/
theorem mem_of_first (h : ProgramRuns executions main code)
    (hg : g.Logged (Recorder.runsLog executions))
    (hmcid : (Recorder.empty.runs executions).mcidFirst = some g.first) {u : Nat} {f s : Site}
    (hsite : g.first = f.ep u) (hV : g.first ∈ V) (hclosed : ∀ r ∈ V, ∀ y ∈ g.succs false r, y ∈ V)
    (hs : g.getType (s.ep u) ≠ none) (hfrom : f.values ≤ s.values)
    (hbound : ∀ l ∈ f.path.loops, s.values < l.next.values) : s.ep u ∈ V := by
  obtain ⟨f', hf, calls', hcalls', pre, call, post, et', hsplit, hissues⟩ :=
    (h.recorded u).exists_issuesFirst hmcid (by simp [hsite])
  obtain rfl : f' = f := (Site.ep_inj.mp (hf.symm.trans hsite)).2
  obtain ⟨s', et, hrecord, -, calls, hcalls, hne, hnote⟩ := hg.exists_trace hs
  obtain rfl : s = s' := (Site.ep_inj.mp hrecord).2
  simp only [Site.ep_tid] at hne hnote
  have hruns' := (h.recorded u).runs calls' hcalls' (by simp [hsplit])
  rw [hsplit] at hruns'
  have hruns := (h.recorded u).runs calls hcalls hne
  obtain ⟨pre, call, post, et', hcallsSplit, hissues⟩ := hissues.exists_alike hruns' hruns
  rw [hcallsSplit] at hruns hnote
  have hlog : ∀ e ∈ Control.start.log u (pre ++ call :: post), e ∈ threadLog executions u :=
    fun e he => ⟨calls, hcalls, hcallsSplit ▸ he⟩
  exact hissues.mem_of_trace (h.recorded u) hg hclosed (by simp) hruns hlog (hsite ▸ hV) hnote
    hfrom hbound

/-- The traversal comes to all events of a thread from the begin of the thread. -/
theorem mem_of_start (h : ProgramRuns executions main code)
    (hg : g.Logged (Recorder.runsLog executions)) (hclosed : ∀ r ∈ V, ∀ y ∈ g.succs false r, y ∈ V)
    {record : ExecPoint} (hrecord : g.getType record ≠ none)
    (hstart : ExecPoint.start record.tid ∈ V) : record ∈ V := by
  obtain ⟨s, et, hsite, -, calls, hcalls, hne, hnote⟩ := hg.exists_trace hrecord
  have hcovered : Covered executions V record.tid [] Control.start := by
    constructor
    · simp [Control.start]
    · exact fun _ => .inl ⟨rfl, hstart⟩
    · simp [Control.start, Site.start, Path.branches]
    · simp [Control.start, Site.start, Path.loops]
  rw [hsite]
  exact hcovered.trace (h.recorded _) hg hclosed (by simp) Code.reaches_start
    ((h.recorded _).runs calls hcalls hne) (fun e he => ⟨calls, hcalls, he⟩) (s, et) hnote (by simp)

private theorem mem_of_main (h : ProgramRuns executions main code)
    (hg : g.Logged (Recorder.runsLog executions)) (hfirst : FirstEvent executions main g)
    (hV : g.first ∈ V) (hclosed : ∀ r ∈ V, ∀ y ∈ g.succs false r, y ∈ V) {record : ExecPoint}
    (hdue : g.Due main record) (hmain : record.tid = main) : record ∈ V := by
  obtain ⟨n, hsite⟩ := hfirst.outside
  obtain ⟨s, -, hrecord, -⟩ := hg.exists_trace hdue.1
  rw [hmain] at hrecord
  subst hrecord
  have hfrom : (⟨[], n⟩ : Site).values ≤ s.values := by
    rcases hdue.2 rfl with heq | hafter
    · rw [hsite] at heq
      rw [(Site.ep_inj.mp heq).2]
    · rw [hsite] at hafter
      exact (Site.values_lt_of_after hafter).le
  exact h.mem_of_first hg hfirst.mcid hsite hV hclosed hdue.1 hfrom (by simp [Path.loops])

/-- The traversal comes to all threads, if each of them is the child of a record. -/
theorem mem_of_thread (h : ProgramRuns executions main code)
    (hg : g.Logged (Recorder.runsLog executions)) (hfirst : FirstEvent executions main g)
    (hstarted : ∀ t, t ≠ main → g.getType (ExecPoint.start t) ≠ none →
      ∃ parent, g.getChildRecord parent = some (ExecPoint.start t))
    (hV : g.first ∈ V) (hclosed : ∀ r ∈ V, ∀ y ∈ g.succs false r, y ∈ V) (t : Nat) :
    ∀ record, record.tid = t → g.Due main record → record ∈ V := by
  induction t using Nat.strong_induction_on with
  | h t ih =>
    rintro record rfl hdue
    by_cases hmain : record.tid = main
    · exact h.mem_of_main hg hfirst hV hclosed hdue hmain
    · obtain ⟨-, -, -, -, calls, hcalls, hne, -⟩ := hg.exists_trace hdue.1
      have hbegin := h.getType_start hg hcalls hne
      obtain ⟨parent, hparent⟩ := hstarted _ hmain (by simp [hbegin])
      obtain ⟨hlt, hcreate⟩ := h.child_start hg hparent
      have hmem : parent ∈ V := by
        apply ih parent.tid hlt parent rfl
        exact ⟨by simp [hcreate], fun htid => .inr (hfirst.before parent hcreate htid)⟩
      exact h.mem_of_start hg hclosed hdue.1 (hclosed _ hmem _ (EventGraph.mem_succs_child hparent))

end Covers

end ProgramRuns

/-! ## Threads that are started once -/

theorem two_le_count_flatMap {A B : Type*} [DecidableEq B] (succs : A → List B) {l : List A}
    {a c : A} {x : B} (ha : a ∈ l) (hc : c ∈ l) (hne : a ≠ c) (hxa : x ∈ succs a)
    (hxc : x ∈ succs c) : 2 ≤ (l.flatMap succs).count x := by
  have hpos : ∀ {l : List A} {a}, a ∈ l → x ∈ succs a → 1 ≤ (l.flatMap succs).count x :=
    fun ha hx => List.one_le_count_iff.mpr (List.mem_flatMap.mpr ⟨_, ha, hx⟩)
  induction l with
  | nil => simp at ha
  | cons b l ih =>
    rw [List.flatMap_cons, List.count_append]
    rcases List.mem_cons.mp ha with rfl | hal
    · have hfirst := List.one_le_count_iff.mpr hxa
      have hrest := hpos ((List.mem_cons.mp hc).resolve_left (Ne.symm hne)) hxc
      omega
    · rcases List.mem_cons.mp hc with rfl | hc
      · have hfirst := List.one_le_count_iff.mpr hxc
        have hrest := hpos hal hxa
        omega
      · have hrest := ih hal hc
        omega

theorem Site.not_values_lt_start (s : Site) : ¬ s.values < Site.start.values := by
  intro hlt
  have hne : s.values ≠ [] := by simp [Site.values]
  obtain ⟨v, values, hvalues⟩ := List.exists_cons_of_ne_nil hne
  rw [hvalues, show Site.start.values = [0] from rfl] at hlt
  rcases List.cons_lt_cons_iff.mp hlt with hlt | ⟨-, hlt⟩
  · exact Nat.not_lt_zero v hlt
  · exact List.not_lt_nil values hlt

theorem Code.Next.ne_start {code : Code} {s s' : Site} (h : code.Next s s') : s' ≠ Site.start := by
  rintro rfl
  have hlater : ∀ {q : Site}, s.next.Later q → q ≠ Site.start := by
    rintro q hq rfl
    rcases hq.eq_or_values_lt with heq | hlt
    · exact Nat.succ_ne_zero s.n (congrArg Site.n heq).symm
    · exact Site.not_values_lt_start _ hlt
  generalize hstart : Site.start = s' at h
  cases h with
  | behind htype hpasses hleads hnotes =>
    exact hlater ((Code.Next.behind htype hpasses hleads hnotes).later (hpasses.ne htype).2.2)
      hstart.symm
  | merge _ => exact hlater (Site.Later.refl _) hstart.symm
  | label _ => exact hlater (Site.Later.refl _) hstart.symm
  | exit _ _ => exact absurd (congrArg Site.n hstart) (Nat.succ_ne_zero _).symm

theorem Code.Leaves.ne_start {code : Code} {tid t : Nat} {e : GraphEntry}
    (h : code.Leaves tid e) (he : e.target? = some (ExecPoint.start t)) :
    ∃ parent, e = .child parent (ExecPoint.start t) := by
  rw [← Site.ep_start] at he ⊢
  cases h with
  | record _ => simp [GraphEntry.target?] at he
  | value _ => simp [GraphEntry.target?] at he
  | next hnext =>
    obtain ⟨-, rfl⟩ := Site.ep_inj.mp (Option.some_inj.mp he)
    exact absurd rfl hnext.ne_start
  | first _ _ =>
    have hpath := congrArg Site.path (Site.ep_inj.mp (Option.some_inj.mp he)).2
    simp [Site.arm, Site.start] at hpath
  | child _ =>
    obtain ⟨rfl, hsite⟩ := Site.ep_inj.mp (Option.some_inj.mp he)
    exact ⟨_, by rw [hsite]⟩
  | started =>
    obtain ⟨rfl, hsite⟩ := Site.ep_inj.mp (Option.some_inj.mp he)
    exact ⟨_, by rw [hsite]⟩

namespace ProgramRuns

variable {executions : List (List (Nat × Annotation))} {main : Nat} {code : Nat → Code}
  {g : EventGraph}

private theorem child_of_succs (h : ProgramRuns executions main code)
    (hg : g.Logged (Recorder.runsLog executions)) {a : ExecPoint} {t : Nat}
    (ha : ExecPoint.start t ∈ g.succs false a) : g.getChildRecord a = some (ExecPoint.start t) := by
  have hlink : ∀ e, g.Holds e → e.target? = some (ExecPoint.start t) →
      ∃ parent, e = .child parent (ExecPoint.start t) := by
    intro e he htarget
    obtain ⟨calls, hcalls, t', hlog⟩ := hg.mem e he
    exact ((h.recorded t').leaves ⟨calls, hcalls, hlog⟩).ne_start htarget
  rcases EventGraph.holds_of_succs ha with hchild | ⟨-, hnext⟩ | ⟨v, hfirst⟩
  · exact hchild
  · obtain ⟨parent, heq⟩ := hlink (.next a (ExecPoint.start t)) hnext rfl
    simp at heq
  · obtain ⟨parent, heq⟩ := hlink (.first ⟨a, v⟩ (ExecPoint.start t)) hfirst rfl
    simp at heq

/-- A thread that the traversal visits once is the child of one record. -/
theorem startedOnce (h : ProgramRuns executions main code)
    (hg : g.Logged (Recorder.runsLog executions)) (hfirst : FirstEvent executions main g)
    (htraversed : g.TraversedOnce main) : g.StartedOnce main := by
  obtain ⟨n, hdone, honce, -⟩ := htraversed
  intro t ht htype
  have hstart : g.Due main (ExecPoint.start t) := ⟨htype, fun heq => absurd heq ht⟩
  have hcount := honce _ hstart
  have hvisited : ∀ parent, g.getChildRecord parent = some (ExecPoint.start t) →
      parent ∈ (Traversal.traverse g false n).visited := by
    intro parent hparent
    have hcreate := (h.child_start hg hparent).2
    apply List.one_le_count_iff.mp
    rw [honce parent ⟨by simp [hcreate], fun htid => .inr (hfirst.before parent hcreate htid)⟩]
  have hmem : ExecPoint.start t ∈ (Traversal.traverse g false n).visited :=
    List.one_le_count_iff.mp (by rw [hcount])
  rcases Relation.ReflTransGen.cases_tail ((Traversal.mem_visited_iff hdone).mp hmem) with
    heq | ⟨parent, -, hparent⟩
  · obtain ⟨m, hsite⟩ := hfirst.outside
    have htid := congrArg ExecPoint.tid (heq.trans hsite)
    exact absurd htid ht
  · refine ⟨parent, h.child_of_succs hg hparent, fun other hother => ?_⟩
    by_contra hne
    have htwo := two_le_count_flatMap (g.succs false) (hvisited other hother)
      (hvisited parent (h.child_of_succs hg hparent)) hne (EventGraph.mem_succs_child hother)
      hparent
    have hperm := (Traversal.perm_visited hdone).count_eq (ExecPoint.start t)
    rw [hcount, List.count_cons] at hperm
    omega

open Classical in
/-- The record that has a thread as its child. -/
noncomputable def creator (g : EventGraph) (t : Nat) : Option ExecPoint :=
  if h : ∃ parent, g.getChildRecord parent = some (ExecPoint.start t) then some h.choose else none

private theorem creator_child {t : Nat} {parent : ExecPoint} (h : creator g t = some parent) :
    g.getChildRecord parent = some (ExecPoint.start t) := by
  unfold creator at h
  split_ifs at h with hexists
  obtain rfl := Option.some_inj.mp h
  exact hexists.choose_spec

private theorem shaped (h : ProgramRuns executions main code)
    (hg : g.Logged (Recorder.runsLog executions)) (hvalues : ∀ record, (g.valuevector record).Nodup)
    (honce : g.StartedOnce main) : g.Shaped code (creator g) := by
  apply shaped_of_created h.recorded hg hvalues
  · exact fun t parent hparent => (h.child_start hg (creator_child hparent)).1
  · intro calls hcalls t parent s hmem hchild
    have hmain : t ≠ main := by
      have hroot := (h.starts calls hcalls).root t (some parent) hmem
      simpa using hroot
    have hne : threadCalls t calls ≠ [] :=
      List.ne_nil_of_mem (Control.mem_threadCalls.mpr hmem)
    have htype := h.getType_start hg hcalls hne
    obtain ⟨parent', hparent', hunique⟩ := honce t hmain (by simp [htype])
    have hstart : g.getChildRecord parent = some (ExecPoint.start t) := by
      obtain ⟨calls', hcalls', t', hlog⟩ := hg.mem (.child parent (s.ep t)) hchild
      rcases h.child_site hcalls' hlog with ⟨s', -, rfl, hbody⟩ | heq
      · exfalso
        obtain ⟨rfl, -⟩ := Site.ep_inj.mp hbody
        have hlt := (h.starts calls hcalls).older t _ hmem
        exact lt_irrefl _ hlt
      · rw [← Site.ep_start] at heq
        obtain ⟨rfl, rfl⟩ := Site.ep_inj.mp heq
        exact hchild
    have hcreator : ∃ parent, creator g t = some parent := by
      unfold creator
      rw [dif_pos ⟨parent, hstart⟩]
      exact ⟨_, rfl⟩
    obtain ⟨parent'', hparent''⟩ := hcreator
    rw [hparent'', hunique parent'' (creator_child hparent''), hunique parent hstart]

/-- Where every thread is the child of one record, the traversal visits all that is due once and in
order. -/
theorem traversedOnce (h : ProgramRuns executions main code)
    (hg : g.Logged (Recorder.runsLog executions)) (hvalues : ∀ record, (g.valuevector record).Nodup)
    (hfirst : FirstEvent executions main g) (honce : g.StartedOnce main) :
    g.TraversedOnce main := by
  obtain ⟨m, hsite⟩ := hfirst.outside
  have hshaped := h.shaped hg hvalues honce
  obtain ⟨n, hdone⟩ := hshaped.exists_traverse_nil false hg hsite
  have hinOrder := (Traversal.visited_inOrder hshaped hsite false n).1
  have hnodup : (Traversal.traverse g false n).visited.Nodup := by
    apply List.nodup_iff_pairwise_ne.mpr
    apply hinOrder.imp
    rintro a b hab rfl
    exact not_inOrder_self a hab
  have hmem : ∀ record, g.Due main record → record ∈ (Traversal.traverse g false n).visited := by
    intro record hdue
    exact h.mem_of_thread (V := {x | x ∈ (Traversal.traverse g false n).visited}) hg hfirst
      (fun t ht htype => (honce t ht htype).exists) (Traversal.first_mem_visited hdone)
      (Traversal.visited_closed hdone) record.tid record rfl hdue
  refine ⟨n, hdone, fun record hdue => List.count_eq_one_of_mem hnodup (hmem record hdue), ?_⟩
  intro a b ha hb htid hafter
  have hia := List.idxOf_lt_length_of_mem (hmem a ha)
  have hib := List.idxOf_lt_length_of_mem (hmem b hb)
  by_contra hle
  rcases Nat.lt_or_eq_of_le (not_lt.mp hle) with hlt | heq
  · have hback := List.pairwise_iff_getElem.mp hinOrder _ _ hib hia hlt
    rw [List.getElem_idxOf, List.getElem_idxOf] at hback
    have hbefore : b.compare a = .before := by
      obtain ⟨s, -, hs, -⟩ := hg.exists_trace ha.1
      obtain ⟨s', -, hs', -⟩ := hg.exists_trace hb.1
      rw [← htid] at hs'
      have htyped := (h.recorded a.tid).typed hg (s := s) (hs ▸ ha.1)
      have htyped' := (h.recorded a.tid).typed hg (s := s') (hs' ▸ hb.1)
      rw [hs, hs'] at hafter ⊢
      exact Site.compare_before htyped htyped' hafter
    rcases hback htid.symm with hback | hback <;> simp [hbefore] at hback
  · have hsame : a = b := by
      rw [← List.getElem_idxOf hia, ← List.getElem_idxOf hib]
      simp [heq]
    subst hsame
    simp at hafter

/-- The traversal visits the first event, the events of the main thread behind it and those of all
other threads once, and those of a thread in their order, exactly if every thread is the child of
one record. -/
theorem traversedOnce_iff (h : ProgramRuns executions main code) (len : ExecPoint → Nat)
    (first : ExecPoint) (hg : g = (Recorder.empty.runs executions).graph len first)
    (hfirst : FirstEvent executions main g) : g.TraversedOnce main ↔ g.StartedOnce main := by
  subst hg
  obtain ⟨-, hlogged⟩ := Recorder.logged_runs (h.recorded main).nested
  constructor
  · exact h.startedOnce (hlogged len first) hfirst
  · exact h.traversedOnce (hlogged len first)
      (Recorder.nodup_valuevector executions len first) hfirst

end ProgramRuns

/-! ## A thread that is created in both directions of a branch -/

open TSO (createInBoth createInBothCode recorded_createInBoth createdTwice)

private theorem startsThreads_createInBoth (d : Nat) : StartsThreads 0 (createInBoth d) where
  begins t := by
    match t with
    | 0 => exact fun _ => ⟨none, _, rfl, by simp⟩
    | 1 => exact fun _ => ⟨some (Site.ep 0 ⟨[.arm 1 d], 0⟩), _, rfl, by simp⟩
    | t + 2 => simp [createInBoth, threadCalls]
  root t parent hmem := by
    have hcases : (t = 0 ∧ parent = none) ∨
        (t = 1 ∧ parent = some (Site.ep 0 ⟨[.arm 1 d], 0⟩)) := by
      simpa [createInBoth] using hmem
    rcases hcases with ⟨rfl, rfl⟩ | ⟨rfl, rfl⟩ <;> simp
  older t parent hmem := by
    obtain ⟨rfl, rfl⟩ : t = 1 ∧ parent = Site.ep 0 ⟨[.arm 1 d], 0⟩ := by
      simpa [createInBoth] using hmem
    exact Nat.zero_lt_one

theorem programRuns_createInBoth {executions : List (List (Nat × Annotation))}
    (hsub : ∀ calls ∈ executions, calls ∈ [createInBoth 0, createInBoth 1]) :
    ProgramRuns executions 0 createInBothCode where
  recorded tid :=
    ⟨fun calls hcalls => (recorded_createInBoth tid).nested calls (hsub calls hcalls),
      fun calls hcalls => (recorded_createInBoth tid).runs calls (hsub calls hcalls)⟩
  starts calls hcalls := by
    have hboth := hsub calls hcalls
    simp only [List.mem_cons, List.not_mem_nil, or_false] at hboth
    rcases hboth with rfl | rfl
    · exact startsThreads_createInBoth 0
    · exact startsThreads_createInBoth 1

private theorem compare_createInBoth {executions : List (List (Nat × Annotation))} {g : EventGraph}
    (hsub : ∀ calls ∈ executions, calls ∈ [createInBoth 0, createInBoth 1])
    (hg : g.Logged (Recorder.runsLog executions)) {record : ExecPoint}
    (hrecord : g.getType record = some .threadcreate) (htid : record.tid = 0) :
    (Site.ep 0 ⟨[], 1⟩).compare record = .after := by
  have hsome : g.getType record ≠ none := by simp [hrecord]
  obtain ⟨s, et, hs, htype, calls, hcalls, -, hnote⟩ := hg.exists_trace hsome
  obtain rfl : et = .threadcreate := Option.some_inj.mp (htype.symm.trans hrecord)
  have hall : ∀ calls ∈ [createInBoth 0, createInBoth 1],
      ∀ note ∈ Control.start.trace (threadCalls 0 calls), note.2 = .threadcreate →
        (Site.ep 0 ⟨[], 1⟩).compare (note.1.ep 0) = .after := by decide
  rw [htid] at hs hnote
  rw [hs]
  exact hall calls (hsub calls hcalls) _ hnote rfl

private theorem firstEvent_createdTwice :
    FirstEvent [createInBoth 0, createInBoth 1] 0 createdTwice where
  mcid := by decide +kernel
  outside := ⟨1, rfl⟩
  before record hrecord htid := by
    have hruns : ProgramRuns [createInBoth 0, createInBoth 1] 0 createInBothCode :=
      programRuns_createInBoth fun _ h => h
    obtain ⟨-, hlogged⟩ := Recorder.logged_runs (hruns.recorded 0).nested
    exact compare_createInBoth (fun _ h => h) (hlogged _ _) hrecord htid

/-- Both THREADCREATE records have the thread as their child. -/
theorem not_traversedOnce_createdTwice :
    ProgramRuns [createInBoth 0, createInBoth 1] 0 createInBothCode ∧
      FirstEvent [createInBoth 0, createInBoth 1] 0 createdTwice ∧
      ¬ createdTwice.TraversedOnce 0 := by
  have hruns : ProgramRuns [createInBoth 0, createInBoth 1] 0 createInBothCode :=
    programRuns_createInBoth fun _ h => h
  refine ⟨hruns, firstEvent_createdTwice, fun htraversed => ?_⟩
  obtain ⟨-, hlogged⟩ := Recorder.logged_runs (hruns.recorded 0).nested
  have honce := hruns.startedOnce (hlogged (fun _ => 2) (Site.ep 0 ⟨[], 1⟩)) firstEvent_createdTwice
    htraversed
  have hleft : createdTwice.getChildRecord (Site.ep 0 ⟨[.arm 1 0], 0⟩) =
      some (ExecPoint.start 1) := by
    decide +kernel
  have hright : createdTwice.getChildRecord (Site.ep 0 ⟨[.arm 1 1], 0⟩) =
      some (ExecPoint.start 1) := by
    decide +kernel
  have hunique := (honce 1 (by decide) (by decide +kernel)).unique hleft hright
  exact absurd hunique (by decide)

/-! ## A thread that is created in one direction of a branch -/

def createInOneCode : Nat → Code
  | 0 => fun s =>
    if s = ⟨[], 0⟩ then some .threadStart
    else if s = ⟨[], 1⟩ then some .branch
    else if s = ⟨[.arm 1 0], 0⟩ then some .threadCreate
    else if s = ⟨[.arm 1 0], 1⟩ ∨ s = ⟨[.arm 1 1], 0⟩ then some (.merge ⟨[], 1⟩)
    else if s = ⟨[], 3⟩ then some (.event .store 2)
    else none
  | 1 => fun s =>
    if s = ⟨[], 0⟩ then some .threadStart
    else if s = ⟨[], 1⟩ then some (.event .load 1)
    else none
  | _ => fun _ => none

def createRun : List (Nat × Annotation) :=
  [(0, .threadStart none), (0, .branchDir 0), (0, .threadCreate),
    (1, .threadStart (some (Site.ep 0 ⟨[.arm 1 0], 0⟩))), (0, .merge 0), (1, .event .load 1),
    (0, .event .store 2)]

/-- The thread is not created where the branch goes in direction 1. -/
def passRun : List (Nat × Annotation) :=
  [(0, .threadStart none), (0, .branchDir 1), (0, .merge 0), (0, .event .store 2)]

private theorem recorded_createInOne (tid : Nat) :
    Recorded [passRun, createRun] tid (createInOneCode tid) := by
  constructor
  · intro calls hcalls
    simp only [List.mem_cons, List.not_mem_nil, or_false] at hcalls
    rcases hcalls with rfl | rfl <;>
      simp [passRun, createRun, Threads.WellNested, Threads.Legal, Threads.move, Threads.start,
        Control.Legal, Control.move, Control.start, Control.behind, Control.IsPlain, Site.start,
        Site.next, Site.arm, Path.mergeable]
  · intro calls hcalls hne
    simp only [List.mem_cons, List.not_mem_nil, or_false] at hcalls
    rcases tid with _ | _ | tid <;> rcases hcalls with rfl | rfl <;>
      simp_all [passRun, createRun, threadCalls, createInOneCode, Code.Runs, Instruction.Allows,
        Control.Legal, Control.move, Control.start, Control.behind, Control.IsPlain, Site.start,
        Site.next, Site.arm, Path.mergeable]

theorem programRuns_createInOne : ProgramRuns [passRun, createRun] 0 createInOneCode where
  recorded := recorded_createInOne
  starts calls hcalls := by
    simp only [List.mem_cons, List.not_mem_nil, or_false] at hcalls
    constructor
    · intro t hne
      rcases t with _ | _ | t <;> rcases hcalls with rfl | rfl <;>
        simp_all [passRun, createRun, threadCalls]
    · intro t parent hmem
      rcases hcalls with rfl | rfl
      · obtain ⟨rfl, rfl⟩ : t = 0 ∧ parent = none := by simpa [passRun] using hmem
        simp
      · have hcases : (t = 0 ∧ parent = none) ∨
            (t = 1 ∧ parent = some (Site.ep 0 ⟨[.arm 1 0], 0⟩)) := by
          simpa [createRun] using hmem
        rcases hcases with ⟨rfl, rfl⟩ | ⟨rfl, rfl⟩ <;> simp
    · intro t parent hmem
      rcases hcalls with rfl | rfl
      · simp [passRun] at hmem
      · obtain ⟨rfl, rfl⟩ : t = 1 ∧ parent = Site.ep 0 ⟨[.arm 1 0], 0⟩ := by
          simpa [createRun] using hmem
        exact Nat.zero_lt_one

def createdOnce : EventGraph :=
  (Recorder.empty.runs [passRun, createRun]).graph (fun _ => 2) (Site.ep 0 ⟨[], 1⟩)

/-- The traversal comes to the thread once, also where a run has not created it. -/
theorem traversedOnce_createdOnce : createdOnce.TraversedOnce 0 := by
  have hruns := programRuns_createInOne
  obtain ⟨-, hlogged⟩ := Recorder.logged_runs (hruns.recorded 0).nested
  have hg : createdOnce.Logged (Recorder.runsLog [passRun, createRun]) := hlogged _ _
  have htraces : ∀ calls ∈ [passRun, createRun],
      ∀ note ∈ Control.start.trace (threadCalls 0 calls), note.2 = .threadcreate →
        note.1 = ⟨[.arm 1 0], 0⟩ := by decide
  have hcreated : ∀ record, createdOnce.getType record = some .threadcreate → record.tid = 0 →
      record = Site.ep 0 ⟨[.arm 1 0], 0⟩ := by
    intro record hrecord htid
    have hsome : createdOnce.getType record ≠ none := by simp [hrecord]
    obtain ⟨s, et, hs, htype, calls, hcalls, -, hnote⟩ := hg.exists_trace hsome
    obtain rfl : et = .threadcreate := Option.some_inj.mp (htype.symm.trans hrecord)
    rw [htid] at hs hnote
    exact hs.trans (congrArg (Site.ep 0) (htraces calls hcalls _ hnote rfl))
  have hfirst : FirstEvent [passRun, createRun] 0 createdOnce := by
    refine ⟨by decide +kernel, ⟨1, rfl⟩, fun record hrecord htid => ?_⟩
    rw [hcreated record hrecord htid]
    decide
  apply (hruns.traversedOnce_iff (fun _ => 2) (Site.ep 0 ⟨[], 1⟩) rfl hfirst).mpr
  intro t ht htype
  obtain ⟨s, et, -, -, calls, hcalls, hne, -⟩ := hg.exists_trace htype
  obtain rfl : t = 1 := by
    simp only [List.mem_cons, List.not_mem_nil, or_false] at hcalls
    rcases t with _ | _ | t
    · exact absurd rfl ht
    · rfl
    · rcases hcalls with rfl | rfl <;>
        simp [passRun, createRun, threadCalls, ExecPoint.start] at hne
  refine ⟨Site.ep 0 ⟨[.arm 1 0], 0⟩, by decide +kernel, fun parent hparent => ?_⟩
  obtain ⟨hlt, hcreate⟩ := hruns.child_start hg hparent
  exact hcreated parent hcreate (Nat.lt_one_iff.mp hlt)

end SatCheck
