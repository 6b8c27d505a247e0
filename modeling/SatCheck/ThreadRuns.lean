import SatCheck.ThreadControl
/-!
# The graph of well nested runs

A run interleaves the calls of its threads.  What the runs leave in the event graph are the
entries of each thread by itself, in any order.
-/

namespace SatCheck

/-- The controls of all threads and the THREADCREATE records of a run. -/
structure Threads where
  control : Nat → Control
  created : List ExecPoint

namespace Threads

def start : Threads := ⟨fun _ => Control.start, []⟩

def move (ts : Threads) (tid : Nat) (call : Annotation) : Threads where
  control := Function.update ts.control tid ((ts.control tid).move call)
  created := match call with
    | .threadCreate => ts.created ++ [(ts.control tid).site.ep tid]
    | _ => ts.created

def Legal (ts : Threads) (tid : Nat) (call : Annotation) : Prop :=
  (ts.control tid).Legal call ∧ ∀ parent, call = .threadStart (some parent) → parent ∈ ts.created

def WellNested : Threads → List (Nat × Annotation) → Prop
  | _, [] => True
  | ts, (tid, call) :: calls => ts.Legal tid call ∧ WellNested (ts.move tid call) calls

end Threads

theorem threadCalls_cons (t tid : Nat) (call : Annotation) (calls : List (Nat × Annotation)) :
    threadCalls t ((tid, call) :: calls) =
      if t = tid then call :: threadCalls t calls else threadCalls t calls := by
  by_cases ht : t = tid
  · simp [threadCalls, ht]
  · simp [threadCalls, ht, Ne.symm ht]

def Threads.log (ts : Threads) (calls : List (Nat × Annotation)) : Set GraphEntry :=
  {e | ∃ t, e ∈ (ts.control t).log t (threadCalls t calls)}

theorem Threads.log_cons (ts : Threads) (tid : Nat) (call : Annotation)
    (calls : List (Nat × Annotation)) : ts.log ((tid, call) :: calls) =
      {e | e ∈ (ts.control tid).entries tid call} ∪ (ts.move tid call).log calls := by
  ext e
  constructor
  · rintro ⟨t, ht⟩
    rw [threadCalls_cons] at ht
    split_ifs at ht with h
    · subst h
      rw [Control.log, List.mem_append] at ht
      apply ht.imp_right
      exact fun hrest => ⟨t, by simpa [move] using hrest⟩
    · exact Or.inr ⟨t, by simpa [move, h] using ht⟩
  · rintro (hnew | ⟨t, ht⟩)
    · refine ⟨tid, ?_⟩
      rw [threadCalls_cons, if_pos rfl, Control.log]
      exact List.mem_append_left _ hnew
    · refine ⟨t, ?_⟩
      rw [threadCalls_cons]
      split_ifs with h
      · subst h
        rw [Control.log]
        exact List.mem_append_right _ (by simpa [move] using ht)
      · simpa [move, h] using ht

namespace Recorder

/-- The recorder has all threads where their controls say, and the log of its graph. -/
structure Tracks (s : Recorder) (ts : Threads) (log : Set GraphEntry) : Prop where
  linked : s.Linked
  stands : ∀ t, s.Stands t (ts.control t)
  created : ∀ parent ∈ ts.created, s.records parent ≠ none
  logged : s.Logged log

variable {s : Recorder} {ts : Threads} {log : Set GraphEntry}

theorem Tracks.exec {tid : Nat} {call : Annotation} (h : s.Tracks ts log)
    (hlegal : ts.Legal tid call) : (s.exec tid call).Tracks (ts.move tid call)
      (log ∪ {e | e ∈ (ts.control tid).entries tid call}) := by
  have hparent : ∀ p, call = .threadStart (some p) → s.records p ≠ none :=
    fun p hp => h.created p (hlegal.2 p hp)
  have hfollows := (h.stands tid).exec h.linked hlegal.1 hparent
  constructor
  · exact hfollows.linked
  · intro t
    by_cases ht : t = tid
    · subst ht
      simpa [Threads.move] using hfollows.stands
    · simpa [Threads.move, ht] using (h.stands t).spared (hfollows.spares t ht)
  · intro parent hmem
    have hold : ∀ parent ∈ ts.created, (s.exec tid call).records parent ≠ none := by
      intro parent hmem
      have hother := hfollows.spares (tid + 1) (by omega)
      exact hother.toExtends.ne_none (h.created parent hmem)
    cases call with
    | threadCreate =>
      rcases List.mem_append.mp hmem with hmem | hmem
      · exact hold parent hmem
      · obtain rfl := List.mem_singleton.mp hmem
        exact ((h.stands tid).toAt.note h.linked .threadcreate 0).record
    | _ => exact hold parent hmem
  · exact hfollows.logged log h.logged

theorem Tracks.foldl {calls : List (Nat × Annotation)} (h : s.Tracks ts log)
    (hnested : ts.WellNested calls) : ∃ ts' : Threads,
      Tracks (calls.foldl (fun s call => s.exec call.1 call.2) s) ts' (log ∪ ts.log calls) := by
  induction calls generalizing s ts log with
  | nil =>
    refine ⟨ts, ?_⟩
    have hnone : ts.log [] = ∅ := by
      ext e
      simp [Threads.log, threadCalls, Control.log]
    rwa [hnone, Set.union_empty]
  | cons call calls ih =>
    obtain ⟨tid, call⟩ := call
    obtain ⟨hlegal, hrest⟩ := hnested
    obtain ⟨ts', hts'⟩ := ih (h.exec hlegal) hrest
    refine ⟨ts', ?_⟩
    rwa [Threads.log_cons, ← Set.union_assoc]

theorem Tracks.reset (hlinked : s.Linked) (hlogged : s.Logged log) :
    s.reset.Tracks Threads.start log where
  linked := by
    constructor
    · exact hlinked.site
    · intro tid branch p hp
      cases branch with
      | none => simp [Recorder.reset, lastOf] at hp
      | some branch => exact hlinked.last tid (some branch) p hp
    · exact hlinked.first
  stands t := by
    constructor
    · constructor
      · rfl
      · rfl
      · simp [Threads.start, Control.start, Site.start, Path.branches]
      · simp [Threads.start, Control.start, Site.start, Path.loops]
    · rfl
    · rfl
  created := by simp [Threads.start]
  logged := hlogged.congr rfl rfl

private theorem run_tracks {calls : List (Nat × Annotation)} (hlinked : s.Linked)
    (hlogged : s.Logged log) (hnested : Threads.start.WellNested calls) :
    (s.run calls).Linked ∧ (s.run calls).Logged (log ∪ Threads.start.log calls) := by
  obtain ⟨ts, hts⟩ := (Tracks.reset hlinked hlogged).foldl hnested
  exact ⟨hts.linked, hts.logged⟩

def runsLog (executions : List (List (Nat × Annotation))) : Set GraphEntry :=
  {e | ∃ calls ∈ executions, e ∈ Threads.start.log calls}

private theorem runs_tracks {executions : List (List (Nat × Annotation))} (hlinked : s.Linked)
    (hlogged : s.Logged log) (hnested : ∀ calls ∈ executions, Threads.start.WellNested calls) :
    (s.runs executions).Linked ∧ (s.runs executions).Logged (log ∪ runsLog executions) := by
  induction executions generalizing s log with
  | nil =>
    have hnone : runsLog [] = ∅ := by
      ext e
      simp [runsLog]
    rw [hnone, Set.union_empty]
    exact ⟨hlinked, hlogged⟩
  | cons calls executions ih =>
    obtain ⟨hlinked', hlogged'⟩ := run_tracks hlinked hlogged (hnested calls (by simp))
    have hboth := ih hlinked' hlogged' fun calls hcalls => hnested calls (by simp [hcalls])
    have hset : log ∪ runsLog (calls :: executions) =
        log ∪ Threads.start.log calls ∪ runsLog executions := by
      ext e
      simp [runsLog, or_assoc]
    rwa [hset]

private theorem linked_empty : Recorder.empty.Linked where
  site := by simp [Recorder.empty]
  last tid branch p hp := by cases branch <;> simp [Recorder.empty, lastOf] at hp
  first := by simp [Recorder.empty]

private theorem logged_empty : Recorder.empty.Logged ∅ := by
  intro len first
  constructor
  · intro e he
    cases e <;>
      simp [EventGraph.Holds, EventGraph.getType, EventGraph.getNextRecord,
        EventGraph.getChildRecord, EventGraph.valuevector, graph, Recorder.empty] at he
  · simp

/-- The graph of well nested runs has the entries of their threads and no others. -/
theorem logged_runs {executions : List (List (Nat × Annotation))}
    (hnested : ∀ calls ∈ executions, Threads.start.WellNested calls) :
    (Recorder.empty.runs executions).Linked ∧
      (Recorder.empty.runs executions).Logged (runsLog executions) := by
  have hboth := runs_tracks linked_empty logged_empty hnested
  rwa [Set.empty_union] at hboth

/-! ## The records of a run in their order -/

theorem Stands.requests {tid : Nat} {k : Control} {call : Annotation} (h : s.Stands tid k)
    (hlegal : k.Legal call) :
    ((((s.cursor tid).ops call).filterMap Op.request?).map fun r => (r.ep, r.event)) =
      (k.notes call).map fun note => (note.1.ep tid, note.2) := by
  have hep : (s.cursor tid).ep = k.site.ep tid := h.point
  cases call with
  | merge mcid =>
    obtain ⟨b, hb, hmem⟩ := hlegal
    have hbranch : (s.cursor tid).branches[mcid]? = some (b.ep tid) := by
      have hvalues : (s.cursor tid).branches = k.values.map (Site.ep tid) := h.values
      rw [hvalues, List.getElem?_map, hb, Option.map_some]
    simp [Cursor.ops, hbranch, hep, Op.request?, Control.notes, hb, List.filterMap_cons,
      Site.rollback_ep (Path.mergeable_subset hmem)]
  | exitLoop =>
    obtain ⟨l, loops, hloops⟩ := List.exists_cons_of_ne_nil hlegal
    have hpop : ((k.site.next.ep tid).popToLoop (k.site.next.ep tid).getSize) = l.ep tid :=
      Site.popToLoop_ep (s := k.site.next) hloops
    have htype : (if (k.site.ep tid).directInLoop then EventType.loopexit else .nonlocaltrans) =
        k.site.exitType := Site.directInLoop_ep
    simp [Cursor.ops, hep, Op.request?, Control.notes, hloops, hpop, htype, List.filterMap_cons]
  | enterLoop => simp [Cursor.ops, hep, Op.request?, Control.notes, Site.push_loop_ep]
  | _ => simp [Cursor.ops, hep, Op.request?, Control.notes]

theorem Tracks.requests {calls : List (Nat × Annotation)} (h : s.Tracks ts log)
    (hnested : ts.WellNested calls) (t : Nat) :
    ((calls.foldl (fun s call => s.exec call.1 call.2) s).requests.map
        fun r => (r.ep, r.event)).filter (fun r => r.1.tid = t) =
      (s.requests.map fun r => (r.ep, r.event)).filter (fun r => r.1.tid = t) ++
        ((ts.control t).trace (threadCalls t calls)).map fun note => (note.1.ep t, note.2) := by
  induction calls generalizing s ts log with
  | nil => simp [threadCalls, Control.trace]
  | cons call calls ih =>
    obtain ⟨tid, call⟩ := call
    obtain ⟨hlegal, hrest⟩ := hnested
    rw [List.foldl_cons, ih (h.exec hlegal) hrest, exec_requests, List.map_append,
      (h.stands tid).requests hlegal.1, List.filter_append, threadCalls_cons, List.append_assoc]
    congr 1
    split_ifs with ht
    · subst ht
      rw [Control.trace, List.map_append, List.filter_eq_self.mpr]
      · simp [Threads.move]
      · intro r hr
        obtain ⟨note, -, rfl⟩ := List.mem_map.mp hr
        simp
    · rw [List.filter_eq_nil_iff.mpr]
      · simp [Threads.move, ht]
      · intro r hr
        obtain ⟨note, -, rfl⟩ := List.mem_map.mp hr
        simp [Ne.symm ht]

theorem requests_run {calls : List (Nat × Annotation)} (hlinked : s.Linked)
    (hlogged : s.Logged log) (hnested : Threads.start.WellNested calls) (t : Nat) :
    ((s.run calls).requests.map fun r => (r.ep, r.event)).filter (fun r => r.1.tid = t) =
      (Control.start.trace (threadCalls t calls)).map fun note => (note.1.ep t, note.2) := by
  exact (Tracks.reset hlinked hlogged).requests hnested t

end Recorder

end SatCheck
