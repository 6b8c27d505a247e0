import SatCheck.FirstAnnotated
import SatCheck.PendingExits
import SatCheck.TraverseEnds
/-!
# Programs of one thread

The traversal begins at the record of the first MCID.  In a program of one thread no branch comes
before it, so every run of the program comes to it, and the traversal ends.
-/

namespace SatCheck

/-- Runs of a program whose only thread follows a code to its end. -/
structure SingleThread (executions : List (List (Nat × Annotation))) (tid : Nat) (code : Code) :
    Prop extends Recorded executions tid code where
  only : ∀ calls ∈ executions, ∀ call ∈ calls, call.1 = tid
  rooted : ∀ calls ∈ executions, Control.Rooted (threadCalls tid calls)
  starts : ∀ calls ∈ executions, threadCalls tid calls ≠ []

namespace SingleThread

variable {executions : List (List (Nat × Annotation))} {tid : Nat} {code : Code} {g : EventGraph}
  {noexecyields : Bool}

theorem recorded_all (h : SingleThread executions tid code) (t : Nat) :
    Recorded executions t code where
  nested := h.nested
  runs calls hcalls hne := by
    by_cases ht : t = tid
    · subst ht
      exact h.runs calls hcalls hne
    · exfalso
      apply hne
      apply List.eq_nil_iff_forall_not_mem.mpr
      intro call hcall
      exact ht (h.only calls hcalls _ (Control.mem_threadCalls.mp hcall))

theorem shaped (h : SingleThread executions tid code) (len : ExecPoint → Nat) (first : ExecPoint) :
    ((Recorder.empty.runs executions).graph len first).Shaped (fun _ => code) fun _ => none := by
  apply shaped_runs h.recorded_all
  constructor
  · simp
  · intro calls hcalls t parent hmem
    obtain rfl : t = tid := h.only calls hcalls _ hmem
    exact absurd rfl (h.rooted calls hcalls _ (Control.mem_threadCalls.mpr hmem) parent)

theorem exists_issuesFirst (h : SingleThread executions tid code) {first : ExecPoint}
    (hfirst : (Recorder.empty.runs executions).mcidFirst = some first) :
    ∃ f : Site, first = f.ep tid ∧ ∃ calls ∈ executions, ∃ pre call post et,
      threadCalls tid calls = pre ++ call :: post ∧ IssuesFirst pre call f et := by
  obtain ⟨f, hf, calls, hcalls, pre, call, post, et, hsplit, hissues⟩ :=
    (h.recorded_all first.tid).exists_issuesFirst hfirst rfl
  have htid : first.tid = tid :=
    h.only calls hcalls (first.tid, call) (Control.mem_threadCalls.mp (by simp [hsplit]))
  rw [htid] at hf hsplit
  exact ⟨f, hf, calls, hcalls, pre, call, post, et, hsplit, hissues⟩

end SingleThread

/-! ## A finished traversal -/

/-- The traversal of what the runs of one thread have recorded has come to its end. -/
structure Finished (executions : List (List (Nat × Annotation))) (tid : Nat) (code : Code)
    (noexecyields : Bool) (g : EventGraph) (f : Site) (n : Nat) : Prop where
  thread : SingleThread executions tid code
  logged : g.Logged (Recorder.runsLog executions)
  placed : g.Placed tid
  shaped : g.Shaped (fun _ => code) fun _ => none
  yields : noexecyields = true →
    ∀ s numinputs, code s = some (.event .yield numinputs) → code s.next = none
  first : g.first = f.ep tid
  issued : ∃ calls ∈ executions, ∃ pre call post et,
    threadCalls tid calls = pre ++ call :: post ∧ IssuesFirst pre call f et
  done : (Traversal.traverse g noexecyields n).pending = []

/-- A run of the code that only takes recorded directions. -/
structure RecordedRun (tid : Nat) (code : Code) (g : EventGraph) (calls : List Annotation) :
    Prop where
  runs : code.Runs Control.start calls
  rooted : Control.Rooted calls
  taken : ∀ a ∈ Control.start.taken calls, a.2 ∈ g.valuevector (a.1.ep tid)

namespace Finished

variable {executions : List (List (Nat × Annotation))} {tid : Nat} {code : Code} {g : EventGraph}
  {noexecyields : Bool} {f : Site} {n : Nat} {calls : List Annotation}

theorem mem_visited_iff (h : Finished executions tid code noexecyields g f n) {x : ExecPoint} :
    x ∈ (Traversal.traverse g noexecyields n).visited ↔
      Relation.ReflTransGen (fun a b => b ∈ g.succs noexecyields a) (f.ep tid) x := by
  rw [← h.first]
  exact Traversal.mem_visited_iff h.done

theorem closed (h : Finished executions tid code noexecyields g f n) :
    ∀ r ∈ (Traversal.traverse g noexecyields n).visited, ∀ y ∈ g.succs noexecyields r,
      y ∈ (Traversal.traverse g noexecyields n).visited :=
  Traversal.visited_closed h.done

theorem first_visited (h : Finished executions tid code noexecyields g f n) :
    f.ep tid ∈ (Traversal.traverse g noexecyields n).visited :=
  h.mem_visited_iff.mpr .refl

theorem inOrder (h : Finished executions tid code noexecyields g f n) :
    (Traversal.traverse g noexecyields n).visited.Pairwise InOrder :=
  (Traversal.visited_inOrder h.shaped h.first noexecyields n).1

theorem nodup (h : Finished executions tid code noexecyields g f n) :
    (Traversal.traverse g noexecyields n).visited.Nodup := by
  apply List.nodup_iff_pairwise_ne.mpr
  apply h.inOrder.imp
  rintro a b hab rfl
  exact not_inOrder_self a hab

theorem log_subset (h : Finished executions tid code noexecyields g f n)
    (hrun : RecordedRun tid code g calls) :
    ∀ e ∈ Control.start.log tid calls, e ∈ threadLog executions tid := by
  obtain ⟨calls', hcalls', -⟩ := h.issued
  have hne := h.thread.starts calls' hcalls'
  apply h.thread.log_subset h.thread.rooted hrun.runs hrun.rooted
  · intro a ha
    exact Recorded.mem_threadLog_of_ne (h.logged.mem (.value (a.1.ep tid) a.2) (hrun.taken a ha))
      rfl (by simp)
  · exact ⟨Control.start, threadCalls tid calls', ⟨rfl, rfl⟩, h.thread.runs calls' hcalls' hne,
      h.thread.rooted calls' hcalls', fun e he => ⟨calls', hcalls', he⟩⟩

/-- A run comes to the record of the first MCID, with no branch before it. -/
theorem exists_first (h : Finished executions tid code noexecyields g f n)
    (hrun : RecordedRun tid code g calls) : ∃ pre call post et, calls = pre ++ call :: post ∧
      IssuesFirst pre call f et := by
  obtain ⟨calls', hcalls', pre, call, post, et, hsplit, hfirst⟩ := h.issued
  have hruns' := h.thread.runs calls' hcalls' (h.thread.starts calls' hcalls')
  rw [hsplit] at hruns'
  exact hfirst.exists_alike hruns' hrun.runs

theorem branches_first (h : Finished executions tid code noexecyields g f n) :
    f.path.branches = [] := by
  obtain ⟨calls, hcalls, pre, call, post, et, hsplit, hfirst⟩ := h.issued
  have hruns := h.thread.runs calls hcalls (h.thread.starts calls hcalls)
  rw [hsplit] at hruns
  exact hfirst.branches_eq_nil hruns

/-- From the first MCID on, the traversal visits what a run notes, up to the exit of a loop around
the first record. -/
theorem mem_visited_of_trace (h : Finished executions tid code noexecyields g f n)
    (hrun : RecordedRun tid code g calls) {note : Site × EventType}
    (hnote : note ∈ Control.start.trace calls) (hfrom : f.values ≤ note.1.values)
    (hbound : ∀ l ∈ f.path.loops, note.1.values < l.next.values) :
    note.1.ep tid ∈ (Traversal.traverse g noexecyields n).visited := by
  obtain ⟨pre, call, post, et, rfl, hfirst⟩ := h.exists_first hrun
  exact hfirst.mem_of_trace (V := {x | x ∈ (Traversal.traverse g noexecyields n).visited})
    h.thread.toRecorded h.logged h.closed h.yields hrun.runs (h.log_subset hrun)
    h.first_visited hnote
    hfrom hbound

end Finished

end SatCheck
