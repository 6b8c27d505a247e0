import SatCheck.ThreadCode
/-!
# The graph of a code

The records of a thread whose runs all follow one code, as they are in the graph that any
sequence of runs leaves.  Other threads run beside it as they like.
-/

namespace SatCheck

def GraphEntry.key : GraphEntry → ExecPoint
  | .record ep _ | .next ep _ | .child ep _ | .value ep _ => ep
  | .first branch _ => branch.record

namespace Control

/-- A thread only links its own records, and the parent that started it. -/
theorem key_entries {tid : Nat} {k : Control} {call : Annotation} {e : GraphEntry}
    (h : e ∈ k.entries tid call) : e.key.tid = tid ∨
      ∃ parent, call = .threadStart (some parent) ∧ e = .child parent (k.site.ep tid) := by
  have harrive : ∀ e ∈ k.arrive tid, e.key.tid = tid := by
    intro e he
    unfold arrive at he
    cases hprev : k.prev with
    | some p =>
      simp only [hprev, List.mem_singleton] at he
      subst he
      rfl
    | none =>
      simp only [hprev, List.mem_map, Option.mem_toList] at he
      obtain ⟨branch, hbranch, rfl⟩ := he
      exact branchOf_tid hbranch
  rcases List.mem_append.mp h with h | h
  · obtain ⟨note, -, rfl⟩ := List.mem_map.mp h
    exact Or.inl rfl
  · cases call with
    | event et numinputs => exact Or.inl (harrive e h)
    | threadCreate => exact Or.inl (harrive e h)
    | branchDir direction =>
      rcases List.mem_append.mp h with h | h
      · exact Or.inl (harrive e h)
      · obtain rfl := List.mem_singleton.mp h
        exact Or.inl rfl
    | merge mcid =>
      obtain ⟨b, -, rfl⟩ := List.mem_map.mp h
      exact Or.inl rfl
    | enterLoop =>
      rcases List.mem_append.mp h with h | h
      · exact Or.inl (harrive e h)
      · obtain rfl := List.mem_singleton.mp h
        exact Or.inl rfl
    | exitLoop =>
      obtain ⟨l, -, h⟩ := List.mem_flatMap.mp h
      rcases List.mem_append.mp h with h | h
      · exact Or.inl (harrive e h)
      · left
        rcases List.mem_cons.mp h with rfl | h
        · rfl
        · obtain rfl := List.mem_singleton.mp h
          rfl
    | loopIterate => simp [links] at h
    | threadStart parent =>
      rcases List.mem_append.mp h with h | h
      · exact Or.inl (harrive e h)
      · obtain ⟨p, hp, rfl⟩ := List.mem_map.mp h
        obtain rfl := Option.mem_toList.mp hp
        exact Or.inr ⟨p, rfl, rfl⟩

theorem child_entries {tid : Nat} {k : Control} {call : Annotation} {a c : ExecPoint}
    (h : .child a c ∈ k.entries tid call) :
    (call = .enterLoop ∧ a = k.site.ep tid ∧ c = k.site.body.ep tid) ∨
      (call = .threadStart (some a) ∧ c = k.site.ep tid) := by
  have harrive : .child a c ∉ k.arrive tid := by
    unfold arrive
    split <;> simp
  rcases List.mem_append.mp h with h | h
  · simp at h
  · cases call with
    | event et numinputs => exact absurd h harrive
    | threadCreate => exact absurd h harrive
    | branchDir direction => simp [links, harrive] at h
    | merge mcid => simp [links] at h
    | enterLoop =>
      simp only [links, List.mem_append, harrive, false_or, List.mem_singleton,
        GraphEntry.child.injEq] at h
      exact Or.inl ⟨rfl, h⟩
    | exitLoop => simp [links, harrive] at h
    | loopIterate => simp [links] at h
    | threadStart parent =>
      simp only [links, List.mem_append, harrive, false_or, List.mem_map, Option.mem_toList,
        GraphEntry.child.injEq] at h
      obtain ⟨p, hp, rfl, hc⟩ := h
      right
      rw [hp]
      exact ⟨rfl, hc.symm⟩

theorem mem_log {tid : Nat} {k : Control} {calls : List Annotation} {e : GraphEntry}
    (h : e ∈ k.log tid calls) : ∃ k' : Control, ∃ call ∈ calls, e ∈ k'.entries tid call ∧
      ∀ e' ∈ k'.entries tid call, e' ∈ k.log tid calls := by
  induction calls generalizing k with
  | nil => simp [log] at h
  | cons call calls ih =>
    rcases List.mem_append.mp h with h | h
    · exact ⟨k, call, by simp, h, fun e' he' => List.mem_append_left _ he'⟩
    · obtain ⟨k', call', hmem, h, hall⟩ := ih h
      exact ⟨k', call', by simp [hmem], h, fun e' he' => List.mem_append_right _ (hall e' he')⟩

theorem mem_threadCalls {tid : Nat} {call : Annotation} {calls : List (Nat × Annotation)} :
    call ∈ threadCalls tid calls ↔ (tid, call) ∈ calls := by
  simp only [threadCalls, List.mem_filterMap, Option.ite_none_right_eq_some, Option.some.injEq]
  constructor
  · rintro ⟨⟨t, call⟩, hmem, rfl, rfl⟩
    exact hmem
  · exact fun hmem => ⟨_, hmem, rfl, rfl⟩

end Control

/-- The parent of a thread start has a THREADCREATE record of the run. -/
theorem Threads.WellNested.created {ts : Threads} {calls : List (Nat × Annotation)}
    (h : ts.WellNested calls) {t : Nat} {parent : ExecPoint}
    (hmem : (t, .threadStart (some parent)) ∈ calls) :
    parent ∈ ts.created ∨ .record parent .threadcreate ∈ ts.log calls := by
  induction calls generalizing ts with
  | nil => simp at hmem
  | cons call calls ih =>
    obtain ⟨tid, call⟩ := call
    obtain ⟨hlegal, hrest⟩ := h
    rcases List.mem_cons.mp hmem with heq | hmem
    · obtain ⟨rfl, rfl⟩ := Prod.mk.inj heq
      exact Or.inl (hlegal.2 parent rfl)
    · rw [Threads.log_cons]
      rcases ih hrest hmem with hcreated | hlog
      · cases call with
        | threadCreate =>
          rcases List.mem_append.mp hcreated with hcreated | hcreated
          · exact Or.inl hcreated
          · obtain rfl := List.mem_singleton.mp hcreated
            exact Or.inr (Or.inl (by simp [Control.entries, Control.notes]))
        | _ => exact Or.inl hcreated
      · exact Or.inr (Or.inr hlog)

/-- Well nested runs in which a thread, where it runs, follows a code to the end. -/
structure Recorded (executions : List (List (Nat × Annotation))) (tid : Nat) (code : Code) :
    Prop where
  nested : ∀ calls ∈ executions, Threads.start.WellNested calls
  runs : ∀ calls ∈ executions, threadCalls tid calls ≠ [] →
    code.Runs Control.start (threadCalls tid calls)

def threadLog (executions : List (List (Nat × Annotation))) (tid : Nat) : Set GraphEntry :=
  {e | ∃ calls ∈ executions, e ∈ Control.start.log tid (threadCalls tid calls)}

namespace Recorded

variable {executions : List (List (Nat × Annotation))} {tid : Nat} {code : Code}

theorem threadLog_subset {e : GraphEntry} (he : e ∈ threadLog executions tid) :
    e ∈ Recorder.runsLog executions := by
  obtain ⟨calls, hcalls, he⟩ := he
  exact ⟨calls, hcalls, tid, he⟩

theorem leaves (h : Recorded executions tid code) {e : GraphEntry}
    (he : e ∈ threadLog executions tid) : code.Leaves tid e := by
  obtain ⟨calls, hcalls, he⟩ := he
  by_cases hnil : threadCalls tid calls = []
  · rw [hnil] at he
    simp [Control.log] at he
  · exact Code.reaches_start.log (h.runs calls hcalls hnil) e he

private theorem mem_threadLog {e : GraphEntry} (he : e ∈ Recorder.runsLog executions)
    (hkey : e.key.tid = tid) : e ∈ threadLog executions tid ∨ ∃ a c, e = .child a c := by
  obtain ⟨calls, hcalls, t, he⟩ := he
  obtain ⟨k, call, -, hentry, -⟩ := Control.mem_log he
  rcases Control.key_entries hentry with ht | ⟨parent, -, rfl⟩
  · left
    obtain rfl : t = tid := ht.symm.trans hkey
    exact ⟨calls, hcalls, he⟩
  · exact Or.inr ⟨_, _, rfl⟩

theorem mem_threadLog_of_ne {e : GraphEntry} (he : e ∈ Recorder.runsLog executions)
    (hkey : e.key.tid = tid) (hchild : ∀ a c, e ≠ .child a c) : e ∈ threadLog executions tid :=
  (mem_threadLog he hkey).resolve_right fun ⟨a, c, h⟩ => hchild a c h

theorem child_unique (h : Recorded executions tid code) {s : Site} {c : ExecPoint}
    (htype : code.type s = some .loopenter)
    (hc : .child (s.ep tid) c ∈ Recorder.runsLog executions) : c = s.body.ep tid := by
  obtain ⟨calls, hcalls, t, he⟩ := hc
  obtain ⟨k, call, hcall, hentry, -⟩ := Control.mem_log he
  rcases Control.child_entries hentry with ⟨-, hs, hc⟩ | ⟨rfl, -⟩
  · obtain ⟨rfl, rfl⟩ := Site.ep_inj.mp hs
    exact hc
  · have hmem := Control.mem_threadCalls.mp hcall
    rcases (h.nested calls hcalls).created hmem with hnone | hrecord
    · simp [Threads.start] at hnone
    · have hown : .record (s.ep tid) .threadcreate ∈ threadLog executions tid :=
        mem_threadLog_of_ne ⟨calls, hcalls, hrecord⟩ rfl (by simp)
      have hcreate := (h.leaves hown).type
      rw [htype] at hcreate
      simp at hcreate

/-! ## Reading the graph -/

variable {g : EventGraph}

theorem getType (h : Recorded executions tid code) (hg : g.Logged (Recorder.runsLog executions))
    {s : Site} {et : EventType} (hs : .record (s.ep tid) et ∈ threadLog executions tid) :
    g.getType (s.ep tid) = some et ∧ code.type s = some et := by
  have htype := (h.leaves hs).type
  refine ⟨hg.getType (threadLog_subset hs) ?_, htype⟩
  intro et' het'
  have := (h.leaves (mem_threadLog_of_ne het' rfl (by simp))).type
  rw [htype, Option.some_inj] at this
  exact this.symm

theorem getNextRecord (h : Recorded executions tid code)
    (hg : g.Logged (Recorder.runsLog executions)) {s : Site} {x : ExecPoint}
    (hs : .next (s.ep tid) x ∈ threadLog executions tid) : g.getNextRecord (s.ep tid) = some x := by
  obtain ⟨s', rfl, hnext⟩ := (h.leaves hs).next_site
  apply hg.getNextRecord (threadLog_subset hs)
  intro y hy
  obtain ⟨s'', rfl, hnext'⟩ := (h.leaves (mem_threadLog_of_ne hy rfl (by simp))).next_site
  rw [hnext.unique hnext']

theorem getNextRecord_none (hg : g.Logged (Recorder.runsLog executions)) {s : Site}
    (hs : ∀ x, .next (s.ep tid) x ∉ threadLog executions tid) : g.getNextRecord (s.ep tid) = none :=
  hg.getNextRecord_none fun x hx => hs x (mem_threadLog_of_ne hx rfl (by simp))

theorem getChildRecord (h : Recorded executions tid code)
    (hg : g.Logged (Recorder.runsLog executions)) {s : Site}
    (htype : code.type s = some .loopenter)
    (hs : .child (s.ep tid) (s.body.ep tid) ∈ threadLog executions tid) :
    g.getChildRecord (s.ep tid) = some (s.body.ep tid) :=
  hg.getChildRecord (threadLog_subset hs) fun _ hc => h.child_unique htype hc

theorem firstrecord (h : Recorded executions tid code)
    (hg : g.Logged (Recorder.runsLog executions)) {s : Site} {direction : Nat} {x : ExecPoint}
    (hs : .first ⟨s.ep tid, direction⟩ x ∈ threadLog executions tid) :
    g.firstrecord ⟨s.ep tid, direction⟩ = some x := by
  have hx := (h.leaves hs).first_site.1
  apply hg.firstrecord (threadLog_subset hs)
  intro y hy
  rw [hx, (h.leaves (mem_threadLog_of_ne hy rfl (by simp))).first_site.1]

theorem firstrecord_none (h : Recorded executions tid code)
    (hg : g.Logged (Recorder.runsLog executions)) {s : Site} {direction : Nat}
    (hnone : (code (s.arm direction)).bind (Instruction.type (s.arm direction)) = none) :
    g.firstrecord ⟨s.ep tid, direction⟩ = none := by
  apply hg.firstrecord_none
  intro x hx
  obtain ⟨-, et, het⟩ := (h.leaves (mem_threadLog_of_ne hx rfl (by simp))).first_site
  simp [hnone] at het

end Recorded

end SatCheck
