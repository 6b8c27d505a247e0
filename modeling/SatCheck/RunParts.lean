import SatCheck.ComesTo
/-!
# Parts of a run

What a run does from some call on depends on where the calls before have led, and there only on
the site and the last record.
-/

namespace SatCheck

namespace Control

variable {code : Code} {k k' : Control} {call call' : Annotation} {pre post calls : List Annotation}

def after (k : Control) (calls : List Annotation) : Control := calls.foldl move k

@[simp] theorem after_nil : k.after [] = k := rfl

@[simp] theorem after_cons : k.after (call :: calls) = (k.move call).after calls := rfl

theorem exists_of_mem_log {tid : Nat} {e : GraphEntry} (h : e ∈ k.log tid calls) :
    ∃ pre call post, calls = pre ++ call :: post ∧ e ∈ (k.after pre).entries tid call := by
  induction calls generalizing k with
  | nil => simp [log] at h
  | cons call calls ih =>
    rcases List.mem_append.mp h with h | h
    · exact ⟨[], call, calls, rfl, h⟩
    · obtain ⟨pre, call', post, rfl, hentry⟩ := ih h
      exact ⟨call :: pre, call', post, rfl, hentry⟩

theorem log_append_subset {tid : Nat} {e : GraphEntry} (h : e ∈ (k.after pre).log tid post) :
    e ∈ k.log tid (pre ++ post) := by
  induction pre generalizing k with
  | nil => exact h
  | cons call pre ih => exact List.mem_append_right _ (ih h)

theorem exists_of_mem_trace {note : Site × EventType} (h : note ∈ k.trace calls) :
    ∃ pre call post, calls = pre ++ call :: post ∧ note ∈ (k.after pre).notes call := by
  induction calls generalizing k with
  | nil => simp [trace] at h
  | cons call calls ih =>
    rcases List.mem_append.mp h with h | h
    · exact ⟨[], call, calls, rfl, h⟩
    · obtain ⟨pre, call', post, rfl, hnote⟩ := ih h
      exact ⟨call :: pre, call', post, rfl, hnote⟩

theorem trace_append : k.trace (pre ++ post) = k.trace pre ++ (k.after pre).trace post := by
  induction pre generalizing k with
  | nil => rfl
  | cons call pre ih =>
    show k.notes call ++ (k.move call).trace (pre ++ post) = _
    rw [ih, ← List.append_assoc]
    rfl

/-! ## Taken directions -/

theorem mem_trace_of_taken {a : Site × Nat} (h : a ∈ k.taken calls) :
    (a.1, .branchdir) ∈ k.trace calls := by
  induction calls generalizing k with
  | nil => simp [taken] at h
  | cons call calls ih =>
    cases call with
    | branchDir direction =>
      rcases List.mem_cons.mp h with rfl | h
      · exact List.mem_append_left _ List.mem_cons_self
      · exact List.mem_append_right _ (ih h)
    | _ => exact List.mem_append_right _ (ih h)

theorem exists_taken (hruns : code.Runs k calls) {b : Site}
    (h : (b, .branchdir) ∈ k.trace calls) : ∃ d, (b, d) ∈ k.taken calls := by
  induction calls generalizing k with
  | nil => simp [trace] at h
  | cons call calls ih =>
    obtain ⟨-, hlegal, hrest⟩ := hruns
    rcases List.mem_append.mp h with h | h
    · cases call with
      | branchDir direction =>
        obtain ⟨rfl, -⟩ : b = k.site ∧ EventType.branchdir = .branchdir := by
          simpa [notes] using h
        exact ⟨direction, List.mem_cons_self⟩
      | event et numinputs =>
        obtain ⟨-, rfl⟩ : b = k.site ∧ EventType.branchdir = et := by simpa [notes] using h
        exact hlegal.elim
      | exitLoop =>
        obtain ⟨l, loops, hloops, -⟩ := hlegal.exists_loop
        have hexit : b = k.site ∧ EventType.branchdir = k.site.exitType := by
          simpa [notes, hloops] using h
        exact absurd hexit.2.symm (Code.exitType_ne k.site).1
      | _ => simp [notes] at h
    · obtain ⟨d, hd⟩ := ih hrest h
      exact ⟨d, ScheduleBuilder.taken_subset k call calls hd⟩

/-- Around a direction that a run takes, the run has taken all directions. -/
theorem arms_of_taken (hruns : code.Runs start calls) {b : Site} {d : Nat}
    (h : (b, d) ∈ start.taken calls) {a : Site × Nat} (ha : a ∈ b.path.arms) :
    a ∈ start.taken calls := by
  have harms := arms_of_trace hruns (mem_trace_of_taken h) ha
  simpa [start, Site.start, Path.arms] using harms

/-! ## Order -/

theorem values_after (hruns : code.Runs k (pre ++ post)) :
    k.site.values ≤ (k.after pre).site.values ∧
      ∀ note ∈ k.trace pre, note.1.values < (k.after pre).site.values := by
  induction pre generalizing k with
  | nil => exact ⟨le_rfl, by simp [trace]⟩
  | cons call pre ih =>
    obtain ⟨-, hlegal, hrest⟩ := hruns
    obtain ⟨-, hnotes, hmove⟩ := notes_sorted hlegal
    obtain ⟨hle, hbefore⟩ := ih hrest
    refine ⟨hmove.le.trans hle, fun note hnote => ?_⟩
    rcases List.mem_append.mp hnote with hnote | hnote
    · exact (hnotes note hnote).2.trans_le hle
    · exact hbefore note hnote

end Control

namespace Code

variable {code : Code} {k : Control} {pre post calls : List Annotation} {call : Annotation}

theorem Runs.after (h : code.Runs k (pre ++ post)) : code.Runs (k.after pre) post := by
  induction pre generalizing k with
  | nil => exact h
  | cons call pre ih => exact ih h.2.2

theorem Reaches.after (hreach : code.Reaches k) (h : code.Runs k (pre ++ post)) :
    code.Reaches (k.after pre) := by
  induction pre generalizing k with
  | nil => exact hreach
  | cons call pre ih =>
    obtain ⟨⟨i, hi, hallows⟩, hlegal, hrest⟩ := h
    exact ih (hreach.move hi hallows hlegal) hrest

end Code

/-! ## Runs alike -/

namespace Control

variable {code : Code} {k k' : Control} {call call' : Annotation} {calls calls' : List Annotation}
  {tid : Nat}

def Alike (k k' : Control) : Prop := k.site = k'.site ∧ k.prev = k'.prev

def Rooted (calls : List Annotation) : Prop := ∀ call ∈ calls, ∀ p, call ≠ .threadStart (some p)

theorem Alike.arrive (h : Alike k k') : k.arrive tid = k'.arrive tid := by
  unfold Control.arrive
  rw [h.1, h.2]

theorem Alike.step (h : Alike k k') {i : Instruction} (hallows : i.Allows k call)
    (hallows' : i.Allows k' call') :
    (i = .branch ∧ ∃ d d', call = .branchDir d ∧ call' = .branchDir d') ∨
      i ≠ .branch ∧ k.notes call = k'.notes call' ∧ Alike (k.move call) (k'.move call') := by
  obtain ⟨hsite, hprev⟩ := h
  cases i <;> cases call <;> simp only [Instruction.Allows] at hallows <;> cases call' <;>
    simp only [Instruction.Allows] at hallows'
  case branch.branchDir.branchDir d d' => exact .inl ⟨rfl, d, d', rfl, rfl⟩
  case event.event.event et numinputs et' numinputs' et'' numinputs'' =>
    obtain ⟨rfl, rfl⟩ := hallows
    obtain ⟨rfl, rfl⟩ := hallows'
    exact .inr ⟨by simp, by simp [notes, hsite], by simp [Alike, move, behind, hsite]⟩
  case merge.merge.merge b mcid mcid' =>
    exact .inr ⟨by simp, by simp [notes, hallows, hallows'],
      by simp [Alike, move, behind, hallows, hallows']⟩
  case enterLoop.enterLoop.enterLoop =>
    exact .inr ⟨by simp, by simp [notes, hsite], by simp [Alike, move, behind, hsite]⟩
  case exitLoop.exitLoop.exitLoop =>
    refine .inr ⟨by simp, by simp [notes, hsite], ?_⟩
    unfold Alike move
    rw [hsite]
    cases k'.site.path.loops.head? with
    | none => exact ⟨hsite, hprev⟩
    | some l => exact ⟨rfl, rfl⟩
  case loopIterate.loopIterate.loopIterate =>
    exact .inr ⟨by simp, by simp [notes], by simp [Alike, move, hsite, hprev]⟩
  case threadCreate.threadCreate.threadCreate =>
    exact .inr ⟨by simp, by simp [notes, hsite], by simp [Alike, move, behind, hsite]⟩
  case threadStart.threadStart.threadStart parent parent' =>
    exact .inr ⟨by simp, by simp [notes, hsite], by simp [Alike, move, behind, hsite]⟩

/-- Apart from the directions, calls of a thread that no other thread has created leave the same. -/
theorem Alike.entries (h : Alike k k') {i : Instruction} (hbranch : i ≠ .branch)
    (hallows : i.Allows k call) (hallows' : i.Allows k' call')
    (hroot : ∀ p, call ≠ .threadStart (some p)) (hroot' : ∀ p, call' ≠ .threadStart (some p)) :
    k.entries tid call = k'.entries tid call' := by
  have harrive : k.arrive tid = k'.arrive tid := h.arrive
  obtain ⟨hsite, -⟩ := h
  cases i <;> cases call <;> simp only [Instruction.Allows] at hallows <;> cases call' <;>
    simp only [Instruction.Allows] at hallows'
  case branch.branchDir.branchDir d d' => exact absurd rfl hbranch
  case event.event.event et numinputs et' numinputs' et'' numinputs'' =>
    obtain ⟨rfl, rfl⟩ := hallows
    obtain ⟨rfl, rfl⟩ := hallows'
    simp [Control.entries, notes, links, hsite, harrive]
  case merge.merge.merge b mcid mcid' => simp [Control.entries, notes, links, hallows, hallows']
  case enterLoop.enterLoop.enterLoop => simp [Control.entries, notes, links, hsite, harrive]
  case exitLoop.exitLoop.exitLoop => simp [Control.entries, notes, links, hsite, harrive]
  case loopIterate.loopIterate.loopIterate => simp [Control.entries, notes, links]
  case threadCreate.threadCreate.threadCreate =>
    simp [Control.entries, notes, links, hsite, harrive]
  case threadStart.threadStart.threadStart parent parent' =>
    cases parent with
    | some p => exact absurd rfl (hroot p)
    | none =>
      cases parent' with
      | some p => exact absurd rfl (hroot' p)
      | none => simp [Control.entries, notes, links, hsite, harrive]

theorem Rooted.head (h : Rooted (call :: calls)) : ∀ p, call ≠ .threadStart (some p) :=
  h call List.mem_cons_self

theorem Rooted.tail (h : Rooted (call :: calls)) : Rooted calls :=
  fun call hcall => h call (List.mem_cons_of_mem _ hcall)

theorem Alike.exists_after {pre post : List Annotation} (h : Alike k k')
    (hruns : code.Runs k calls) (hruns' : code.Runs k' (pre ++ call' :: post))
    (hbranch : ∀ d, .branchDir d ∉ pre) :
    ∃ pre' call post', calls = pre' ++ call :: post' ∧ Alike (k.after pre') (k'.after pre) ∧
      ∀ d, .branchDir d ∉ pre' := by
  induction pre generalizing k k' calls with
  | nil =>
    obtain ⟨⟨i, hi, -⟩, -⟩ := hruns'
    cases calls with
    | nil =>
      have hend : code k.site = none := hruns
      simp [h.1, hi] at hend
    | cons call calls => exact ⟨[], call, calls, rfl, h, by simp⟩
  | cons call' pre ih =>
    obtain ⟨⟨i', hi', hallows'⟩, -, hrest'⟩ := hruns'
    cases calls with
    | nil =>
      have hend : code k.site = none := hruns
      simp [h.1, hi'] at hend
    | cons call calls =>
      obtain ⟨⟨i, hi, hallows⟩, -, hrest⟩ := hruns
      rw [h.1, hi', Option.some_inj] at hi
      subst hi
      have hother : ∀ d, call ≠ .branchDir d := by
        rintro d rfl
        cases i' <;> simp only [Instruction.Allows] at hallows
        cases call' <;> simp only [Instruction.Allows] at hallows'
        exact hbranch _ List.mem_cons_self
      rcases h.step hallows hallows' with ⟨-, d, d', rfl, -⟩ | ⟨-, -, hmove⟩
      · exact absurd rfl (hother d)
      · obtain ⟨pre', call', post', rfl, halike, hearly⟩ := ih hmove hrest hrest'
          fun d hd => hbranch d (List.mem_cons_of_mem _ hd)
        refine ⟨call :: pre', call', post', rfl, halike, fun d hd => ?_⟩
        rcases List.mem_cons.mp hd with rfl | hd
        · exact hother d rfl
        · exact hearly d hd

theorem exists_of_value {b : Site} {d : Nat} (h : .value (b.ep tid) d ∈ k.log tid calls) :
    ∃ pre post, calls = pre ++ .branchDir d :: post ∧ (k.after pre).site = b := by
  obtain ⟨pre, call, post, rfl, he⟩ := exists_of_mem_log h
  have harrive : .value (b.ep tid) d ∉ (k.after pre).arrive tid := by
    unfold arrive
    split <;> simp
  cases call with
  | branchDir direction =>
    obtain ⟨rfl, rfl⟩ : b = (k.after pre).site ∧ d = direction := by
      simpa [entries, notes, links, harrive] using he
    exact ⟨pre, post, rfl, rfl⟩
  | _ => simp [entries, notes, links, harrive] at he

end Control

theorem Recorded.log_subset {executions : List (List (Nat × Annotation))} {tid : Nat} {code : Code}
    {k : Control} {calls : List Annotation} (h : Recorded executions tid code)
    (hrooted : ∀ calls ∈ executions, Control.Rooted (threadCalls tid calls))
    (hruns : code.Runs k calls) (hroot : Control.Rooted calls)
    (htaken : ∀ a ∈ k.taken calls, .value (a.1.ep tid) a.2 ∈ threadLog executions tid)
    (hbefore : ∃ k' calls', Control.Alike k k' ∧ code.Runs k' calls' ∧ Control.Rooted calls' ∧
      ∀ e ∈ k'.log tid calls', e ∈ threadLog executions tid) :
    ∀ e ∈ k.log tid calls, e ∈ threadLog executions tid := by
  induction calls generalizing k with
  | nil => simp [Control.log]
  | cons call calls ih =>
    obtain ⟨⟨i, hi, hallows⟩, -, hrest⟩ := hruns
    obtain ⟨k', calls', halike, hruns', hroot', hlog⟩ := hbefore
    cases calls' with
    | nil =>
      have hend : code k'.site = none := hruns'
      simp [← halike.1, hi] at hend
    | cons call' calls' =>
      obtain ⟨⟨i', hi', hallows'⟩, -, hrest'⟩ := hruns'
      rw [← halike.1, hi, Option.some_inj] at hi'
      subst hi'
      have hentries : ∀ e ∈ k'.entries tid call', e ∈ threadLog executions tid :=
        fun e he => hlog e (List.mem_append_left _ he)
      have htail := ih hrest hroot.tail
        fun a ha => htaken a (ScheduleBuilder.taken_subset k call calls ha)
      intro e he
      rcases halike.step hallows hallows' with ⟨-, d, d', rfl, rfl⟩ | ⟨hbranch, -, hmove⟩
      · -- another run has taken the direction
        have hvalue := htaken (k.site, d) List.mem_cons_self
        obtain ⟨calls'', hcalls'', hlog''⟩ := hvalue
        obtain ⟨pre, post, heq, hsite⟩ := Control.exists_of_value hlog''
        have hne : threadCalls tid calls'' ≠ [] := by simp [heq]
        have hruns'' := h.runs calls'' hcalls'' hne
        have hrooted'' := hrooted calls'' hcalls''
        rw [heq] at hruns'' hrooted''
        rcases List.mem_append.mp he with he | he
        · have hrecord : e = .value (k.site.ep tid) d ∨ e ∈ k'.entries tid (.branchDir d') := by
            simp only [Control.entries, Control.notes, Control.links, halike.1, halike.arrive,
              List.mem_append, List.mem_singleton] at he ⊢
            tauto
          rcases hrecord with rfl | hrecord
          · exact ⟨calls'', hcalls'', hlog''⟩
          · exact hentries e hrecord
        · apply htail _ e he
          refine ⟨(Control.start.after pre).move (.branchDir d), post, ?_, hruns''.after.2.2, ?_,
            ?_⟩
          · simp [Control.Alike, Control.move, hsite]
          · exact fun call hcall => hrooted'' call (by simp [hcall])
          · intro e he
            refine ⟨calls'', hcalls'', ?_⟩
            rw [heq]
            exact Control.log_append_subset (List.mem_append_right _ he)
      · rcases List.mem_append.mp he with he | he
        · rw [halike.entries hbranch hallows hallows' hroot.head hroot'.head] at he
          exact hentries e he
        · exact htail ⟨_, calls', hmove, hrest', hroot'.tail,
            fun e he => hlog e (List.mem_append_right _ he)⟩ e he

/-! ## Entries of a run -/

namespace Control

variable {code : Code} {k : Control} {pre post calls : List Annotation} {tid : Nat}

theorem mem_log_of_trace {s : Site} {et : EventType} (h : (s, et) ∈ k.trace calls) :
    .record (s.ep tid) et ∈ k.log tid calls := by
  induction calls generalizing k with
  | nil => simp [trace] at h
  | cons call calls ih =>
    rcases List.mem_append.mp h with h | h
    · apply List.mem_append_left
      exact List.mem_append_left _ (List.mem_map.mpr ⟨(s, et), h, rfl⟩)
    · exact List.mem_append_right _ (ih h)

theorem exists_exit (hruns : code.Runs k calls) {s : Site}
    (h : (s, .nonlocaltrans) ∈ k.trace calls) : ∃ pre post l loops,
      calls = pre ++ .exitLoop :: post ∧ (k.after pre).site = s ∧ s.path.loops = l :: loops ∧
        s.exitType = .nonlocaltrans := by
  obtain ⟨pre, call, post, rfl, hnote⟩ := exists_of_mem_trace h
  obtain ⟨-, hlegal, -⟩ := hruns.after
  cases call with
  | exitLoop =>
    obtain ⟨l, loops, hloops, -⟩ := hlegal.exists_loop
    have hexit : s = (k.after pre).site ∧
        EventType.nonlocaltrans = (k.after pre).site.exitType := by
      simpa [notes, hloops] using hnote
    obtain ⟨rfl, htype⟩ := hexit
    exact ⟨pre, post, l, loops, rfl, rfl, hloops, htype.symm⟩
  | event et numinputs =>
    obtain ⟨-, rfl⟩ : s = (k.after pre).site ∧ EventType.nonlocaltrans = et := by
      simpa [notes] using hnote
    exact hlegal.elim
  | _ => simp [notes] at hnote

theorem values_of_exit (hruns : code.Runs k (pre ++ .exitLoop :: post)) {l : Site}
    {loops : List Site} (hloops : (k.after pre).site.path.loops = l :: loops)
    {note : Site × EventType} (hnote : note ∈ k.trace (pre ++ .exitLoop :: post))
    (hlt : (k.after pre).site.values < note.1.values) : l.next.values ≤ note.1.values := by
  have hbefore := (values_after hruns).2
  have hafter := (trace_sorted hruns.after.2.2).2
  rw [trace_append] at hnote
  rcases List.mem_append.mp hnote with hnote | hnote
  · exact absurd (hbefore note hnote) (lt_asymm hlt)
  · rcases List.mem_append.mp hnote with hnote | hnote
    · simp only [notes, hloops, List.head?_cons, Option.toList_some, List.flatMap_cons,
        List.flatMap_nil, List.append_nil, List.mem_cons, List.not_mem_nil, or_false] at hnote
      rcases hnote with rfl | rfl
      · exact absurd hlt (lt_irrefl _)
      · exact le_rfl
    · have hle := hafter note hnote
      simp only [move, hloops, List.head?_cons, behind] at hle
      exact l.next.values_lt_next.le.trans hle

theorem arms_after (hruns : code.Runs k (pre ++ post)) {a : Site × Nat}
    (ha : a ∈ (k.after pre).site.path.arms) : a ∈ k.site.path.arms ∨ a ∈ k.taken pre := by
  induction pre generalizing k with
  | nil => exact .inl ha
  | cons call pre ih =>
    obtain ⟨-, hlegal, hrest⟩ := hruns
    rcases ih hrest ha with ha | ha
    · exact ((arms_move hlegal).2 a ha).imp_right fun htaken => htaken pre
    · exact .inr (ScheduleBuilder.taken_subset k call pre ha)

theorem taken_eq_nil (h : ∀ d, .branchDir d ∉ calls) : k.taken calls = [] := by
  induction calls generalizing k with
  | nil => rfl
  | cons call calls ih =>
    have hrest : ∀ d, .branchDir d ∉ calls := fun d hd => h d (List.mem_cons_of_mem _ hd)
    cases call with
    | branchDir d => exact absurd List.mem_cons_self (h d)
    | _ => exact ih hrest

end Control

theorem Path.exists_arm_of_branches {path : Path} {b : Site} (h : b ∈ path.branches) :
    ∃ d, (b, d) ∈ path.arms := by
  obtain ⟨inner, d, rfl⟩ := Path.exists_of_mem_branches h
  exact ⟨d, Path.mem_arms_append inner List.mem_cons_self⟩

theorem Recorded.getType_branch {executions : List (List (Nat × Annotation))} {tid : Nat}
    {code : Code} {g : EventGraph} (h : Recorded executions tid code)
    (hg : g.Logged (Recorder.runsLog executions)) {s b : Site} (hs : g.getType (s.ep tid) ≠ none)
    (hb : b ∈ s.path.branches) : g.getType (b.ep tid) = some .branchdir := by
  obtain ⟨et, het⟩ := Option.ne_none_iff_exists'.mp hs
  have hmem : .record (s.ep tid) et ∈ threadLog executions tid :=
    Recorded.mem_threadLog_of_ne (hg.mem (.record (s.ep tid) et) het) rfl (by simp)
  obtain ⟨calls, hcalls, hrecord⟩ := hmem
  have hne : threadCalls tid calls ≠ [] := by
    intro hnil
    simp [hnil, Control.log] at hrecord
  obtain ⟨d, hd⟩ := Path.exists_arm_of_branches hb
  have htaken := Control.arms_of_trace (h.runs calls hcalls hne)
    (Control.mem_trace_of_log hrecord) hd
  have htrace := Control.mem_trace_of_taken (htaken.resolve_left (by
    simp [Control.start, Site.start, Path.arms]))
  exact (h.getType hg ⟨calls, hcalls, Control.mem_log_of_trace htrace⟩).1

end SatCheck
