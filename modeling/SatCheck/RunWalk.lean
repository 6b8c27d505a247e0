import SatCheck.BuildSchedule
import SatCheck.ThreadCoverage
/-!
# The walk of a run

A schedule takes a thread along the records of a run.  All links lead on, so a schedule that follows
them comes to its end.
-/

namespace SatCheck

/-! ## The walk of a run -/

namespace Control

def leftAtMerges : Control → List Annotation → List Site
  | _, [] => []
  | k, call :: calls => k.leavesOpen call ++ leftAtMerges (k.move call) calls

theorem leftAtMerges_subset (k : Control) (calls : List Annotation) :
    k.leftAtMerges calls ⊆ k.leftOpen false calls := by
  induction calls generalizing k with
  | nil => simp [leftAtMerges]
  | cons call calls ih =>
    rw [leftAtMerges, ScheduleBuilder.leftOpen_cons fun _ _ => rfl]
    intro b hb
    rcases List.mem_append.mp hb with hb | hb
    · exact List.mem_append_left _ hb
    · exact List.mem_append_right _ (ih _ hb)

end Control

namespace ScheduleBuilder

variable {executions : List (List (Nat × Annotation))} {tid : Nat} {code : Code} {g : EventGraph}
  {index : ExecPoint → Option Nat} {V : Set ExecPoint} {k : Control}

private theorem mem_of_walks (hclosed : ∀ r ∈ V, ∀ x, step g false index r = some x → x ∈ V)
    {next : Option ExecPoint} {records : List ExecPoint}
    (hwalks : Walks g false index next records) (hnext : ∀ x, next = some x → x ∈ V) :
    (∀ r ∈ records, r ∈ V) ∧ ∀ x, walkTo g false index next records = some x → x ∈ V := by
  induction records generalizing next with
  | nil => exact ⟨by simp, hnext⟩
  | cons record records ih =>
    obtain ⟨rfl, hwalks⟩ := hwalks
    have hrecord := hnext record rfl
    obtain ⟨hrest, hend⟩ := ih hwalks (hclosed record hrecord)
    exact ⟨List.forall_mem_cons.mpr ⟨hrecord, hrest⟩, hend⟩

/-- The walk comes to the records of a run, if no run merges a branch that a merge leaves open. -/
theorem mem_of_run (h : Recorded executions tid code)
    (hg : g.Logged (Recorder.runsLog executions)) (hplaced : g.Placed tid)
    (hclosed : ∀ r ∈ V, ∀ x, step g false index r = some x → x ∈ V) {calls : List Annotation}
    (hreach : code.Reaches k) (hpassed : Passed executions g false index tid k)
    (hruns : code.Runs k calls) (hlog : ∀ e ∈ k.log tid calls, e ∈ threadLog executions tid)
    (htaken : ∀ taken ∈ k.taken calls, Gives g index tid taken.1 taken.2)
    (hopen : ∀ b ∈ k.leftAtMerges calls, g.getNextRecord (b.ep tid) = none)
    (hgo : ∀ x, goesOn g false index tid k = some x → x ∈ V) :
    ∀ note ∈ k.trace calls, note.1.ep tid ∈ V := by
  induction calls generalizing k with
  | nil => simp [Control.trace]
  | cons call calls ih =>
    obtain ⟨⟨i, hi, hallows⟩, hlegal, hrest⟩ := hruns
    rw [Control.leftAtMerges, List.forall_mem_append] at hopen
    have hwalks := (walks_notes_iff h hg hplaced hreach hpassed hi hallows hlegal
      fun e he => hlog e (List.mem_append_left _ he)).mpr hopen.1
    obtain ⟨hnotes, hend⟩ := mem_of_walks hclosed hwalks hgo
    rw [walkTo_notes hreach hlegal] at hend
    have hmove := ih (hreach.move hi hallows hlegal)
      (hpassed.step hreach hlegal hlog htaken fun _ _ => rfl) hrest
      (fun e he => hlog e (List.mem_append_right _ he))
      (fun taken htk => htaken taken (taken_subset k call calls htk)) hopen.2 hend
    intro note hnote
    rcases List.mem_append.mp hnote with hnote | hnote
    · exact hnotes _ (List.mem_map.mpr ⟨note, hnote, rfl⟩)
    · exact hmove note hnote

theorem mem_of_run_from (h : Recorded executions tid code)
    (hg : g.Logged (Recorder.runsLog executions)) (hplaced : g.Placed tid)
    (hclosed : ∀ r ∈ V, ∀ x, step g false index r = some x → x ∈ V) {pre post : List Annotation}
    (hreach : code.Reaches k) (hpassed : Passed executions g false index tid k)
    (hruns : code.Runs k (pre ++ post))
    (hlog : ∀ e ∈ k.log tid (pre ++ post), e ∈ threadLog executions tid)
    (htaken : ∀ taken ∈ k.taken (pre ++ post), Gives g index tid taken.1 taken.2)
    (hopen : ∀ b ∈ k.leftAtMerges (pre ++ post), g.getNextRecord (b.ep tid) = none)
    (hsite : (k.after pre).site.ep tid ∈ V)
    (harrive : ∀ e ∈ (k.after pre).arrive tid, e ∈ threadLog executions tid) :
    ∀ note ∈ (k.after pre).trace post, note.1.ep tid ∈ V := by
  induction pre generalizing k with
  | nil =>
    apply mem_of_run h hg hplaced hclosed hreach hpassed hruns hlog htaken hopen
    rw [goesOn_arrive h hg hplaced hreach hpassed harrive]
    rintro x hx
    rwa [← Option.some_inj.mp hx]
  | cons call pre ih =>
    obtain ⟨⟨i, hi, hallows⟩, hlegal, hrest⟩ := hruns
    apply ih (hreach.move hi hallows hlegal)
      (hpassed.step hreach hlegal hlog htaken fun _ _ => rfl) hrest
      (fun e he => hlog e (List.mem_append_right _ he))
      (fun taken htk => htaken taken (taken_subset k call (pre ++ post) htk))
      (fun b hb => hopen b (List.mem_append_right _ hb)) hsite harrive

private theorem mem_of_step {next : Option ExecPoint} {records : List ExecPoint}
    (hwalks : Walks g false index next records) (hend : walkTo g false index next records = none) :
    ∀ r ∈ records, ∀ x, step g false index r = some x → x ∈ records := by
  induction records generalizing next with
  | nil => simp
  | cons record records ih =>
    obtain ⟨-, hwalks⟩ := hwalks
    intro r hr x hx
    rcases List.mem_cons.mp hr with rfl | hr
    · cases records with
      | nil => simp [walkTo, hx] at hend
      | cons record' records =>
        obtain rfl := Option.some_inj.mp (hx.symm.trans hwalks.1)
        simp
    · exact List.mem_cons_of_mem _ (ih hwalks hend r hr x hx)

/-- The walk does not leave a run, if no run merges a branch that the run leaves open. -/
theorem mem_trace_of_step (h : Recorded executions tid code)
    (hg : g.Logged (Recorder.runsLog executions)) (hplaced : g.Placed tid) {calls : List Annotation}
    (hne : calls ≠ []) (hpassed : Passed executions g false index tid Control.start)
    (hruns : code.Runs Control.start calls)
    (hlog : ∀ e ∈ Control.start.log tid calls, e ∈ threadLog executions tid)
    (htaken : ∀ taken ∈ Control.start.taken calls, Gives g index tid taken.1 taken.2)
    (hopen : ∀ b ∈ Control.start.leftOpen false calls, g.getNextRecord (b.ep tid) = none)
    {note : Site × EventType} (hnote : note ∈ Control.start.trace calls) {x : ExecPoint}
    (hx : step g false index (note.1.ep tid) = some x) :
    ∃ note ∈ Control.start.trace calls, note.1.ep tid = x := by
  have hwalk := (walk_iff h hg hplaced (by simp) Code.reaches_start hpassed hruns hlog htaken
    fun hnil => absurd hnil hne).mpr hopen
  rw [← List.append_nil (List.map _ _), walk_append_iff, walk_eq_nil_iff] at hwalk
  have hmem := mem_of_step hwalk.1 hwalk.2 _ (List.mem_map_of_mem hnote) x hx
  exact List.mem_map.mp hmem

end ScheduleBuilder

/-! ## Links lead on -/

theorem Code.Next.values_lt {code : Code} {s s' : Site} (h : code.Next s s') :
    s.values < s'.values := by
  have hlater : ∀ {q : Site}, s.next.Later q → s.values < q.values := by
    intro q hq
    rcases hq.eq_or_values_lt with rfl | hlt
    · exact s.values_lt_next
    · exact s.values_lt_next.trans hlt
  cases h with
  | behind htype hpasses hleads hnotes =>
    exact hlater ((Code.Next.behind htype hpasses hleads hnotes).later (hpasses.ne htype).2.2)
  | merge _ => exact s.values_lt_next
  | label _ => exact s.values_lt_next
  | exit _ hloops => exact (Site.values_lt_loop (by rw [hloops]; exact List.mem_cons_self)).2

theorem Code.Leaves.next_cases {code : Code} {tid : Nat} {a x : ExecPoint}
    (h : code.Leaves tid (.next a x)) :
    ∃ s s' : Site, a = s.ep tid ∧ x = s'.ep tid ∧ code.Next s s' := by
  cases h with
  | next hnext => exact ⟨_, _, rfl, rfl, hnext⟩

theorem Code.Leaves.first_cases {code : Code} {tid : Nat} {branch : EPValue} {x : ExecPoint}
    (h : code.Leaves tid (.first branch x)) :
    ∃ (b : Site) (d : Nat), branch = ⟨b.ep tid, d⟩ ∧ x = (b.arm d).ep tid := by
  cases h with
  | first _ _ => exact ⟨_, _, rfl, rfl⟩

namespace ProgramRuns

variable {executions : List (List (Nat × Annotation))} {main : Nat} {code : Nat → Code}
  {g : EventGraph} {noexecyields : Bool} {index : ExecPoint → Option Nat}

theorem rank_lt_of_holds (h : ProgramRuns executions main code)
    (hg : g.Logged (Recorder.runsLog executions)) {e : GraphEntry} {x : ExecPoint}
    (he : g.Holds e) (hx : e.target? = some x) : e.key.rank < x.rank := by
  obtain ⟨calls, hcalls, t, hlog⟩ := hg.mem e he
  have hleaves := (h.recorded t).leaves ⟨calls, hcalls, hlog⟩
  cases e with
  | next a y =>
    obtain rfl := Option.some_inj.mp hx
    obtain ⟨s, s', rfl, rfl, hnext⟩ := hleaves.next_cases
    simp [GraphEntry.key, Prod.Lex.toLex_lt_toLex, hnext.values_lt]
  | child a y =>
    obtain rfl := Option.some_inj.mp hx
    rcases h.child_site hcalls hlog with ⟨s, -, rfl, rfl⟩ | rfl
    · simp [GraphEntry.key, Prod.Lex.toLex_lt_toLex, s.values_lt_body]
    · have hlt := (h.child_start hg he).1
      simp only [GraphEntry.key, ExecPoint.rank, Prod.Lex.toLex_lt_toLex]
      exact .inl hlt
  | first branch y =>
    obtain rfl := Option.some_inj.mp hx
    obtain ⟨b, d, rfl, rfl⟩ := hleaves.first_cases
    simp [GraphEntry.key, Prod.Lex.toLex_lt_toLex, b.values_lt_arm d]
  | record a et => simp [GraphEntry.target?] at hx
  | value a v => simp [GraphEntry.target?] at hx

theorem rank_lt_of_succs (h : ProgramRuns executions main code)
    (hg : g.Logged (Recorder.runsLog executions)) {a x : ExecPoint}
    (hx : x ∈ g.succs noexecyields a) : a.rank < x.rank := by
  rcases EventGraph.holds_of_succs hx with hchild | ⟨-, hnext⟩ | ⟨v, hfirst⟩
  · exact h.rank_lt_of_holds hg (e := .child a x) hchild rfl
  · exact h.rank_lt_of_holds hg (e := .next a x) hnext rfl
  · exact h.rank_lt_of_holds hg (e := .first ⟨a, v⟩ x) hfirst rfl

/-- What the traversal goes on to lies behind a record in its thread, or begins a younger thread. -/
theorem succs_cases (h : ProgramRuns executions main code)
    (hg : g.Logged (Recorder.runsLog executions)) {a x : ExecPoint}
    (hx : x ∈ g.succs noexecyields a) :
    (∃ s s' : Site, a = s.ep a.tid ∧ x = s'.ep a.tid ∧ EventGraph.Shaped.LeadsInto s s') ∨
      ∃ t, a.tid < t ∧ x = ExecPoint.start t ∧ g.getChildRecord a = some x := by
  rcases EventGraph.holds_of_succs hx with hchild | ⟨hexit, hnext⟩ | ⟨v, hfirst⟩
  · obtain ⟨calls, hcalls, t, hlog⟩ := hg.mem (.child a x) hchild
    rcases h.child_site hcalls hlog with ⟨s, -, rfl, rfl⟩ | rfl
    · exact .inl ⟨s, s.body, rfl, rfl, .inl rfl⟩
    · exact .inr ⟨t, (h.child_start hg hchild).1, rfl, hchild⟩
  · have hleaves : ∀ {e : GraphEntry}, g.Holds e → e.key = a → (∀ b c, e ≠ .child b c) →
        (code a.tid).Leaves a.tid e := fun he hkey hne =>
      (h.recorded a.tid).leaves (Recorded.mem_threadLog_of_ne (hg.mem _ he) (by rw [hkey]) hne)
    obtain ⟨et, het⟩ := EventGraph.Shaped.exists_getType (Or.inl hnext)
    obtain ⟨s, s', ha, rfl, hs'⟩ := (hleaves (e := .next a x) hnext rfl (by simp)).next_cases
    have htype : (code a.tid).type s = some et := by
      have hrecord := hleaves (e := .record a et) het rfl (by simp)
      rw [ha] at hrecord
      exact hrecord.type
    refine .inl ⟨s, s', ha, rfl, .inr (.inr (hs'.later ?_))⟩
    rw [het] at hexit
    rw [htype]
    intro hexit'
    rcases Code.exitType_cases s with hs | hs <;> rw [hs] at hexit' <;>
      exact hexit (by simp [hexit'])
  · obtain ⟨b, d, hb, rfl⟩ := ((h.recorded a.tid).leaves (Recorded.mem_threadLog_of_ne
      (hg.mem (.first ⟨a, v⟩ x) hfirst) rfl (by simp))).first_cases
    exact .inl ⟨b, b.arm d, congrArg EPValue.record hb, rfl, .inr (.inl ⟨d, rfl⟩)⟩

/-! ## What a schedule goes on to -/

private theorem rank_lt_of_getNextRecord (h : ProgramRuns executions main code)
    (hg : g.Logged (Recorder.runsLog executions)) (hplaced : ∀ tid, g.Placed tid) {a x : ExecPoint}
    (hx : ScheduleBuilder.getNextRecord g a = some x) :
    a.rank < x.rank ∧ ∃ b, g.getNextRecord b = some x := by
  by_cases htype : g.getType a = none
  · exfalso
    have hnone : g.records a = none := by simpa [EventGraph.getType] using htype
    simp [ScheduleBuilder.getNextRecord, ScheduleBuilder.getNextRecordFrom, EventGraph.getType,
      EventGraph.getNextRecord, EventGraph.getBranch, hnone] at hx
  · obtain ⟨s, -, hs, -⟩ := hg.exists_trace htype
    generalize a.tid = t at hs
    subst hs
    have hbranches : ∀ b ∈ s.path.branches, g.getType (b.ep t) = some .branchdir :=
      fun b hb => (h.recorded t).getType_branch hg htype hb
    rw [ScheduleBuilder.getNextRecord_eq (hplaced t) htype
      fun b hb => by simp [hbranches b hb]] at hx
    rcases Option.or_eq_some_iff.mp hx with hnext | ⟨-, hnext⟩
    · exact ⟨h.rank_lt_of_holds hg (e := .next (s.ep t) x) hnext rfl, _, hnext⟩
    · obtain ⟨b, hb, hnext⟩ := List.exists_of_findSome?_eq_some hnext
      have hbtype := ((h.recorded t).leaves (Recorded.mem_threadLog_of_ne
        (hg.mem (.record (b.ep t) .branchdir) (hbranches b hb)) rfl (by simp))).type
      obtain rfl := (ScheduleBuilder.next_of_branch (h.recorded t) hg hbtype hnext).2
      refine ⟨?_, _, hnext⟩
      rw [Site.rank_ep, Site.rank_ep, Prod.Lex.toLex_lt_toLex]
      exact .inr ⟨rfl, (Site.values_lt_branch hb).2⟩

theorem rank_lt_of_follows (h : ProgramRuns executions main code)
    (hg : g.Logged (Recorder.runsLog executions)) (hplaced : ∀ tid, g.Placed tid) {a x : ExecPoint}
    (hx : ScheduleBuilder.Follows g noexecyields index a x) :
    a.rank < x.rank ∧ x ∈ targets executions := by
  have hlink : ∀ {e : GraphEntry}, g.Holds e → e.target? = some x → x ∈ targets executions :=
    fun he htarget => EventGraph.mem_targets_of_holds hg he htarget
  have hgo : ScheduleBuilder.getNextRecord g a = some x →
      a.rank < x.rank ∧ x ∈ targets executions := by
    intro hx
    obtain ⟨hlt, b, hnext⟩ := h.rank_lt_of_getNextRecord hg hplaced hx
    exact ⟨hlt, hlink (e := .next b x) hnext rfl⟩
  have hchild : g.getChildRecord a = some x → a.rank < x.rank ∧ x ∈ targets executions :=
    fun hx => ⟨h.rank_lt_of_holds hg (e := .child a x) hx rfl, hlink (e := .child a x) hx rfl⟩
  rcases hx with hstep | ⟨-, hx⟩
  · by_cases hmemory : ScheduleBuilder.processRecord g noexecyields index a = some a
    · rw [ScheduleBuilder.step_of_memory hmemory] at hstep
      exact hgo hstep
    · rw [ScheduleBuilder.step_of_ne hmemory] at hstep
      rcases ScheduleBuilder.processRecord_cases hstep with rfl | hx | ⟨v, hfirst⟩ | hnext
      · exact absurd hstep hmemory
      · exact hchild hx
      · exact ⟨h.rank_lt_of_holds hg (e := .first ⟨a, v⟩ x) hfirst rfl,
          hlink (e := .first ⟨a, v⟩ x) hfirst rfl⟩
      · exact hgo hnext
  · exact hchild hx

theorem child_of_threadcreate (h : ProgramRuns executions main code)
    (hg : g.Logged (Recorder.runsLog executions)) {a x : ExecPoint}
    (htype : g.getType a = some .threadcreate) (hchild : g.getChildRecord a = some x) :
    ∃ t, a.tid < t ∧ x = ExecPoint.start t := by
  obtain ⟨calls, hcalls, t, hlog⟩ := hg.mem (.child a x) hchild
  rcases h.child_site hcalls hlog with ⟨s, hnote, rfl, -⟩ | rfl
  · have henter := ((h.recorded t).getType hg ⟨calls, hcalls, Control.mem_log_of_trace hnote⟩).1
    rw [htype] at henter
    simp at henter
  · exact ⟨t, (h.child_start hg hchild).1, rfl⟩

theorem exists_weighs (h : ProgramRuns executions main code)
    (hg : g.Logged (Recorder.runsLog executions)) (hplaced : ∀ tid, g.Placed tid) :
    ∃ w, ScheduleBuilder.Weighs g noexecyields index w := by
  refine ⟨fun a => 3 ^ (EventGraph.later executions a).length, fun a => ?_⟩
  have hweight : ∀ x, ScheduleBuilder.Follows g noexecyields index a x →
      3 * 3 ^ (EventGraph.later executions x).length ≤
        3 ^ (EventGraph.later executions a).length := by
    intro x hx
    obtain ⟨hlt, htargets⟩ := h.rank_lt_of_follows hg hplaced hx
    rw [← Nat.pow_succ']
    exact Nat.pow_le_pow_right (by omega) (EventGraph.length_later_lt htargets hlt)
  have hpos : 0 < 3 ^ (EventGraph.later executions a).length := Nat.pow_pos (by omega)
  have hnext : 3 * ((ScheduleBuilder.step g noexecyields index a).map
      fun a => 3 ^ (EventGraph.later executions a).length).getD 0 ≤
        3 ^ (EventGraph.later executions a).length := by
    cases hstep : ScheduleBuilder.step g noexecyields index a with
    | none => simp
    | some x => exact hweight x (.inl hstep)
  have hcreated : 3 * ((ScheduleBuilder.createdThread g a).map (ScheduleBuilder.ThreadEntry.weight
      fun a => 3 ^ (EventGraph.later executions a).length)).sum ≤
        3 ^ (EventGraph.later executions a).length := by
    unfold ScheduleBuilder.createdThread
    split_ifs with htype
    · cases hchild : g.getChildRecord a with
      | none => simp [ScheduleBuilder.ThreadEntry.weight]
      | some x =>
        simpa [ScheduleBuilder.ThreadEntry.weight] using hweight x (.inr ⟨htype, hchild⟩)
    · simp
  change _ < 3 ^ (EventGraph.later executions a).length
  omega

end ProgramRuns

end SatCheck
