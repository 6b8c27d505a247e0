import SatCheck.Coverage
/-!
# The first MCID

The traversal begins at the record of the first MCID.  Only a branch tells two runs of a thread
apart, and a branch gets an MCID, so all runs of the thread come to that record.
-/

namespace SatCheck

namespace Recorder

def issuesMcid : EventType → Bool
  | .load | .store | .rmw | .function | .equals | .branchdir => true
  | _ => false

/-- `getEPRecord(MCID_FIRST)`: the first record of the run that has got an MCID. -/
def mcidFirst (s : Recorder) : Option ExecPoint :=
  (s.requests.find? fun r => issuesMcid r.event).map Request.ep

end Recorder

/-- A call that gets the first MCID of a run, with the record that it notes. -/
structure IssuesFirst (pre : List Annotation) (call : Annotation) (f : Site) (et : EventType) :
    Prop where
  site : (Control.start.after pre).site = f
  notes : (Control.start.after pre).notes call = [(f, et)]
  kind : Recorder.issuesMcid et = true
  early : ∀ d, .branchDir d ∉ pre

theorem Code.Runs.exists_issuesFirst {code : Code} {calls : List Annotation} {f : Site}
    {et : EventType} (hruns : code.Runs Control.start calls)
    (hfind : ((Control.start.trace calls).find? fun note => Recorder.issuesMcid note.2) =
      some (f, et)) : ∃ pre call post, calls = pre ++ call :: post ∧ IssuesFirst pre call f et := by
  obtain ⟨hkind, early, later, htrace, hearly⟩ := List.find?_eq_some_iff_append.mp hfind
  have hnote : (f, et) ∈ Control.start.trace calls := by simp [htrace]
  obtain ⟨pre, call, post, rfl, hcall⟩ := Control.exists_of_mem_trace hnote
  have hsite : (Control.start.after pre).site = f ∧ (Control.start.after pre).notes call =
      [(f, et)] := by
    obtain ⟨-, hlegal, -⟩ := hruns.after
    cases call with
    | event et' numinputs =>
      obtain ⟨rfl, rfl⟩ : f = (Control.start.after pre).site ∧ et = et' := by
        simpa [Control.notes] using hcall
      exact ⟨rfl, rfl⟩
    | branchDir d =>
      obtain ⟨rfl, rfl⟩ : f = (Control.start.after pre).site ∧ et = .branchdir := by
        simpa [Control.notes] using hcall
      exact ⟨rfl, rfl⟩
    | exitLoop =>
      exfalso
      obtain ⟨l, loops, hloops, -⟩ := hlegal.exists_loop
      simp only [Control.notes, hloops, List.head?_cons, Option.toList_some, List.flatMap_cons,
        List.flatMap_nil, List.append_nil, List.mem_cons, Prod.mk.injEq, List.not_mem_nil,
        or_false] at hcall
      rcases hcall with ⟨-, rfl⟩ | ⟨-, rfl⟩
      · rcases Code.exitType_cases (Control.start.after pre).site with hs | hs <;>
          simp [hs, Recorder.issuesMcid] at hkind
      · simp [Recorder.issuesMcid] at hkind
    | merge mcid =>
      obtain ⟨b, hb, -⟩ := hlegal
      obtain ⟨-, rfl⟩ : f = b.next ∧ et = .merge := by simpa [Control.notes, hb] using hcall
      simp [Recorder.issuesMcid] at hkind
    | enterLoop =>
      simp only [Control.notes, List.mem_cons, Prod.mk.injEq, List.not_mem_nil, or_false] at hcall
      rcases hcall with ⟨-, rfl⟩ | ⟨-, rfl⟩ <;> simp [Recorder.issuesMcid] at hkind
    | loopIterate => simp [Control.notes] at hcall
    | threadCreate =>
      obtain ⟨-, rfl⟩ : f = (Control.start.after pre).site ∧ et = .threadcreate := by
        simpa [Control.notes] using hcall
      simp [Recorder.issuesMcid] at hkind
    | threadStart parent =>
      obtain ⟨-, rfl⟩ : f = (Control.start.after pre).site ∧ et = .threadbegin := by
        simpa [Control.notes] using hcall
      simp [Recorder.issuesMcid] at hkind
  refine ⟨pre, call, post, rfl, hsite.1, hsite.2, hkind, ?_⟩
  -- a branch before would have got the first MCID
  intro d hd
  obtain ⟨pre', post', rfl⟩ := List.append_of_mem hd
  have hbranch : ((Control.start.after pre').site, EventType.branchdir) ∈
      Control.start.trace (pre' ++ .branchDir d :: post') := by
    rw [Control.trace_append]
    exact List.mem_append_right _ (List.mem_append_left _ List.mem_cons_self)
  have hlt := (Control.values_after hruns).2 _ hbranch
  rw [hsite.1] at hlt
  have hall : ((Control.start.after pre').site, EventType.branchdir) ∈
      early ++ (f, et) :: later := by
    rw [← htrace, Control.trace_append]
    exact List.mem_append_left _ hbranch
  rcases List.mem_append.mp hall with hall | hall
  · have := hearly _ hall
    simp [Recorder.issuesMcid] at this
  · rcases List.mem_cons.mp hall with hall | hall
    · rw [(Prod.mk.inj hall).1] at hlt
      exact lt_irrefl _ hlt
    · have hsorted := (Control.trace_sorted hruns).1
      rw [htrace] at hsorted
      have hafter := (List.pairwise_cons.mp (List.pairwise_append.mp hsorted).2.1).1 _ hall
      exact lt_asymm hlt hafter

/-- The calls of a thread get the first MCID of a run at `f`. -/
structure FirstNote (calls : List Annotation) (f : Site) (et : EventType) : Prop where
  trace : ∃ front back, Control.start.trace calls = front ++ (f, et) :: back ∧
    ∀ note ∈ front, Recorder.issuesMcid note.2 = false
  issues : ∃ pre call post, calls = pre ++ call :: post ∧ IssuesFirst pre call f et

theorem FirstNote.values_le {code : Code} {calls : List Annotation} {f : Site} {et : EventType}
    (h : FirstNote calls f et) (hruns : code.Runs Control.start calls) {note : Site × EventType}
    (hnote : note ∈ Control.start.trace calls) (hkind : Recorder.issuesMcid note.2 = true) :
    f.values ≤ note.1.values := by
  obtain ⟨front, back, htrace, hfront⟩ := h.trace
  have hsorted := (Control.trace_sorted hruns).1
  rw [htrace] at hnote hsorted
  rcases List.mem_append.mp hnote with hnote | hnote
  · simp [hfront note hnote] at hkind
  · rcases List.mem_cons.mp hnote with rfl | hnote
    · exact le_rfl
    · exact ((List.pairwise_cons.mp (List.pairwise_append.mp hsorted).2.1).1 note hnote).le

theorem Recorded.exists_firstNote {before : List (List (Nat × Annotation))}
    {calls : List (Nat × Annotation)} {tid : Nat} {code : Code}
    (h : Recorded (before ++ [calls]) tid code) {first : ExecPoint}
    (hfirst : (Recorder.empty.runs (before ++ [calls])).mcidFirst = some first)
    (htid : first.tid = tid) :
    ∃ f et, first = Site.ep tid f ∧ FirstNote (threadCalls tid calls) f et := by
  have hmem : calls ∈ before ++ [calls] := by simp
  have hbefore : ∀ calls ∈ before, Threads.start.WellNested calls :=
    fun calls hcalls => h.nested calls (by simp [hcalls])
  obtain ⟨hlinked, hlogged⟩ := Recorder.logged_runs hbefore
  have hrequests := Recorder.requests_run hlinked hlogged (h.nested calls hmem) tid
  rw [Recorder.runs, List.foldl_append, List.foldl_cons, List.foldl_nil,
    Recorder.mcidFirst] at hfirst
  obtain ⟨r, hr, rfl⟩ := Option.map_eq_some_iff.mp hfirst
  obtain ⟨hkind, early, later, hall, hearly⟩ := List.find?_eq_some_iff_append.mp hr
  have hall : ((Recorder.empty.runs before).run calls).requests = early ++ r :: later := hall
  rw [hall, List.map_append, List.map_cons, List.filter_append,
    List.filter_cons_of_pos (by simpa using htid)] at hrequests
  obtain ⟨front, back, htrace, hfront, hback⟩ := List.map_eq_append_iff.mp hrequests.symm
  obtain ⟨⟨f, et⟩, back', rfl, heq, -⟩ := List.map_eq_cons_iff.mp hback
  obtain ⟨hf, het⟩ := Prod.mk.inj heq
  have hnone : ∀ note ∈ front, Recorder.issuesMcid note.2 = false := by
    intro note hnote
    have hin : (note.1.ep tid, note.2) ∈ (early.map fun r => (r.ep, r.event)).filter
        fun r => r.1.tid = tid := by
      rw [← hfront]
      exact List.mem_map_of_mem hnote
    obtain ⟨r', hr', heq⟩ := List.mem_map.mp (List.mem_filter.mp hin).1
    rw [← (Prod.mk.inj heq).2]
    simpa using hearly r' hr'
  have hruns := h.runs calls hmem (by
    intro hnil
    simp [hnil, Control.trace] at htrace)
  have hfind : ((Control.start.trace (threadCalls tid calls)).find? fun note =>
      Recorder.issuesMcid note.2) = some (f, et) := by
    refine List.find?_eq_some_iff_append.mpr ⟨?_, front, back', htrace, fun note hnote => ?_⟩
    · rw [show et = r.event from het]
      exact hkind
    · simp [hnone note hnote]
  exact ⟨f, et, hf.symm, ⟨front, back', htrace, hnone⟩, hruns.exists_issuesFirst hfind⟩

theorem Recorded.exists_issuesFirst {executions : List (List (Nat × Annotation))} {tid : Nat}
    {code : Code} (h : Recorded executions tid code) {first : ExecPoint}
    (hfirst : (Recorder.empty.runs executions).mcidFirst = some first) (htid : first.tid = tid) :
    ∃ f : Site, first = f.ep tid ∧ ∃ calls ∈ executions, ∃ pre call post et,
      threadCalls tid calls = pre ++ call :: post ∧ IssuesFirst pre call f et := by
  rcases List.eq_nil_or_concat executions with rfl | ⟨before, calls, rfl⟩
  · simp [Recorder.runs, Recorder.empty, Recorder.mcidFirst] at hfirst
  · rw [List.concat_eq_append] at h hfirst ⊢
    obtain ⟨f, et, hf, hnote⟩ := h.exists_firstNote hfirst htid
    obtain ⟨pre, call, post, hsplit, hissues⟩ := hnote.issues
    exact ⟨f, hf, calls, by simp, pre, call, post, et, hsplit, hissues⟩

namespace IssuesFirst

variable {code : Code} {pre post calls : List Annotation} {call : Annotation} {f : Site}
  {et : EventType}

/-- Every run of the thread comes to the record of the first MCID, with no branch before it. -/
theorem exists_alike (h : IssuesFirst pre call f et)
    (hruns' : code.Runs Control.start (pre ++ call :: post))
    (hruns : code.Runs Control.start calls) :
    ∃ pre call post et, calls = pre ++ call :: post ∧ IssuesFirst pre call f et := by
  obtain ⟨pre', call', post', rfl, halike, hearly⟩ := Control.Alike.exists_after ⟨rfl, rfl⟩ hruns
    hruns' h.early
  obtain ⟨⟨i, hi, hallows⟩, -⟩ := hruns.after
  obtain ⟨⟨i', hi', hallows'⟩, -⟩ := hruns'.after
  rw [← halike.1, hi, Option.some_inj] at hi'
  subst hi'
  have hsite : (Control.start.after pre').site = f := halike.1.trans h.site
  rcases halike.step hallows hallows' with ⟨-, d, d', rfl, rfl⟩ | ⟨-, hnotes, -⟩
  · exact ⟨pre', .branchDir d, post', .branchdir, rfl, hsite, by simp [Control.notes, hsite], rfl,
      hearly⟩
  · exact ⟨pre', call', post', et, rfl, hsite, hnotes.trans h.notes, h.kind, hearly⟩

theorem branches_eq_nil (h : IssuesFirst pre call f et)
    (hruns : code.Runs Control.start (pre ++ call :: post)) : f.path.branches = [] := by
  apply List.eq_nil_iff_forall_not_mem.mpr
  intro b hb
  obtain ⟨d, hd⟩ := Path.exists_arm_of_branches hb
  rw [← h.site] at hd
  rcases Control.arms_after hruns hd with hd | hd
  · simp [Control.start, Site.start, Path.arms] at hd
  · simp [Control.taken_eq_nil h.early] at hd

theorem mem_trace_after (h : IssuesFirst pre call f et)
    (hruns : code.Runs Control.start (pre ++ call :: post)) {note : Site × EventType}
    (hnote : note ∈ Control.start.trace (pre ++ call :: post)) (hfrom : f.values ≤ note.1.values) :
    note ∈ (Control.start.after pre).trace (call :: post) := by
  rw [Control.trace_append] at hnote
  rcases List.mem_append.mp hnote with hnote | hnote
  · have hlt := (Control.values_after hruns).2 note hnote
    rw [h.site] at hlt
    exact absurd hfrom (not_le.mpr hlt)
  · exact hnote

theorem arrive_subset (h : IssuesFirst pre call f et) (tid : Nat) :
    (Control.start.after pre).arrive tid ⊆ (Control.start.after pre).entries tid call := by
  have hkind := h.kind
  have hnotes := h.notes
  suffices harrive : (Control.start.after pre).arrive tid ⊆ (Control.start.after pre).links tid call
    from fun e he => List.mem_append_right _ (harrive he)
  cases call with
  | event | threadCreate => exact fun e he => he
  | branchDir | threadStart => exact List.subset_append_left _ _
  | enterLoop => exact List.subset_append_left _ _
  | loopIterate => simp [Control.notes] at hnotes
  | merge mcid =>
    cases hb : (Control.start.after pre).values[mcid]? with
    | none => simp [Control.notes, hb] at hnotes
    | some b =>
      obtain ⟨-, rfl⟩ : b.next = f ∧ EventType.merge = et := by
        simpa [Control.notes, hb] using hnotes
      simp [Recorder.issuesMcid] at hkind
  | exitLoop =>
    cases hloops : (Control.start.after pre).site.path.loops with
    | nil => simp [Control.notes, hloops] at hnotes
    | cons l loops => simp [Control.notes, hloops] at hnotes

/-- A set of records that is closed under the links and has the record of the first MCID has what
the run notes from there on, up to the exit of a loop around that record. -/
theorem mem_of_trace {executions : List (List (Nat × Annotation))} {tid : Nat} {g : EventGraph}
    {noexecyields : Bool} {V : Set ExecPoint} (h : IssuesFirst pre call f et)
    (hrecorded : Recorded executions tid code) (hg : g.Logged (Recorder.runsLog executions))
    (hclosed : ∀ r ∈ V, ∀ y ∈ g.succs noexecyields r, y ∈ V)
    (hyield : noexecyields = true →
      ∀ s numinputs, code s = some (.event .yield numinputs) → code s.next = none)
    (hruns : code.Runs Control.start (pre ++ call :: post))
    (hlog : ∀ e ∈ Control.start.log tid (pre ++ call :: post), e ∈ threadLog executions tid)
    (hf : f.ep tid ∈ V) {note : Site × EventType}
    (hnote : note ∈ Control.start.trace (pre ++ call :: post)) (hfrom : f.values ≤ note.1.values)
    (hbound : ∀ l ∈ f.path.loops, note.1.values < l.next.values) : note.1.ep tid ∈ V := by
  have hbranches := h.branches_eq_nil hruns
  obtain ⟨⟨i, hi, hallows⟩, hlegal, hrest⟩ := hruns.after
  have hreach := Code.reaches_start.after hruns
  have hentries : ∀ e ∈ (Control.start.after pre).entries tid call, e ∈ threadLog executions tid :=
    fun e he => hlog e (Control.log_append_subset (List.mem_append_left _ he))
  rcases List.mem_append.mp (h.mem_trace_after hruns hnote hfrom) with hnote | hnote
  · rw [h.notes, List.mem_singleton] at hnote
    subst hnote
    exact hf
  · have hcovered : Covered executions V tid
        f.path.loops ((Control.start.after pre).move call) := by
      have hplain : (Control.start.after pre).move call = (Control.start.after pre).behind f →
          Covered executions V tid
            f.path.loops ((Control.start.after pre).move call) := by
        intro hmove
        rw [hmove]
        constructor
        · intro p hp
          obtain rfl := Option.some_inj.mp hp
          exact hf
        · simp [Control.behind]
        · simp [Control.behind, Site.next, hbranches]
        · exact fun l hl => .inl hl
      have hsite := h.site
      have hkind := h.kind
      have hnotes := h.notes
      cases call with
      | event et' numinputs => exact hplain (by rw [← hsite]; rfl)
      | threadCreate => exact hplain (by rw [← hsite]; rfl)
      | threadStart parent => exact hplain (by rw [← hsite]; rfl)
      | branchDir d =>
        have hrecord := hentries (.record ((Control.start.after pre).site.ep tid) .branchdir)
          (by simp [Control.entries, Control.notes])
        have hvalue := hentries (.value ((Control.start.after pre).site.ep tid) d)
          (by simp [Control.entries, Control.links])
        rw [hsite] at hrecord hvalue
        constructor
        · simp [Control.move]
        · exact fun _ => .inr ⟨f, d, by rw [← hsite]; rfl, hrecord, hvalue⟩
        · intro b hb
          simp only [Control.move, Site.arm, Path.branches, hsite, hbranches,
            List.mem_singleton] at hb
          rw [show b = f from hb]
          exact hf
        · intro l hl
          left
          simpa [Control.move, Site.arm, Path.loops, hsite] using hl
      | merge mcid =>
        obtain ⟨b, hb, -⟩ := hlegal
        obtain ⟨-, rfl⟩ : b.next = f ∧ EventType.merge = et := by
          simpa [Control.notes, hb] using hnotes
        simp [Recorder.issuesMcid] at hkind
      | enterLoop => simp [Control.notes] at hnotes
      | exitLoop =>
        obtain ⟨l, loops, hloops, -⟩ := hlegal.exists_loop
        simp [Control.notes, hloops] at hnotes
      | loopIterate => simp [Control.notes] at hnotes
    apply hcovered.trace hrecorded hg hclosed hyield
      (hreach.move hi hallows hlegal) hrest _ note hnote hbound
    intro e he
    exact hlog e (Control.log_append_subset (List.mem_append_right _ he))

end IssuesFirst

end SatCheck
