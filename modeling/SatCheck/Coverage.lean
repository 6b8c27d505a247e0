import SatCheck.RunParts
/-!
# What the traversal covers

The traversal follows the links of the records that it visits, so it comes to all that a run notes
behind a visited record, as long as the run does not leave a loop around the first one.
-/

namespace SatCheck

namespace EventGraph

variable {g : EventGraph} {noexecyields : Bool} {record x : ExecPoint} {et : EventType}

theorem mem_succs_child (hchild : g.getChildRecord record = some x) :
    x ∈ g.succs noexecyields record := by
  unfold succs
  split_ifs <;> simp [hchild]

theorem mem_succs_next (htype : g.getType record = some et)
    (hexit : et ≠ .nonlocaltrans ∧ et ≠ .loopexit) (hyield : et = .yield → noexecyields = false)
    (hnext : g.getNextRecord record = some x) : x ∈ g.succs noexecyields record := by
  unfold succs
  split_ifs with hloop hstop hbranch
  · simp [hnext]
  · exfalso
    rw [htype] at hstop
    simp only [Option.some_inj] at hstop
    rcases hstop with rfl | rfl | ⟨rfl, htrue⟩
    · exact hexit.1 rfl
    · exact hexit.2 rfl
    · simp [hyield rfl] at htrue
  · simp [hnext]
  · simp [hnext]

theorem mem_succs_first {value : Nat} (htype : g.getType record = some .branchdir)
    (hvalue : value ∈ g.valuevector record) (hfirst : g.firstrecord ⟨record, value⟩ = some x) :
    x ∈ g.succs noexecyields record := by
  unfold succs
  rw [if_neg (by simp [htype]), if_neg (by simp [htype]), if_pos htype]
  apply List.mem_append_left
  apply List.mem_flatMap.mpr
  exact ⟨value, List.mem_reverse.mpr hvalue, by simp [hfirst]⟩

end EventGraph

theorem Recorded.getType_of_next {executions : List (List (Nat × Annotation))} {tid : Nat}
    {code : Code} {g : EventGraph} (h : Recorded executions tid code)
    (hg : g.Logged (Recorder.runsLog executions)) {s : Site} {et : EventType} {x : ExecPoint}
    (htype : code.type s = some et) (hnext : g.getNextRecord (s.ep tid) = some x) :
    g.getType (s.ep tid) = some et := by
  obtain ⟨et', het'⟩ := EventGraph.Shaped.exists_getType (Or.inl hnext)
  have htype' := (h.leaves (Recorded.mem_threadLog_of_ne
    (hg.mem (.record (s.ep tid) et') het') rfl (by simp))).type
  rw [het', ← htype', htype]

/-- A branch or a loop around a control has been visited, or lies around the first record. -/
structure Covered (executions : List (List (Nat × Annotation))) (V : Set ExecPoint) (tid : Nat)
    (outer : List Site) (k : Control) : Prop where
  prev : ∀ p, k.prev = some p → p.ep tid ∈ V
  begin : k.prev = none → (k.site = Site.start ∧ k.site.ep tid ∈ V) ∨ ∃ (b : Site) (d : Nat),
    k.site = b.arm d ∧ .record (b.ep tid) .branchdir ∈ threadLog executions tid ∧
      .value (b.ep tid) d ∈ threadLog executions tid
  branches : ∀ b ∈ k.site.path.branches, b.ep tid ∈ V
  loops : ∀ l ∈ k.site.path.loops, l ∈ outer ∨ l.ep tid ∈ V

namespace Covered

variable {executions : List (List (Nat × Annotation))} {tid : Nat} {code : Code} {g : EventGraph}
  {noexecyields : Bool} {V : Set ExecPoint} {outer : List Site} {k : Control} {s : Site}
  {call : Annotation} {calls : List Annotation}

theorem behind (h : Covered executions V tid outer k) (hs : s.ep tid ∈ V)
    (hbranches : ∀ b ∈ s.path.branches, b ∈ k.site.path.branches)
    (hloops : ∀ l ∈ s.path.loops, l ∈ k.site.path.loops) :
    Covered executions V tid outer (k.behind s) where
  prev p hp := by
    obtain rfl := Option.some_inj.mp hp
    exact hs
  begin hnone := by simp [Control.behind] at hnone
  branches b hb := h.branches b (hbranches b hb)
  loops l hl := h.loops l (hloops l hl)

private theorem not_yield (hyield : noexecyields = true →
      ∀ s numinputs, code s = some (.event .yield numinputs) → code s.next = none)
    (htype : code.type s = some .yield) {s' : Site} (hleads : code.Leads s s') {i : Instruction}
    (hi : code s' = some i) : noexecyields = false := by
  by_contra hne
  obtain ⟨-, i', hi', htype'⟩ := Code.exists_of_type htype (by decide)
  have hcode : ∃ numinputs, code s = some (.event .yield numinputs) := by
    cases i' with
    | event et numinputs =>
      simp only [Instruction.type] at htype'
      split_ifs at htype'
      obtain rfl := Option.some_inj.mp htype'
      exact ⟨numinputs, hi'⟩
    | exitLoop =>
      have hexit : s.exitType = .yield := Option.some_inj.mp htype'
      rcases Code.exitType_cases s with hs | hs <;> rw [hs] at hexit <;> simp at hexit
    | _ => simp [Instruction.type] at htype'
  obtain ⟨numinputs, hcode⟩ := hcode
  have hnone := hyield (by simpa using hne) s numinputs hcode
  obtain ⟨j, rfl, hiterates⟩ := hleads
  cases j with
  | zero => simp [hnone] at hi
  | succ j => simpa [hnone] using hiterates 0 (Nat.succ_pos j)

theorem site (h : Covered executions V tid outer k) (hrecorded : Recorded executions tid code)
    (hg : g.Logged (Recorder.runsLog executions))
    (hclosed : ∀ r ∈ V, ∀ y ∈ g.succs noexecyields r, y ∈ V)
    (hyield : noexecyields = true →
      ∀ s numinputs, code s = some (.event .yield numinputs) → code s.next = none)
    (hreach : code.Reaches k) {i : Instruction} (hi : code k.site = some i)
    (harrive : ∀ e ∈ k.arrive tid, e ∈ threadLog executions tid) : k.site.ep tid ∈ V := by
  unfold Control.arrive at harrive
  cases hprev : k.prev with
  | some p =>
    obtain ⟨et, htype, hpasses, hleads⟩ := hreach.prev p hprev
    rw [hprev] at harrive
    have hnext := hrecorded.getNextRecord hg (harrive _ (List.mem_singleton_self _))
    apply hclosed _ (h.prev p hprev)
    apply EventGraph.mem_succs_next (hrecorded.getType_of_next hg htype hnext) _ _ hnext
    · constructor <;> rintro rfl <;> exact hpasses
    · rintro rfl
      exact not_yield hyield htype hleads hi
  | none =>
    rw [hprev] at harrive
    rcases h.begin hprev with hstart | ⟨b, d, hb, hrecord, hvalue⟩
    · exact hstart.2
    · have hbranch := h.branches
      rw [hb] at harrive hbranch ⊢
      have hfirst := hrecorded.firstrecord hg
        (harrive (.first ⟨b.ep tid, d⟩ ((b.arm d).ep tid)) (by simp))
      apply hclosed _ (hbranch b List.mem_cons_self)
      exact EventGraph.mem_succs_first (hrecorded.getType hg hrecord).1
        (hg.decides _ (Recorded.threadLog_subset hvalue)) hfirst

/-- What a call notes is visited, unless it is the label behind a loop around the first record. -/
theorem visits_notes (h : Covered executions V tid outer k)
    (hrecorded : Recorded executions tid code) (hg : g.Logged (Recorder.runsLog executions))
    (hclosed : ∀ r ∈ V, ∀ y ∈ g.succs noexecyields r, y ∈ V) (hreach : code.Reaches k)
    {call : Annotation} (hlegal : k.Legal call)
    (hentries : ∀ e ∈ k.entries tid call, e ∈ threadLog executions tid)
    (hsite : (∀ e ∈ k.arrive tid, e ∈ k.entries tid call) → k.site.ep tid ∈ V)
    (hstay : call = .exitLoop → ∀ l ∈ k.site.path.loops.head?, l ∉ outer) :
    ∀ note ∈ k.notes call, note.1.ep tid ∈ V := by
  intro note hnote
  cases call with
  | event et numinputs | threadCreate | threadStart parent | branchDir direction =>
    obtain rfl := List.mem_singleton.mp hnote
    exact hsite fun e he => by simp [Control.entries, Control.links, he]
  | merge mcid =>
    obtain ⟨b, hb, hmem⟩ := hlegal
    have hbranch := Path.mergeable_subset hmem
    have hnext := hrecorded.getNextRecord hg
      (hentries (.next (b.ep tid) (b.next.ep tid)) (by simp [Control.entries, Control.links, hb]))
    have htype := hrecorded.getType_of_next hg (hreach.branches b hbranch) hnext
    simp only [Control.notes, hb, Option.toList_some, List.map_cons, List.map_nil,
      List.mem_singleton] at hnote
    rw [hnote]
    exact hclosed _ (h.branches b hbranch) _
      (EventGraph.mem_succs_next htype (by decide) (by simp) hnext)
  | enterLoop =>
    have hloop := hsite fun e he => by simp [Control.entries, Control.links, he]
    rcases List.mem_cons.mp hnote with rfl | hnote
    · exact hloop
    · obtain rfl := List.mem_singleton.mp hnote
      have htype := (hrecorded.getType hg (hentries (.record (k.site.ep tid) .loopenter)
        (by simp [Control.entries, Control.notes]))).2
      have hchild := hrecorded.getChildRecord hg htype
        (hentries _ (by simp [Control.entries, Control.links]))
      exact hclosed _ hloop _ (EventGraph.mem_succs_child hchild)
  | exitLoop =>
    obtain ⟨l, loops, hloops, hmem⟩ := hlegal.exists_loop
    simp only [Control.notes, hloops, List.head?_cons, Option.toList_some, List.flatMap_cons,
      List.flatMap_nil, List.append_nil, List.mem_cons, List.not_mem_nil, or_false] at hnote
    rcases hnote with rfl | rfl
    · exact hsite fun e he => by simp [Control.entries, Control.links, hloops, he]
    · have hnext := hrecorded.getNextRecord hg
        (hentries (.next (l.ep tid) (l.next.ep tid))
          (by simp [Control.entries, Control.links, hloops]))
      have htype := hrecorded.getType_of_next hg (hreach.loops l hmem) hnext
      have houter : l ∉ outer := hstay rfl l (by simp [hloops])
      exact hclosed _ ((h.loops l hmem).resolve_left houter) _
        (EventGraph.mem_succs_next htype (by decide) (by simp) hnext)
  | loopIterate => cases hnote

/-- A call whose notes are visited leads to where the records around are visited. -/
theorem move (h : Covered executions V tid outer k) (hreach : code.Reaches k) {call : Annotation}
    (hlegal : k.Legal call)
    (hentries : ∀ e ∈ k.entries tid call, e ∈ threadLog executions tid)
    (hnotes : ∀ note ∈ k.notes call, note.1.ep tid ∈ V) :
    Covered executions V tid outer (k.move call) := by
  cases call with
  | event et numinputs | threadCreate | threadStart parent =>
    exact h.behind (hnotes _ (List.mem_singleton_self _)) (fun b hb => hb) fun l hl => hl
  | branchDir direction =>
    constructor
    · simp [Control.move]
    · exact fun _ => .inr ⟨k.site, direction, rfl,
        hentries _ (by simp [Control.entries, Control.notes]),
        hentries _ (by simp [Control.entries, Control.links])⟩
    · intro b hb
      rcases List.mem_cons.mp hb with rfl | hb
      · exact hnotes _ (List.mem_singleton_self _)
      · exact h.branches b hb
    · exact h.loops
  | merge mcid =>
    obtain ⟨b, hb, hmem⟩ := hlegal
    have hbranch := Path.mergeable_subset hmem
    have hmerge : b.next.ep tid ∈ V := hnotes (b.next, .merge) (by simp [Control.notes, hb])
    simp only [Control.move, hb]
    exact h.behind hmerge (fun c hc => Path.branches_subset hbranch hc)
      fun l hl => Path.loops_subset hbranch hl
  | enterLoop =>
    constructor
    · intro p hp
      obtain rfl := Option.some_inj.mp hp
      exact hnotes (k.site.body, .loopstart) (by simp [Control.notes])
    · simp [Control.move, Control.behind]
    · exact h.branches
    · intro l hl
      rcases List.mem_cons.mp hl with rfl | hl
      · exact .inr (hnotes (k.site, .loopenter) (by simp [Control.notes]))
      · exact h.loops l hl
  | exitLoop =>
    obtain ⟨l, loops, hloops, hmem⟩ := hlegal.exists_loop
    have hlabel : l.next.ep tid ∈ V := hnotes (l.next, .label) (by simp [Control.notes, hloops])
    simp only [Control.move, hloops, List.head?_cons]
    exact h.behind hlabel (fun b hb => Path.branches_of_loops hmem hb)
      fun m hm => Path.loops_of_loops hmem hm
  | loopIterate =>
    obtain ⟨n, j, path, hpath⟩ := hlegal
    constructor
    · exact h.prev
    · intro hnone
      exfalso
      rcases hreach.begin hnone with hstart | ⟨b, d, hb⟩
      · simp [hstart, Site.start] at hpath
      · simp [hb, Site.arm] at hpath
    · intro b hb
      apply h.branches
      simpa [Control.move, Site.iterate, hpath, Path.branches] using hb
    · intro l hl
      apply h.loops
      simpa [Control.move, Site.iterate, hpath, Path.loops] using hl

/-- The traversal visits what a run notes, up to the exit of a loop around the first record. -/
theorem trace (h : Covered executions V tid outer k) (hrecorded : Recorded executions tid code)
    (hg : g.Logged (Recorder.runsLog executions))
    (hclosed : ∀ r ∈ V, ∀ y ∈ g.succs noexecyields r, y ∈ V)
    (hyield : noexecyields = true →
      ∀ s numinputs, code s = some (.event .yield numinputs) → code s.next = none)
    (hreach : code.Reaches k) (hruns : code.Runs k calls)
    (hlog : ∀ e ∈ k.log tid calls, e ∈ threadLog executions tid) :
    ∀ note ∈ k.trace calls, (∀ l ∈ outer, note.1.values < l.next.values) → note.1.ep tid ∈ V := by
  induction calls generalizing k with
  | nil => simp [Control.trace]
  | cons call calls ih =>
    obtain ⟨⟨i, hi, hallows⟩, hlegal, hrest⟩ := hruns
    have hentries : ∀ e ∈ k.entries tid call, e ∈ threadLog executions tid :=
      fun e he => hlog e (List.mem_append_left _ he)
    have hsite : (∀ e ∈ k.arrive tid, e ∈ k.entries tid call) → k.site.ep tid ∈ V := fun hsub =>
      h.site hrecorded hg hclosed hyield hreach hi fun e he => hentries e (hsub e he)
    intro note hnote hbound
    by_cases hstay : call = .exitLoop → ∀ l ∈ k.site.path.loops.head?, l ∉ outer
    · have hnotes := h.visits_notes hrecorded hg hclosed hreach hlegal hentries hsite hstay
      rcases List.mem_append.mp hnote with hnote | hnote
      · exact hnotes note hnote
      · exact ih (h.move hreach hlegal hentries hnotes) (hreach.move hi hallows hlegal) hrest
          (fun e he => hlog e (List.mem_append_right _ he)) note hnote hbound
    -- behind the label of a loop in `outer` nothing is within the bound
    · push Not at hstay
      obtain ⟨rfl, l, hhead, houter⟩ := hstay
      have hlabel := hbound l houter
      have hrestSorted := (Control.trace_sorted hrest).2
      simp only [Control.trace, Control.notes, Control.move, Option.mem_def.mp hhead,
        Option.toList_some, List.flatMap_cons, List.flatMap_nil, List.append_nil,
        List.cons_append, List.nil_append, List.mem_cons] at hnote hrestSorted
      rcases hnote with rfl | rfl | hnote
      · exact hsite fun e he => by simp [Control.entries, Control.links, Option.mem_def.mp hhead, he]
      · exact absurd hlabel (lt_irrefl _)
      · have hle := hrestSorted note hnote
        exact absurd hlabel (not_lt.mpr (l.next.values_lt_next.le.trans hle))

end Covered

/-! ## What lies around a visited record -/

theorem Site.Later.around {s s' : Site} (h : s.Later s') :
    s'.path.branches = s.path.branches ∧ s'.path.loops = s.path.loops := by
  cases h with
  | same _ => exact ⟨rfl, rfl⟩
  | iteration hpath _ => simp [hpath, Path.branches, Path.loops]

/-- What the traversal of one thread comes to lies in the loops around its first record, behind
it, and in branches and loops that the traversal comes to. -/
theorem EventGraph.Shaped.around {g : EventGraph} {code : Nat → Code} {noexecyields : Bool}
    (h : g.Shaped code fun _ => none) {t : Nat} {f : Site} {x : ExecPoint}
    (hx : Relation.ReflTransGen (fun a b => b ∈ g.succs noexecyields a) (f.ep t) x) :
    ∃ s : Site, x = s.ep t ∧ (s = f ∨ f.values < s.values) ∧
      (∀ b ∈ s.path.branches, b ∈ f.path.branches ∨
        Relation.ReflTransGen (fun a b => b ∈ g.succs noexecyields a) (f.ep t) (b.ep t)) ∧
      (∀ l ∈ s.path.loops, l ∈ f.path.loops ∨
        Relation.ReflTransGen (fun a b => b ∈ g.succs noexecyields a) (f.ep t) (l.ep t)) ∧
      ∀ l ∈ f.path.loops, l ∈ s.path.loops := by
  induction hx with
  | refl => exact ⟨f, rfl, .inl rfl, fun b hb => .inl hb, fun l hl => .inl hl, fun l hl => hl⟩
  | tail hp hsucc ih =>
    obtain ⟨p, rfl, hvalues, hbranches, hloops, houter⟩ := ih
    have hbehind : ∀ s : Site, p.values < s.values → f.values < s.values := by
      intro s hlt
      rcases hvalues with rfl | hlt'
      · exact hlt
      · exact hlt'.trans hlt
    rcases h.succs_cases hsucc with ⟨s, rfl, rfl | ⟨d, rfl⟩ | hlater⟩ | ⟨t', s', -, hcreator⟩
    · refine ⟨p.body, rfl, .inr (hbehind _ p.values_lt_body), hbranches, fun l hl => ?_,
        fun l hl => ?_⟩
      · rcases List.mem_cons.mp hl with rfl | hl
        · exact .inr hp
        · exact hloops l hl
      · exact List.mem_cons_of_mem _ (houter l hl)
    · refine ⟨p.arm d, rfl, .inr (hbehind _ (p.values_lt_arm d)), fun b hb => ?_, hloops, houter⟩
      rcases List.mem_cons.mp hb with rfl | hb
      · exact .inr hp
      · exact hbranches b hb
    · obtain ⟨hsame, hsame'⟩ := hlater.around
      refine ⟨s, rfl, .inr (hbehind _ ?_), ?_, ?_, ?_⟩
      · rcases hlater.eq_or_values_lt with rfl | hlt
        · exact p.values_lt_next
        · exact p.values_lt_next.trans hlt
      · rw [hsame]
        exact hbranches
      · rw [hsame']
        exact hloops
      · rw [hsame']
        exact houter
    · simp at hcreator

end SatCheck
