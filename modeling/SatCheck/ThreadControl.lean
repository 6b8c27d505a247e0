import SatCheck.RecordLinks
/-!
# The control of a thread

Every call leaves a few entries in the event graph, and these only depend on where its
thread stands: its site, the last record on the branch around it, and the sites of its
branch values.
-/

namespace SatCheck

/-- `prev` is the last record on the innermost branch since the thread entered the branch.
`values` are the branch records behind the MCIDs of the thread. -/
structure Control where
  site : Site
  prev : Option Site
  values : List Site
  deriving DecidableEq, Repr

namespace Control

def start : Control := ⟨Site.start, none, []⟩

def notes (k : Control) : Annotation → List (Site × EventType)
  | .event et _ => [(k.site, et)]
  | .branchDir _ => [(k.site, .branchdir)]
  | .merge mcid => k.values[mcid]?.toList.map fun b => (b.next, .merge)
  | .enterLoop => [(k.site, .loopenter), (k.site.body, .loopstart)]
  | .exitLoop =>
    k.site.path.loops.head?.toList.flatMap fun l =>
      [(k.site, k.site.exitType), (l.next, .label)]
  | .loopIterate => []
  | .threadCreate => [(k.site, .threadcreate)]
  | .threadStart _ => [(k.site, .threadbegin)]

/-- The link to a record at the site, from the last one or from the branch. -/
def arrive (tid : Nat) (k : Control) : List GraphEntry :=
  match k.prev with
  | some p => [.next (p.ep tid) (k.site.ep tid)]
  | none => (branchOf tid k.site.path).toList.map (.first · (k.site.ep tid))

def links (tid : Nat) (k : Control) : Annotation → List GraphEntry
  | .event _ _ | .threadCreate => k.arrive tid
  | .branchDir direction => k.arrive tid ++ [.value (k.site.ep tid) direction]
  | .merge mcid => k.values[mcid]?.toList.map fun b => .next (b.ep tid) (b.next.ep tid)
  | .enterLoop => k.arrive tid ++ [.child (k.site.ep tid) (k.site.body.ep tid)]
  | .exitLoop =>
    k.site.path.loops.head?.toList.flatMap fun l =>
      k.arrive tid ++ [.next (l.ep tid) (l.next.ep tid), .next (k.site.ep tid) (l.next.ep tid)]
  | .loopIterate => []
  | .threadStart parent => k.arrive tid ++ parent.toList.map (.child · (k.site.ep tid))

def entries (tid : Nat) (k : Control) (call : Annotation) : List GraphEntry :=
  (k.notes call).map (fun note => .record (note.1.ep tid) note.2) ++ k.links tid call

def behind (k : Control) (s : Site) : Control := { k with site := s.next, prev := some s }

def move (k : Control) : Annotation → Control
  | .event _ _ | .threadCreate | .threadStart _ => k.behind k.site
  | .branchDir direction =>
    { site := k.site.arm direction, prev := none, values := k.values ++ [k.site] }
  | .merge mcid =>
    match k.values[mcid]? with
    | none => k
    | some b => k.behind b.next
  | .enterLoop => k.behind k.site.body
  | .exitLoop =>
    match k.site.path.loops.head? with
    | none => k
    | some l => k.behind l.next
  | .loopIterate => { k with site := k.site.iterate }

def IsPlain : EventType → Prop
  | .load | .store | .rmw | .function | .yield | .threadjoin | .alloc | .equals | .fence => True
  | _ => False

instance : DecidablePred IsPlain := fun et => by cases et <;> unfold IsPlain <;> infer_instance

/-- A merge names a branch inside the innermost loop, an exit lies in a loop, and an iteration
begins directly in one. -/
def Legal (k : Control) : Annotation → Prop
  | .event et _ => IsPlain et
  | .merge mcid => ∃ b, k.values[mcid]? = some b ∧ b ∈ k.site.path.mergeable
  | .exitLoop => k.site.path.loops ≠ []
  | .loopIterate => ∃ n i path, k.site.path = .loop n i :: path
  | _ => True

theorem Legal.exists_loop {k : Control} (h : k.Legal .exitLoop) :
    ∃ l loops, k.site.path.loops = l :: loops ∧ l ∈ k.site.path.loops := by
  obtain ⟨l, loops, hloops⟩ := List.exists_cons_of_ne_nil h
  refine ⟨l, loops, hloops, ?_⟩
  rw [hloops]
  exact List.mem_cons_self

def log (tid : Nat) : Control → List Annotation → List GraphEntry
  | _, [] => []
  | k, call :: calls => k.entries tid call ++ log tid (k.move call) calls

def trace : Control → List Annotation → List (Site × EventType)
  | _, [] => []
  | k, call :: calls => k.notes call ++ trace (k.move call) calls

end Control

/-! ## The recorder and a thread -/

namespace Recorder

/-- The recorder has thread `tid` where its control says. -/
structure Stands (s : Recorder) (tid : Nat) (k : Control) : Prop extends At s tid k.site where
  values : (s.epvalues tid).map EPValue.record = k.values.map (Site.ep tid)
  prev : s.lastOf tid (branchOf tid k.site.path) = k.prev.map (Site.ep tid)

/-- A thread stands where it did when the recorder has not touched it. -/
theorem Stands.spared {s s' : Recorder} {t : Nat} {k : Control} (h : s.Stands t k)
    (hs : Spares s s' t) : s'.Stands t k where
  point := hs.point.trans h.point
  values := by rw [hs.values, h.values]
  curr := hs.curr.trans h.curr
  prev := (hs.lastOf _).trans h.prev
  branches c hc := (hs.lastOf _).trans (h.branches c hc)
  loops l hl := ⟨hs.toExtends.ne_none (h.loops l hl).1, by
    rw [hs.lastOf]
    exact (h.loops l hl).2⟩

theorem Noted.behind {s s' : Recorder} {tid : Nat} {k : Control} {b : Site} (h : s.Noted tid b)
    (hs : Relinks s s') (hpoint : s'.execpoint tid = b.next.ep tid)
    (hcurr : s'.currbranch tid = s.currbranch tid)
    (hvalues : (s'.epvalues tid).map EPValue.record = k.values.map (Site.ep tid)) :
    s'.Stands tid (k.behind b) where
  toAt := h.toAt.move hs hpoint (hcurr.trans h.curr) (fun _ => id) fun _ => id
  values := hvalues
  prev := by
    rw [hs.lastOf]
    exact h.last

/-! ## Calls -/

structure Follows (s s' : Recorder) (tid : Nat) (k : Control) (added : List GraphEntry) : Prop where
  linked : s'.Linked
  stands : s'.Stands tid k
  logged : ∀ log, s.Logged log → s'.Logged (log ∪ {e | e ∈ added})
  spares : ∀ t, t ≠ tid → Spares s s' t

theorem Stands.noted {s : Recorder} {tid : Nat} {k : Control} (h : s.Stands tid k) (et : EventType)
    (het : et ≠ .label ∧ et ≠ .loopstart) :
    s.noted tid et = .record (k.site.ep tid) et :: k.arrive tid := by
  unfold Recorder.noted Control.arrive
  rw [h.curr, h.prev, h.point]
  cases k.prev <;> simp [het]

theorem Stands.noted_unlinked {s : Recorder} {tid : Nat} {k : Control} {p : Site}
    (h : s.Stands tid k) (hprev : k.prev = some p) (et : EventType)
    (het : ¬ (et ≠ .label ∧ et ≠ .loopstart)) :
    s.noted tid et = [.record (k.site.ep tid) et] := by
  unfold Recorder.noted
  rw [h.curr, h.prev, h.point, hprev, Option.map_some]
  simp only
  rw [if_neg het]

theorem Follows.trans {s s' s'' : Recorder} {tid : Nat} {k k' : Control}
    {added added' : List GraphEntry} (h : Follows s s' tid k added)
    (h' : Follows s' s'' tid k' added') : Follows s s'' tid k' (added ++ added') where
  linked := h'.linked
  stands := h'.stands
  logged log hlog := by
    rw [log_append]
    exact h'.logged _ (h.logged log hlog)
  spares t ht := (h.spares t ht).trans (h'.spares t ht)

theorem Relinks.follows {s s' : Recorder} {tid : Nat} {k : Control} (h : Relinks s s')
    (hrecords : s'.records = s.records) (hlinked : s.Linked) (hstands : s'.Stands tid k)
    (hothers : ∀ t, t ≠ tid → s'.execpoint t = s.execpoint t ∧ s'.epvalues t = s.epvalues t ∧
      s'.currbranch t = s.currbranch t) : Follows s s' tid k [] where
  linked := h.linked hlinked
  stands := hstands
  logged log hlog := by
    rw [log_nil]
    exact hlog.congr hrecords h.first
  spares t ht := h.spares (hothers t ht).1 (hothers t ht).2.1 (hothers t ht).2.2

theorem Stands.follows_to {s s' : Recorder} {tid : Nat} {k k' : Control} {et : EventType}
    {links : List GraphEntry} (numinputs : Nat) (added : List GraphEntry) (h : s.Stands tid k)
    (hlinked : s.Linked) (hnoted : s.noted tid et = .record (k.site.ep tid) et :: links)
    (hrelinks : Relinks (s.getOrCreateCurrRecord tid et numinputs) s')
    (hstands : s'.Stands tid k')
    (hothers : ∀ t, t ≠ tid → s'.execpoint t = s.execpoint t ∧ s'.epvalues t = s.epvalues t ∧
      s'.currbranch t = s.currbranch t)
    (hlogged : ∀ log, (s.getOrCreateCurrRecord tid et numinputs).Logged log →
      s'.Logged (log ∪ {e | e ∈ added})) :
    Follows s s' tid k' (.record (k.site.ep tid) et :: links ++ added) where
  linked := hrelinks.linked (h.toAt.note hlinked et numinputs).linked
  stands := hstands
  logged log hlog := by
    have hentries := hlogged _ (hlog.getOrCreateCurrRecord hlinked tid et numinputs)
    rw [hnoted] at hentries
    rw [log_append]
    exact hentries
  spares t ht := by
    apply (spares_getOrCreateCurrRecord h.curr ht et numinputs).trans
    obtain ⟨hpoint, hvalues, hcurr⟩ := hothers t ht
    apply hrelinks.spares <;> simpa

theorem Stands.follows {s s' : Recorder} {tid : Nat} {k : Control} {et : EventType}
    {links : List GraphEntry} (numinputs : Nat) (added : List GraphEntry) (h : s.Stands tid k)
    (hlinked : s.Linked) (hnoted : s.noted tid et = .record (k.site.ep tid) et :: links)
    (hrelinks : Relinks (s.getOrCreateCurrRecord tid et numinputs) s')
    (hpoint : s'.execpoint = s.execpoint) (hcurr : s'.currbranch = s.currbranch)
    (hvalues : s'.epvalues = s.epvalues)
    (hlogged : ∀ log, (s.getOrCreateCurrRecord tid et numinputs).Logged log →
      s'.Logged (log ∪ {e | e ∈ added})) :
    Follows s (s'.incrementTop tid) tid (k.behind k.site)
      (.record (k.site.ep tid) et :: links ++ added) := by
  have hboth := hrelinks.trans (relinks_setExecPoint s' tid (s'.execpoint tid).incrementTop)
  apply h.follows_to numinputs added hlinked hnoted hboth
  · apply (h.toAt.note hlinked et numinputs).behind hboth
    · simp [setExecPoint, hpoint, h.point]
    · simp [setExecPoint, hcurr]
    · simpa [setExecPoint, hvalues] using h.values
  · intro t ht
    simp [setExecPoint, hpoint, hcurr, hvalues, ht]
  · intro log hlog
    exact (hlogged log hlog).congr rfl rfl

theorem Stands.follows_record {s : Recorder} {tid : Nat} {k : Control} (h : s.Stands tid k)
    (hlinked : s.Linked) (et : EventType) (numinputs : Nat)
    (het : et ≠ .label ∧ et ≠ .loopstart) :
    Follows s ((s.getOrCreateCurrRecord tid et numinputs).incrementTop tid) tid (k.behind k.site)
      (.record (k.site.ep tid) et :: k.arrive tid) := by
  have hfollows := h.follows numinputs [] hlinked (h.noted et het)
    (Relinks.refl (s.getOrCreateCurrRecord tid et numinputs)) (by simp) (by simp) (by simp)
    fun log hlog => by simpa using hlog
  simpa using hfollows

theorem Stands.follows_threadStart {s : Recorder} {tid : Nat} {k : Control} (h : s.Stands tid k)
    (hlinked : s.Linked) {parent : Option ExecPoint}
    (hparent : ∀ p, parent = some p → s.records p ≠ none) :
    Follows s (s.threadStart tid parent) tid (k.move (.threadStart parent))
      (k.entries tid (.threadStart parent)) := by
  cases parent with
  | none =>
    simpa [threadStart, Control.move, Control.entries, Control.notes, Control.links] using
      h.follows_record hlinked .threadbegin 0 (by decide)
  | some p =>
    have hp := (extends_getOrCreateCurrRecord s tid .threadbegin 0).1.ne_none (hparent p rfl)
    unfold threadStart
    simp only
    rw [h.point]
    apply h.follows 0 [.child p (k.site.ep tid)] hlinked (h.noted _ (by decide))
      (relinks_setChildRecord _ _ _)
    · simp [setChildRecord]
    · simp [setChildRecord]
    · simp [setChildRecord]
    · intro log hlog
      rw [log_cons, log_nil]
      exact logged_setChildRecord hlog hp

theorem Stands.follows_branchDir {s : Recorder} {tid : Nat} {k : Control} (h : s.Stands tid k)
    (hlinked : s.Linked) (direction : Nat) :
    Follows s (s.branchDir tid direction) tid (k.move (.branchDir direction))
      (k.entries tid (.branchDir direction)) := by
  have hnote := h.toAt.note hlinked .branchdir 1
  have hnoted := hnote.relink (relinks_addEPValue _ (s.execpoint tid) direction) rfl rfl
  -- only the direction that is entered loses what was last on it
  have hlast : ∀ t branch, branch ≠ some ⟨k.site.ep tid, direction⟩ →
      (s.branchDir tid direction).lastOf t branch =
        ((s.getOrCreateCurrRecord tid .branchdir 1).addEPValue (s.execpoint tid) direction).lastOf t
          branch := by
    intro t branch hbranch
    cases branch with
    | none => rfl
    | some branch =>
      have hne : branch ≠ ⟨s.execpoint tid, direction⟩ := by
        rw [h.point]
        exact fun heq => hbranch (congrArg some heq)
      simp [branchDir, lastOf, setExecPoint, hne]
  constructor
  · constructor
    · exact hnoted.linked.site
    · intro t branch p hp
      by_cases hbranch : branch = some ⟨k.site.ep tid, direction⟩
      · subst hbranch
        simp [branchDir, lastOf, setExecPoint, h.point] at hp
      · rw [hlast t branch hbranch] at hp
        exact hnoted.linked.last t branch p hp
    · intro branch hfirst
      by_cases hbranch : some branch = some ⟨k.site.ep tid, direction⟩
      · obtain rfl := Option.some_inj.mp hbranch
        simp [branchDir, setExecPoint, h.point] at hfirst
      · apply hnoted.linked.first
        intro hnone
        exact hfirst ((hlast tid (some branch) hbranch).trans hnone)
  · constructor
    · constructor
      · simp [branchDir, setExecPoint, h.point, Control.move, Site.push_branch_ep]
      · simp [branchDir, setExecPoint, h.point, Control.move]
      · intro c hc
        rw [hlast tid _ (Site.branchOf_ne tid hc)]
        rcases List.mem_cons.mp hc with rfl | hc
        · exact hnoted.last
        · exact hnoted.branches c hc
      · intro l hl
        rw [hlast tid _ (Site.branchOf_ne_self hl)]
        exact hnoted.loops l hl
    · simp [branchDir, setExecPoint, addEPValue, h.values, h.point, Control.move]
    · simp [branchDir, lastOf, setExecPoint, h.point, Control.move]
  · intro log hlog
    have hentries := logged_addEPValue (v := direction)
      (hlog.getOrCreateCurrRecord hlinked tid .branchdir 1)
      (extends_getOrCreateCurrRecord s tid .branchdir 1).2
    rw [h.noted .branchdir (by decide), h.point] at hentries
    have hset : log ∪ {e | e ∈ k.entries tid (.branchDir direction)} =
        insert (.value (k.site.ep tid) direction)
          (log ∪ {e | e ∈ .record (k.site.ep tid) .branchdir :: k.arrive tid}) := by
      ext e
      simp only [Control.entries, Control.notes, Control.links, List.map_cons, List.map_nil,
        List.cons_append, List.nil_append, Set.mem_union, Set.mem_ofPred_eq, List.mem_cons,
        List.mem_append, List.not_mem_nil, or_false, Set.mem_insert_iff]
      tauto
    rw [hset]
    apply hentries.congr <;> simp [branchDir, setExecPoint, h.point]
  · intro t ht
    have hvalue : Spares (s.getOrCreateCurrRecord tid .branchdir 1)
        ((s.getOrCreateCurrRecord tid .branchdir 1).addEPValue (s.execpoint tid) direction) t :=
      (relinks_addEPValue _ _ _).spares rfl rfl rfl
    apply (spares_getOrCreateCurrRecord h.curr ht .branchdir 1).trans
    apply hvalue.trans
    constructor
    · exact ⟨fun _ r hr => ⟨r, hr, rfl⟩, fun _ => id⟩
    · simp [branchDir, setExecPoint, addEPValue, ht]
    · simp [branchDir, setExecPoint, addEPValue, ht]
    · simp [branchDir, setExecPoint, addEPValue, ht]
    · rfl
    · intro branch hbranch
      apply hlast t (some branch)
      intro heq
      obtain rfl := Option.some_inj.mp heq
      exact ht hbranch.symm

/-- The branch of a record that is there is the innermost one around its site. -/
theorem Linked.getBranch {s : Recorder} (h : s.Linked) {tid : Nat} {b : Site}
    (hb : s.records (b.ep tid) ≠ none) : s.getBranch (b.ep tid) = branchOf tid b.path := by
  obtain ⟨b', hb', hcurr⟩ := h.site _ hb
  obtain ⟨-, rfl⟩ := Site.ep_inj.mp hb'
  exact hcurr

theorem Stands.follows_merge {s : Recorder} {tid : Nat} {k : Control} (h : s.Stands tid k)
    (hlinked : s.Linked) {mcid : Nat} (hlegal : k.Legal (.merge mcid)) :
    Follows s (s.merge tid mcid) tid (k.move (.merge mcid)) (k.entries tid (.merge mcid)) := by
  obtain ⟨b, hb, hmem⟩ := hlegal
  have hbranch := Path.mergeable_subset hmem
  have hvalue : ∃ value, (s.epvalues tid)[mcid]? = some value ∧ value.record = b.ep tid := by
    have := congrArg (·[mcid]?) h.values
    simpa [hb] using this
  obtain ⟨value, hvalue, hrecord⟩ := hvalue
  have hexists : s.records (b.ep tid) ≠ none := hlinked.last tid _ _ (h.branches b hbranch)
  have hcurr := hlinked.getBranch hexists
  have hrelinks := (relinks_setCurrBranch s
      (Function.update s.currbranch tid (branchOf tid b.path))).trans
    (relinks_setExecPoint _ tid (b.next.ep tid))
  have hmerge : s.merge tid mcid = Recorder.incrementTop
      (Recorder.getOrCreateCurrRecord
        (Recorder.setExecPoint
          { s with currbranch := Function.update s.currbranch tid (branchOf tid b.path) }
          tid (b.next.ep tid)) tid .merge 0) tid := by
    unfold Recorder.merge
    rw [hvalue]
    simp only [hrecord, hcurr, h.point, Site.rollback_ep hbranch]
    simp [Recorder.incrementTop, setExecPoint]
  have hstands : (Recorder.setExecPoint
      { s with currbranch := Function.update s.currbranch tid (branchOf tid b.path) }
      tid (b.next.ep tid)).Stands tid ⟨b.next, some b, k.values⟩ := by
    constructor
    · apply h.toAt.move hrelinks
      · simp [setExecPoint]
      · simp [setExecPoint]
      · exact fun c hc => Path.branches_subset hbranch hc
      · exact fun l hl => Path.loops_subset hbranch hl
    · simpa [setExecPoint] using h.values
    · rw [hrelinks.lastOf]
      exact h.branches b hbranch
  have hstep := hrelinks.follows rfl hlinked hstands fun t ht => by simp [setExecPoint, ht]
  have hnote := hstands.follows_record (hrelinks.linked hlinked) .merge 0 (by decide)
  rw [hmerge]
  have hboth := hstep.trans hnote
  simpa [Control.move, Control.entries, Control.notes, Control.links, Control.behind,
    Control.arrive, hb] using hboth

theorem Stands.follows_loopIterate {s : Recorder} {tid : Nat} {k : Control} (h : s.Stands tid k)
    (hlinked : s.Linked) (hlegal : k.Legal .loopIterate) :
    Follows s (s.loopIterate tid) tid (k.move .loopIterate) (k.entries tid .loopIterate) := by
  obtain ⟨n, i, path, hpath⟩ := hlegal
  have hiterate : k.site.iterate.path = .loop n (i + 1) :: path := by
    simp [Site.iterate, hpath]
  have hrelinks := relinks_setExecPoint s tid (k.site.iterate.ep tid)
  have hloop : s.loopIterate tid = s.setExecPoint tid (k.site.iterate.ep tid) := by
    rw [Recorder.loopIterate, h.point, Site.iterate_ep hpath]
  rw [hloop]
  apply hrelinks.follows rfl hlinked
  · constructor
    · apply h.toAt.move hrelinks
      · simp [setExecPoint, Control.move]
      · simpa [setExecPoint, Control.move] using h.curr
      · intro c hc
        rw [hpath]
        simpa [Control.move, hiterate, Path.branches] using hc
      · intro l hl
        rw [hpath]
        simpa [Control.move, hiterate, Path.loops] using hl
    · simpa [setExecPoint, Control.move] using h.values
    · rw [hrelinks.lastOf]
      simpa [Control.move] using h.prev
  · intro t ht
    simp [setExecPoint, ht]

theorem Stands.follows_enterLoop {s : Recorder} {tid : Nat} {k : Control} (h : s.Stands tid k)
    (hlinked : s.Linked) :
    Follows s (s.enterLoop tid) tid (k.move .enterLoop) (k.entries tid .enterLoop) := by
  have hnote := h.toAt.note hlinked .loopenter 0
  have hrelinks := relinks_setExecPoint (s.getOrCreateCurrRecord tid .loopenter 0) tid
    (k.site.body.ep tid)
  have hstands : ((s.getOrCreateCurrRecord tid .loopenter 0).setExecPoint tid
      (k.site.body.ep tid)).Stands tid ⟨k.site.body, some k.site, k.values⟩ := by
    constructor
    · constructor
      · simp [setExecPoint]
      · simpa [setExecPoint] using h.curr
      · intro c hc
        rw [hrelinks.lastOf]
        exact hnote.branches c hc
      · intro l hl
        rw [hrelinks.lastOf]
        rcases List.mem_cons.mp hl with rfl | hl
        · exact ⟨hnote.record, k.site, hnote.last⟩
        · exact hnote.loops l hl
    · simpa [setExecPoint] using h.values
    · rw [hrelinks.lastOf]
      exact hnote.last
  have henter := h.follows_to 0 [] hlinked (h.noted .loopenter (by decide)) hrelinks hstands
    (fun t ht => by simp [setExecPoint, ht]) fun log hlog => by
      rw [log_nil]
      exact hlog.congr rfl rfl
  have hrecord := (extends_getOrCreateCurrRecord ((s.getOrCreateCurrRecord tid .loopenter
    0).setExecPoint tid (k.site.body.ep tid)) tid .loopstart 0).1.ne_none hnote.record
  have hstart := hstands.follows 0 [.child (k.site.ep tid) (k.site.body.ep tid)] henter.linked
    (hstands.noted_unlinked rfl .loopstart (by decide))
    (relinks_setChildRecord _ (k.site.ep tid) (k.site.body.ep tid)) (by simp [setChildRecord])
    (by simp [setChildRecord]) (by simp [setChildRecord]) fun log hlog => by
      rw [log_cons, log_nil]
      exact logged_setChildRecord hlog hrecord
  have hboth := henter.trans hstart
  have henterLoop : s.enterLoop tid = Recorder.incrementTop (Recorder.setChildRecord
      (Recorder.getOrCreateCurrRecord ((s.getOrCreateCurrRecord tid .loopenter 0).setExecPoint tid
        (k.site.body.ep tid)) tid .loopstart 0) (k.site.ep tid) (k.site.body.ep tid)) tid := by
    unfold Recorder.enterLoop
    simp only [h.point, Site.push_loop_ep]
  rw [henterLoop]
  constructor
  · exact hboth.linked
  · exact hboth.stands
  · intro log hlog
    convert hboth.logged log hlog using 3
    ext e
    simp only [Control.entries, Control.notes, Control.links, List.map_cons, List.map_nil,
      List.cons_append, List.nil_append, List.append_nil, List.mem_cons, List.mem_append,
      List.not_mem_nil, or_false]
    tauto
  · exact hboth.spares

theorem popLoop_currbranch {s : Recorder} {tid n k : Nat} {path : Path} {l : Site}
    {loops : List Site} (hloops : path.loops = l :: loops)
    (hpoint : s.execpoint tid = Site.ep tid ⟨path, n⟩)
    (hcurr : s.currbranch tid = branchOf tid path)
    (hbranches : ∀ c ∈ path.branches, s.getBranch (c.ep tid) = branchOf tid c.path)
    (hk : 2 * path.length ≤ k) :
    (popLoop tid k s).currbranch = Function.update s.currbranch tid (branchOf tid l.path) := by
  induction path generalizing s n k with
  | nil => simp [Path.loops] at hloops
  | cons f path ih =>
    obtain ⟨k, rfl⟩ : ∃ m, k = m + 2 := ⟨k - 2, by rw [List.length_cons] at hk; omega⟩
    replace hk : 2 * path.length ≤ k := by
      rw [List.length_cons] at hk
      omega
    have hcounter : popLoop tid (k + 2) s =
        popLoop tid (k + 1) (s.setExecPoint tid ⟨tid, Path.entries (f :: path)⟩) := by
      rw [popLoop, hpoint]
      simp
    rw [hcounter, popLoop]
    have hcell : (s.setExecPoint tid ⟨tid, Path.entries (f :: path)⟩).execpoint tid =
        ⟨tid, Path.entries (f :: path)⟩ := by
      simp [setExecPoint]
    simp only [hcell]
    cases f with
    | arm m d =>
      have htype : ExecPoint.getType ⟨tid, Path.entries (.arm m d :: path)⟩ = some .branch := by
        simp [ExecPoint.getType, Frame.entries]
      have hcurr : s.currbranch tid = some ⟨Site.ep tid ⟨path, m⟩, d⟩ := hcurr
      rw [htype, Site.pop_arm, if_pos rfl, if_neg (by simp)]
      have hbranch : s.getBranch (Site.ep tid ⟨path, m⟩) = branchOf tid path :=
        hbranches _ List.mem_cons_self
      have houter : ((s.setExecPoint tid ⟨tid, Path.entries (.arm m d :: path)⟩).setExecPoint tid
          (Site.ep tid ⟨path, m⟩)).currbranch tid = some ⟨Site.ep tid ⟨path, m⟩, d⟩ := hcurr
      rw [houter, Option.bind_some]
      have hgetBranch : ((s.setExecPoint tid ⟨tid, Path.entries (.arm m d :: path)⟩).setExecPoint
          tid (Site.ep tid ⟨path, m⟩)).getBranch (Site.ep tid ⟨path, m⟩) = branchOf tid path :=
        hbranch
      rw [hgetBranch, ih (n := m) hloops _ _ _ hk]
      · simp [setExecPoint]
      · simp [setExecPoint]
      · simp [setExecPoint]
      · exact fun c hc => hbranches c (List.mem_cons_of_mem _ hc)
    | loop m i =>
      have htype : ExecPoint.getType ⟨tid, Path.entries (.loop m i :: path)⟩ = some .loop := by
        simp [ExecPoint.getType, Frame.entries]
      obtain ⟨rfl, -⟩ := List.cons_eq_cons.mp hloops
      rw [htype, if_pos rfl, if_neg (by simp), eq_comm]
      simpa [setExecPoint, branchOf] using hcurr.symm

theorem popLoop_records (s : Recorder) (tid n : Nat) : (popLoop tid n s).records = s.records := by
  induction n generalizing s with
  | zero => rfl
  | succ n ih =>
    unfold popLoop
    simp only
    split_ifs <;> first
      | rfl
      | exact ih _

theorem exitType_linked (b : Site) : b.exitType ≠ .label ∧ b.exitType ≠ .loopstart := by
  unfold Site.exitType
  split <;> decide

/-- Behind the exit of a loop, the pops lead to the LABEL of the loop. -/
theorem Stands.follows_popLoop {s : Recorder} {tid : Nat} {k : Control} {l : Site}
    {loops : List Site} (h : s.Stands tid k) (hlinked : s.Linked)
    (hloops : k.site.path.loops = l :: loops) : ∃ p,
    Follows s ((popLoop tid (s.execpoint tid).getSize s).incrementTop tid) tid
      ⟨l.next, some p, k.values⟩
      [] := by
  have hmem : l ∈ k.site.path.loops := by
    rw [hloops]
    exact List.mem_cons_self
  obtain ⟨hrecord, p, hlast⟩ := h.loops l hmem
  have hpoint : (popLoop tid (s.execpoint tid).getSize s).execpoint =
      Function.update s.execpoint tid (l.ep tid) := by
    rw [(popLoop_spec s tid _).1, h.point, Site.popToLoop_ep hloops]
  have hcurr : (popLoop tid (s.execpoint tid).getSize s).currbranch =
      Function.update s.currbranch tid (branchOf tid l.path) := by
    apply popLoop_currbranch hloops h.point h.curr
    · exact fun c hc => hlinked.getBranch (hlinked.last tid _ _ (h.branches c hc))
    · rw [h.point, Site.getSize_ep]
      omega
  have hrelinks := (relinks_popLoop s tid (s.execpoint tid).getSize).trans
    (relinks_setExecPoint _ tid (l.next.ep tid))
  have hincrement : (popLoop tid (s.execpoint tid).getSize s).incrementTop tid =
      (popLoop tid (s.execpoint tid).getSize s).setExecPoint tid (l.next.ep tid) := by
    simp [Recorder.incrementTop, hpoint]
  refine ⟨p, ?_⟩
  rw [hincrement]
  apply hrelinks.follows
  · exact popLoop_records s tid _
  · exact hlinked
  · constructor
    · apply h.toAt.move hrelinks
      · simp [setExecPoint]
      · simp [setExecPoint, hcurr]
      · exact fun c hc => Path.branches_of_loops hmem hc
      · exact fun m hm => Path.loops_of_loops hmem hm
    · simpa [setExecPoint, popLoop_spec] using h.values
    · rw [hrelinks.lastOf]
      exact hlast
  · intro t ht
    simp [setExecPoint, hpoint, hcurr, popLoop_spec, ht]

theorem Stands.follows_exitLoop {s : Recorder} {tid : Nat} {k : Control} (h : s.Stands tid k)
    (hlinked : s.Linked) (hlegal : k.Legal .exitLoop) :
    Follows s (s.exitLoop tid) tid (k.move .exitLoop) (k.entries tid .exitLoop) := by
  obtain ⟨l, loops, hloops⟩ := List.exists_cons_of_ne_nil hlegal
  have hexit := h.follows_record hlinked k.site.exitType 0 (exitType_linked k.site)
  have hpoint : ((s.getOrCreateCurrRecord tid k.site.exitType 0).incrementTop tid).execpoint tid =
      k.site.next.ep tid := hexit.stands.point
  have hbreak : s.breakLoop tid = popLoop tid
      (((s.getOrCreateCurrRecord tid k.site.exitType 0).incrementTop tid).execpoint tid).getSize
      ((s.getOrCreateCurrRecord tid k.site.exitType 0).incrementTop tid) := by
    unfold breakLoop
    rw [h.point, Site.directInLoop_ep]
  obtain ⟨p, hpop⟩ := hexit.stands.follows_popLoop hexit.linked hloops
  rw [← hbreak] at hpop
  have hloopenter : (s.breakLoop tid).execpoint tid = l.ep tid := by
    rw [hbreak, (popLoop_spec _ tid _).1, Function.update_self, hpoint]
    exact Site.popToLoop_ep hloops
  have hrecords : ((s.breakLoop tid).incrementTop tid).records =
      (s.getOrCreateCurrRecord tid k.site.exitType 0).records := by
    calc ((s.breakLoop tid).incrementTop tid).records = (s.breakLoop tid).records := rfl
      _ = (s.getOrCreateCurrRecord tid k.site.exitType 0).records := by
        rw [hbreak, popLoop_records]
        rfl
  have hlabelRecords := extends_getOrCreateCurrRecord ((s.breakLoop tid).incrementTop tid) tid
    .label 0
  have hexitRecord : (((s.breakLoop tid).incrementTop tid).getOrCreateCurrRecord tid .label
      0).records (k.site.ep tid) ≠ none := by
    apply hlabelRecords.1.ne_none
    rw [hrecords]
    exact (h.toAt.note hlinked k.site.exitType 0).record
  have hloopRecord : (((s.breakLoop tid).incrementTop tid).getOrCreateCurrRecord tid .label
      0).records (l.ep tid) ≠ none := by
    apply hlabelRecords.1.ne_none
    rw [hrecords]
    apply (extends_getOrCreateCurrRecord s tid k.site.exitType 0).1.ne_none
    exact (h.loops l (by rw [hloops]; exact List.mem_cons_self)).1
  have hlabel := hpop.stands.follows 0
    [.next (l.ep tid) (l.next.ep tid), .next (k.site.ep tid) (l.next.ep tid)] hpop.linked
    (hpop.stands.noted_unlinked rfl .label (by decide))
    ((relinks_linkLabel _ (l.ep tid) (l.next.ep tid)).trans
      (relinks_setNextRecord _ (k.site.ep tid) (l.next.ep tid)))
    (by simp [setNextRecord]) (by simp [setNextRecord]) (by simp [setNextRecord])
    fun log hlog => by
      have hexit := (relinks_linkLabel _ (l.ep tid) (l.next.ep tid)).toExtends.ne_none hexitRecord
      have := logged_setNextRecord (b := l.next.ep tid)
        (logged_linkLabel (b := l.next.ep tid) hlog hloopRecord) hexit
      rw [log_cons, log_cons, log_nil]
      exact this
  have hall := (hexit.trans hpop).trans hlabel
  have hlabelLoop : s.exitLoop tid = Recorder.incrementTop (Recorder.setNextRecord
      ((((s.breakLoop tid).incrementTop tid).getOrCreateCurrRecord tid .label 0).linkLabel
        (l.ep tid) (l.next.ep tid)) (k.site.ep tid) (l.next.ep tid)) tid := by
    unfold exitLoop labelLoop
    simp only [hloopenter, h.point, hpop.stands.point]
    rfl
  rw [hlabelLoop]
  simp only [Control.move, Control.entries, Control.notes, Control.links, hloops, List.head?_cons,
    Option.toList_some, List.flatMap_cons, List.flatMap_nil, List.append_nil]
  constructor
  · exact hall.linked
  · exact hall.stands
  · intro log hlog
    convert hall.logged log hlog using 3
    ext e
    simp only [List.map_cons, List.map_nil, List.cons_append, List.nil_append, List.append_nil,
      List.mem_cons, List.mem_append, List.not_mem_nil, or_false]
    tauto
  · exact hall.spares

/-- Every call does to the recorder what the control says. -/
theorem Stands.exec {s : Recorder} {tid : Nat} {k : Control} (h : s.Stands tid k)
    (hlinked : s.Linked) {call : Annotation} (hlegal : k.Legal call)
    (hparent : ∀ p, call = .threadStart (some p) → s.records p ≠ none) :
    Follows s (s.exec tid call) tid (k.move call) (k.entries tid call) := by
  cases call with
  | event et numinputs =>
    have het : et ≠ .label ∧ et ≠ .loopstart := by
      constructor <;> rintro rfl <;> exact hlegal
    exact h.follows_record hlinked et numinputs het
  | branchDir direction => exact h.follows_branchDir hlinked direction
  | merge mcid => exact h.follows_merge hlinked hlegal
  | enterLoop => exact h.follows_enterLoop hlinked
  | exitLoop => exact h.follows_exitLoop hlinked hlegal
  | loopIterate => exact h.follows_loopIterate hlinked hlegal
  | threadCreate => exact h.follows_record hlinked .threadcreate 0 (by decide)
  | threadStart parent =>
    exact h.follows_threadStart hlinked fun p hp => hparent p (by rw [hp])

end Recorder

end SatCheck
