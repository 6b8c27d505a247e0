import SatCheck.GraphLog
/-!
# Records and their links

What one call of `getOrCreateCurrRecord` does to the records and to what is first and last on
the branches, and what the steps between two such calls leave as it is.
-/

namespace SatCheck

namespace Recorder

def lastOf (s : Recorder) (tid : Nat) : Option EPValue → Option ExecPoint
  | none => s.alwaysexecuted tid
  | some branch => s.lastrecord branch

/-- Records lie at sites, on the innermost branch around them.  What is last on a branch is
recorded, and such a branch has a first record. -/
structure Linked (s : Recorder) : Prop where
  site : ∀ ep, s.records ep ≠ none →
    ∃ b : Site, ep = b.ep ep.tid ∧ s.getBranch ep = branchOf ep.tid b.path
  last : ∀ tid branch p, s.lastOf tid branch = some p → s.records p ≠ none
  first : ∀ branch, s.lastrecord branch ≠ none → s.firstrecord branch ≠ none

/-- Thread `tid` is at a site, with its branches and loops open. -/
structure At (s : Recorder) (tid : Nat) (b : Site) : Prop where
  point : s.execpoint tid = b.ep tid
  curr : s.currbranch tid = branchOf tid b.path
  branches : ∀ c ∈ b.path.branches, s.lastOf tid (branchOf tid c.path) = some (c.ep tid)
  loops : ∀ l ∈ b.path.loops, s.records (l.ep tid) ≠ none ∧
    ∃ p : Site, s.lastOf tid (branchOf tid l.path) = some (p.ep tid)

/-- Records stay with their branches, and first records stay set. -/
structure Extends (s s' : Recorder) : Prop where
  records : ∀ ep r, s.records ep = some r → ∃ r', s'.records ep = some r' ∧ r'.branch = r.branch
  first : ∀ branch, s.firstrecord branch ≠ none → s'.firstrecord branch ≠ none

structure Spares (s s' : Recorder) (tid : Nat) : Prop extends Extends s s' where
  point : s'.execpoint tid = s.execpoint tid
  values : s'.epvalues tid = s.epvalues tid
  curr : s'.currbranch tid = s.currbranch tid
  always : s'.alwaysexecuted tid = s.alwaysexecuted tid
  last : ∀ branch : EPValue, branch.record.tid = tid → s'.lastrecord branch = s.lastrecord branch

/-! ## One record -/

theorem Extends.refl (s : Recorder) : Extends s s :=
  ⟨fun _ r hr => ⟨r, hr, rfl⟩, fun _ h => h⟩

theorem Extends.trans {s s' s'' : Recorder} (h : Extends s s') (h' : Extends s' s'') :
    Extends s s'' where
  records ep r hr := by
    obtain ⟨r', hr', hbranch⟩ := h.records ep r hr
    obtain ⟨r'', hr'', hbranch'⟩ := h'.records ep r' hr'
    exact ⟨r'', hr'', hbranch'.trans hbranch⟩
  first branch hb := h'.first branch (h.first branch hb)

theorem Extends.ne_none {s s' : Recorder} (h : Extends s s') {ep : ExecPoint}
    (hep : s.records ep ≠ none) : s'.records ep ≠ none := by
  obtain ⟨r, hr⟩ := Option.ne_none_iff_exists'.mp hep
  obtain ⟨r', hr', -⟩ := h.records ep r hr
  simp [hr']

private theorem extends_update (s : Recorder) (ep : ExecPoint) (f : EPRecord → EPRecord)
    (hf : ∀ r, (f r).branch = r.branch) :
    Extends s { s with records := Function.update s.records ep ((s.records ep).map f) } where
  records ep' r hr := by
    by_cases hep : ep' = ep
    · subst hep
      exact ⟨f r, by simp [hr], hf r⟩
    · exact ⟨r, by simpa [hep] using hr, rfl⟩
  first _ h := h

theorem extends_createRecord (s : Recorder) (tid : Nat) (et : EventType) (numinputs : Nat) :
    Extends s (s.createRecord tid et numinputs) := by
  unfold createRecord
  split
  · exact Extends.refl s
  · rename_i hnone
    constructor
    · intro ep r hr
      have hep : ep ≠ s.execpoint tid := by
        rintro rfl
        simp [hnone] at hr
      exact ⟨r, by simpa [hep] using hr, rfl⟩
    · exact fun _ h => h

theorem createRecord_ne_none (s : Recorder) (tid : Nat) (et : EventType) (numinputs : Nat) :
    (s.createRecord tid et numinputs).records (s.execpoint tid) ≠ none := by
  unfold createRecord
  split
  · simp_all
  · simp

theorem extends_link (s : Recorder) (last : Option ExecPoint) (record : ExecPoint) :
    Extends s (s.link last record) := by
  cases last with
  | none => exact Extends.refl s
  | some last => exact extends_update s last _ fun _ => rfl

/-- The entries of a call of `getOrCreateCurrRecord`. -/
def noted (s : Recorder) (tid : Nat) (et : EventType) : List GraphEntry :=
  .record (s.execpoint tid) et ::
    match s.lastOf tid (s.currbranch tid) with
    | some p => if et ≠ .label ∧ et ≠ .loopstart then [.next p (s.execpoint tid)] else []
    | none => (s.currbranch tid).toList.map (.first · (s.execpoint tid))

def linkNoted (s : Recorder) (tid : Nat) (et : EventType) : Recorder :=
  if et ≠ .label ∧ et ≠ .loopstart then
    s.link (s.lastOf tid (s.currbranch tid)) (s.execpoint tid)
  else s

theorem getOrCreateCurrRecord_eq (s : Recorder) (tid : Nat) (et : EventType) (numinputs : Nat) :
    s.getOrCreateCurrRecord tid et numinputs =
      { s with
        records := ((s.createRecord tid et numinputs).linkNoted tid et).records
        firstrecord := match s.currbranch tid with
          | none => s.firstrecord
          | some branch =>
            if s.firstrecord branch = none then
              Function.update s.firstrecord branch (some (s.execpoint tid))
            else s.firstrecord
        lastrecord := match s.currbranch tid with
          | none => s.lastrecord
          | some branch => Function.update s.lastrecord branch (some (s.execpoint tid))
        alwaysexecuted := match s.currbranch tid with
          | none => Function.update s.alwaysexecuted tid (some (s.execpoint tid))
          | some _ => s.alwaysexecuted
        requests := s.requests ++ [Request.mk (s.execpoint tid) et numinputs] } := by
  have hcreate : ∃ records, s.createRecord tid et numinputs = { s with records := records } := by
    unfold createRecord
    split
    · exact ⟨s.records, rfl⟩
    · exact ⟨_, rfl⟩
  obtain ⟨records, hrecords⟩ := hcreate
  unfold getOrCreateCurrRecord linkNoted
  rw [hrecords]
  unfold lastOf
  by_cases hlinked : et ≠ .label ∧ et ≠ .loopstart
  · simp only [if_pos hlinked]
    cases hb : s.currbranch tid with
    | none => cases hlast : s.alwaysexecuted tid <;> simp [link, setNextRecord]
    | some branch =>
      by_cases hnone : s.firstrecord branch = none <;> cases hlast : s.lastrecord branch <;>
        simp [link, setNextRecord, hlast, hnone]
  · simp only [if_neg hlinked]
    cases hb : s.currbranch tid with
    | none => simp
    | some branch => by_cases hnone : s.firstrecord branch = none <;> simp [hnone]

theorem extends_getOrCreateCurrRecord (s : Recorder) (tid : Nat) (et : EventType)
    (numinputs : Nat) : Extends s (s.getOrCreateCurrRecord tid et numinputs) ∧
      (s.getOrCreateCurrRecord tid et numinputs).records (s.execpoint tid) ≠ none := by
  have hlinked : Extends (s.createRecord tid et numinputs)
      ((s.createRecord tid et numinputs).linkNoted tid et) := by
    unfold linkNoted
    split_ifs
    · exact extends_link _ _ _
    · exact Extends.refl _
  have hall := (extends_createRecord s tid et numinputs).trans hlinked
  rw [getOrCreateCurrRecord_eq]
  constructor
  · constructor
    · exact hall.records
    · intro branch hfirst
      cases hb : s.currbranch tid with
      | none => exact hfirst
      | some branch' =>
        rcases eq_or_ne branch branch' with rfl | hne <;> simp only <;> split_ifs <;> simp_all
  · exact hlinked.ne_none (createRecord_ne_none s tid et numinputs)

theorem getOrCreateCurrRecord_lastOf (s : Recorder) (tid : Nat) (et : EventType)
    (numinputs t : Nat) (branch : Option EPValue) :
    (s.getOrCreateCurrRecord tid et numinputs).lastOf t branch =
      if s.currbranch tid = branch ∧ (branch = none → t = tid) then some (s.execpoint tid)
      else s.lastOf t branch := by
  rw [getOrCreateCurrRecord_eq]
  cases hb : s.currbranch tid <;> cases branch <;>
    simp [lastOf, Function.update_apply, eq_comm]

theorem getOrCreateCurrRecord_firstrecord {s : Recorder} {tid : Nat} {branch : EPValue}
    (hbranch : s.currbranch tid = some branch) (et : EventType) (numinputs : Nat) :
    (s.getOrCreateCurrRecord tid et numinputs).firstrecord branch ≠ none := by
  rw [getOrCreateCurrRecord_eq, hbranch]
  simp only
  split_ifs with hnone
  · simp
  · exact hnone

theorem map_update_eq_none {f : EPRecord → EPRecord} {records : ExecPoint → Option EPRecord}
    {ep a : ExecPoint} : Function.update records a ((records a).map f) ep = none ↔
      records ep = none := by
  rcases eq_or_ne ep a with rfl | hep
  · simp
  · simp [hep]

private theorem getOrCreateCurrRecord_eq_none {s : Recorder} {tid : Nat} {ep : ExecPoint}
    (hep : ep ≠ s.execpoint tid) (hnone : s.records ep = none) (et : EventType) (numinputs : Nat) :
    (s.getOrCreateCurrRecord tid et numinputs).records ep = none := by
  have hcreate : (s.createRecord tid et numinputs).records ep = none := by
    unfold createRecord
    split
    · exact hnone
    · simp [hep, hnone]
  rw [getOrCreateCurrRecord_eq]
  unfold linkNoted link
  split_ifs
  · split
    · exact hcreate
    · exact map_update_eq_none.mpr hcreate
  · exact hcreate

theorem Linked.getOrCreateCurrRecord {s : Recorder} {tid : Nat} {b : Site} (h : s.Linked)
    (hpoint : s.execpoint tid = b.ep tid) (hcurr : s.currbranch tid = branchOf tid b.path)
    (et : EventType) (numinputs : Nat) : (s.getOrCreateCurrRecord tid et numinputs).Linked := by
  obtain ⟨hextends, hnew⟩ := extends_getOrCreateCurrRecord s tid et numinputs
  constructor
  · intro ep hep
    rw [getBranch_getOrCreateCurrRecord]
    split_ifs with hcurrent
    · refine ⟨b, ?_, ?_⟩ <;> simp [hcurrent.1, hpoint, hcurr]
    · have hold : s.records ep ≠ none := by
        intro hnone
        by_cases hpt : ep = s.execpoint tid
        · exact hcurrent ⟨hpt, hnone⟩
        · exact hep (getOrCreateCurrRecord_eq_none hpt hnone et numinputs)
      exact h.site ep hold
  · intro t branch p hp
    rw [getOrCreateCurrRecord_lastOf] at hp
    split_ifs at hp
    · obtain rfl := Option.some_inj.mp hp
      exact hnew
    · exact hextends.ne_none (h.last t branch p hp)
  · intro branch hlast
    by_cases hbranch : s.currbranch tid = some branch
    · exact getOrCreateCurrRecord_firstrecord hbranch et numinputs
    · have hold := getOrCreateCurrRecord_lastOf s tid et numinputs tid (some branch)
      rw [if_neg (fun hb => hbranch hb.1)] at hold
      apply hextends.first branch (h.first branch _)
      intro hnone
      exact hlast (hold.trans hnone)

theorem Logged.getOrCreateCurrRecord {s : Recorder} {log : Set GraphEntry} (h : s.Logged log)
    (hlinked : s.Linked) (tid : Nat) (et : EventType) (numinputs : Nat) :
    (s.getOrCreateCurrRecord tid et numinputs).Logged (log ∪ {e | e ∈ s.noted tid et}) := by
  have hcreate := logged_createRecord h tid et numinputs
  have hlastOf : (s.createRecord tid et numinputs).lastOf = s.lastOf ∧
      (s.createRecord tid et numinputs).firstrecord = s.firstrecord := by
    unfold createRecord
    split <;> exact ⟨rfl, rfl⟩
  rw [getOrCreateCurrRecord_eq]
  cases hlast : s.lastOf tid (s.currbranch tid) with
  | some p =>
    have hp : (s.createRecord tid et numinputs).records p ≠ none :=
      (extends_createRecord s tid et numinputs).ne_none (hlinked.last tid _ p hlast)
    have hlink : ((s.createRecord tid et numinputs).linkNoted tid et).Logged
        (log ∪ {e | e ∈ s.noted tid et}) := by
      have hset : log ∪ {e | e ∈ s.noted tid et} =
          if et ≠ .label ∧ et ≠ .loopstart then
            insert (.next p (s.execpoint tid)) (insert (.record (s.execpoint tid) et) log)
          else insert (.record (s.execpoint tid) et) log := by
        unfold noted
        rw [hlast]
        ext e
        split_ifs <;> simp [or_comm, or_left_comm]
      unfold linkNoted
      rw [hset]
      simp only [hlastOf.1, createRecord_currbranch, createRecord_execpoint, hlast, link]
      split_ifs
      · exact logged_setNextRecord hcreate hp
      · exact hcreate
    refine hlink.congr rfl ?_
    have hkeep : ((s.createRecord tid et numinputs).linkNoted tid et).firstrecord =
        s.firstrecord := by
      rw [← hlastOf.2]
      unfold linkNoted link
      split_ifs
      · split <;> rfl
      · rfl
    rw [hkeep]
    cases hb : s.currbranch tid with
    | none => rfl
    | some branch =>
      rw [hb] at hlast
      have hfirst : s.firstrecord branch ≠ none := hlinked.first branch (by simp_all [lastOf])
      simp only
      rw [if_neg hfirst]
  | none =>
    have hkeep : (s.createRecord tid et numinputs).linkNoted tid et =
        s.createRecord tid et numinputs := by
      unfold linkNoted
      rw [hlastOf.1, createRecord_currbranch, hlast]
      exact ite_self _
    rw [hkeep]
    cases hb : s.currbranch tid with
    | none =>
      have hset : log ∪ {e | e ∈ s.noted tid et} = insert (.record (s.execpoint tid) et) log := by
        unfold noted
        rw [hlast, hb]
        ext e
        simp [or_comm]
      rw [hset]
      exact hcreate.congr rfl hlastOf.2.symm
    | some branch =>
      have hset : log ∪ {e | e ∈ s.noted tid et} =
          insert (.first branch (s.execpoint tid)) (insert (.record (s.execpoint tid) et) log) := by
        unfold noted
        rw [hlast, hb]
        ext e
        simp [or_comm, or_left_comm]
      rw [hset]
      by_cases hfirst : s.firstrecord branch = none
      · refine (logged_setFirst hcreate).congr rfl ?_
        simp [hfirst, hlastOf.2]
      · intro len first
        apply EventGraph.Logged.extend_decided
        · refine hcreate.congr ?_ ?_ len first
          · rfl
          · simp [hfirst, hlastOf.2]
        · simp [EventGraph.Decides, graph, hfirst]

/-- A call of `getOrCreateCurrRecord` does not concern the other threads. -/
theorem spares_getOrCreateCurrRecord {s : Recorder} {tid t : Nat} {b : Site}
    (hcurr : s.currbranch tid = branchOf tid b.path) (ht : t ≠ tid) (et : EventType)
    (numinputs : Nat) : Spares s (s.getOrCreateCurrRecord tid et numinputs) t where
  toExtends := (extends_getOrCreateCurrRecord s tid et numinputs).1
  point := by simp
  values := by simp
  curr := by simp
  always := by
    have := getOrCreateCurrRecord_lastOf s tid et numinputs t none
    rwa [if_neg fun h => ht (h.2 rfl)] at this
  last branch hbranch := by
    have := getOrCreateCurrRecord_lastOf s tid et numinputs t (some branch)
    rwa [if_neg] at this
    rintro ⟨hb, -⟩
    rw [hcurr] at hb
    exact ht (hbranch.symm.trans (branchOf_tid hb))

theorem Spares.trans {s s' s'' : Recorder} {t : Nat} (h : Spares s s' t) (h' : Spares s' s'' t) :
    Spares s s'' t where
  toExtends := h.toExtends.trans h'.toExtends
  point := h'.point.trans h.point
  values := h'.values.trans h.values
  curr := h'.curr.trans h.curr
  always := h'.always.trans h.always
  last branch hbranch := (h'.last branch hbranch).trans (h.last branch hbranch)

theorem Spares.lastOf {s s' : Recorder} {t : Nat} (h : Spares s s' t) (path : Path) :
    s'.lastOf t (branchOf t path) = s.lastOf t (branchOf t path) := by
  cases hb : branchOf t path with
  | none => exact h.always
  | some branch => exact h.last branch (branchOf_tid hb)

/-! ## Steps between records -/

/-- Records and what is first and last on the branches stay, up to links and directions. -/
structure Relinks (s s' : Recorder) : Prop where
  none : ∀ ep, s'.records ep = none ↔ s.records ep = none
  branch : ∀ ep, s'.getBranch ep = s.getBranch ep
  first : s'.firstrecord = s.firstrecord
  last : s'.lastrecord = s.lastrecord
  always : s'.alwaysexecuted = s.alwaysexecuted

theorem Relinks.refl (s : Recorder) : Relinks s s :=
  ⟨fun _ => Iff.rfl, fun _ => rfl, rfl, rfl, rfl⟩

theorem Relinks.trans {s s' s'' : Recorder} (h : Relinks s s') (h' : Relinks s' s'') :
    Relinks s s'' where
  none ep := (h'.none ep).trans (h.none ep)
  branch ep := (h'.branch ep).trans (h.branch ep)
  first := h'.first.trans h.first
  last := h'.last.trans h.last
  always := h'.always.trans h.always

theorem relinks_setNextRecord (s : Recorder) (a b : ExecPoint) : Relinks s (s.setNextRecord a b) :=
  ⟨fun _ => map_update_eq_none, getBranch_setNextRecord s a b, rfl, rfl, rfl⟩

theorem relinks_linkLabel (s : Recorder) (a b : ExecPoint) : Relinks s (s.linkLabel a b) := by
  unfold linkLabel
  split_ifs
  · exact relinks_setNextRecord s a b
  · exact Relinks.refl s

@[simp] theorem linkLabel_execpoint (s : Recorder) (a b : ExecPoint) :
    (s.linkLabel a b).execpoint = s.execpoint := by
  unfold linkLabel
  split_ifs <;> rfl

@[simp] theorem linkLabel_currbranch (s : Recorder) (a b : ExecPoint) :
    (s.linkLabel a b).currbranch = s.currbranch := by
  unfold linkLabel
  split_ifs <;> rfl

@[simp] theorem linkLabel_epvalues (s : Recorder) (a b : ExecPoint) :
    (s.linkLabel a b).epvalues = s.epvalues := by
  unfold linkLabel
  split_ifs <;> rfl

theorem relinks_setChildRecord (s : Recorder) (a b : ExecPoint) :
    Relinks s (s.setChildRecord a b) :=
  ⟨fun _ => map_update_eq_none, getBranch_setChildRecord s a b, rfl, rfl, rfl⟩

theorem relinks_addEPValue (s : Recorder) (a : ExecPoint) (value : Nat) :
    Relinks s (s.addEPValue a value) :=
  ⟨fun _ => map_update_eq_none, getBranch_addEPValue s a value, rfl, rfl, rfl⟩

theorem relinks_setExecPoint (s : Recorder) (tid : Nat) (ep : ExecPoint) :
    Relinks s (s.setExecPoint tid ep) :=
  ⟨fun _ => Iff.rfl, fun _ => rfl, rfl, rfl, rfl⟩

theorem relinks_setCurrBranch (s : Recorder) (currbranch : Nat → Option EPValue) :
    Relinks s { s with currbranch := currbranch } :=
  ⟨fun _ => Iff.rfl, fun _ => rfl, rfl, rfl, rfl⟩

theorem relinks_popLoop (s : Recorder) (tid n : Nat) : Relinks s (popLoop tid n s) := by
  induction n generalizing s with
  | zero => exact Relinks.refl s
  | succ n ih =>
    have hpop := relinks_setExecPoint s tid (s.execpoint tid).pop
    unfold popLoop
    simp only
    split_ifs
    · exact hpop.trans (relinks_setCurrBranch _ _)
    · exact hpop
    · exact (hpop.trans (relinks_setCurrBranch _ _)).trans (ih _)
    · exact hpop.trans (ih _)

namespace Relinks

variable {s s' : Recorder}

theorem lastOf (h : Relinks s s') : s'.lastOf = s.lastOf := by
  funext tid branch
  cases branch with
  | none => exact congrFun h.always tid
  | some branch => exact congrFun h.last branch

theorem linked (h : Relinks s s') (hs : s.Linked) : s'.Linked where
  site ep hep := by
    obtain ⟨b, hb, hbranch⟩ := hs.site ep fun hnone => hep ((h.none ep).mpr hnone)
    exact ⟨b, hb, (h.branch ep).trans hbranch⟩
  last tid branch p hp := by
    rw [h.lastOf] at hp
    exact fun hnone => hs.last tid branch p hp ((h.none p).mp hnone)
  first branch hlast := by
    rw [h.last] at hlast
    rw [h.first]
    exact hs.first branch hlast

theorem toExtends (h : Relinks s s') : Extends s s' where
  records ep r hr := by
    obtain ⟨r', hr'⟩ := Option.ne_none_iff_exists'.mp fun hnone => by
      simp [(h.none ep).mp hnone] at hr
    have hbranch := h.branch ep
    exact ⟨r', hr', by simpa [getBranch, hr, hr'] using hbranch⟩
  first branch hfirst := by rwa [h.first]

theorem spares (h : Relinks s s') {t : Nat} (hpoint : s'.execpoint t = s.execpoint t)
    (hvalues : s'.epvalues t = s.epvalues t) (hcurr : s'.currbranch t = s.currbranch t) :
    Spares s s' t where
  toExtends := h.toExtends
  point := hpoint
  values := hvalues
  curr := hcurr
  always := congrFun h.always t
  last branch _ := congrFun h.last branch

end Relinks

theorem At.move {s s' : Recorder} {tid : Nat} {b b' : Site} (h : s.At tid b) (hs : Relinks s s')
    (hpoint : s'.execpoint tid = b'.ep tid) (hcurr : s'.currbranch tid = branchOf tid b'.path)
    (hbranches : ∀ c ∈ b'.path.branches, c ∈ b.path.branches)
    (hloops : ∀ l ∈ b'.path.loops, l ∈ b.path.loops) : s'.At tid b' where
  point := hpoint
  curr := hcurr
  branches c hc := by
    rw [hs.lastOf]
    exact h.branches c (hbranches c hc)
  loops l hl := by
    rw [hs.lastOf]
    exact ⟨hs.toExtends.ne_none (h.loops l (hloops l hl)).1, (h.loops l (hloops l hl)).2⟩

/-- A record noted at a site is there and is the last one on the branch of the site. -/
structure Noted (s : Recorder) (tid : Nat) (b : Site) : Prop extends At s tid b where
  linked : s.Linked
  record : s.records (b.ep tid) ≠ none
  last : s.lastOf tid (branchOf tid b.path) = some (b.ep tid)

theorem At.note {s : Recorder} {tid : Nat} {b : Site} (h : s.At tid b) (hlinked : s.Linked)
    (et : EventType) (numinputs : Nat) :
    (s.getOrCreateCurrRecord tid et numinputs).Noted tid b := by
  obtain ⟨hextends, hnew⟩ := extends_getOrCreateCurrRecord s tid et numinputs
  have hlast := getOrCreateCurrRecord_lastOf s tid et numinputs tid
  constructor
  · constructor
    · simpa using h.point
    · simpa using h.curr
    · intro c hc
      rw [hlast, if_neg]
      · exact h.branches c hc
      · rintro ⟨hcurr, -⟩
        rw [h.curr] at hcurr
        exact Site.branchOf_ne tid hc hcurr.symm
    · intro l hl
      refine ⟨hextends.ne_none (h.loops l hl).1, ?_⟩
      rw [hlast]
      split_ifs
      · exact ⟨b, by rw [h.point]⟩
      · exact (h.loops l hl).2
  · exact hlinked.getOrCreateCurrRecord h.point h.curr et numinputs
  · rwa [h.point] at hnew
  · rw [hlast, if_pos ⟨h.curr, fun _ => rfl⟩, h.point]

theorem Noted.relink {s s' : Recorder} {tid : Nat} {b : Site} (h : s.Noted tid b)
    (hs : Relinks s s') (hpoint : s'.execpoint tid = s.execpoint tid)
    (hcurr : s'.currbranch tid = s.currbranch tid) : s'.Noted tid b where
  toAt := h.toAt.move hs (hpoint.trans h.point) (hcurr.trans h.curr) (fun _ => id) fun _ => id
  linked := hs.linked h.linked
  record := hs.toExtends.ne_none h.record
  last := by rw [hs.lastOf, h.last]

end Recorder

end SatCheck
