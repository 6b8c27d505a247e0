import SatCheck.Scheduler
import SatCheck.ScheduleOrder
/-!
# The replay keeps to the order

The threads of a replay only wait for actions that are earlier in the order, and the
wait set index of a thread stands between the pairs of executed actions and the pairs
of actions that are still to come.
-/

namespace SatCheck

namespace Replay

open ScheduleBuilder

variable {paths : RecordedPaths} {order : ExecPoint → ExecPoint → Bool}
  {pairs : List WaitPair} {s s' : Replay}

/-- An action is executed after all actions that are earlier in the order. -/
def InOrder (paths : RecordedPaths) (order : ExecPoint → ExecPoint → Bool)
    (executed : List ExecPoint) : Prop :=
  ∀ pre e post, executed = pre ++ e :: post →
    ∀ f, paths.Action f → order f e = true → f ∈ pre

theorem InOrder.closed {paths : RecordedPaths} {order : ExecPoint → ExecPoint → Bool}
    {executed : List ExecPoint} (h : InOrder paths order executed) {f g : ExecPoint}
    (hf : paths.Action f) (hg : g ∈ executed) (hfg : order f g = true) : f ∈ executed := by
  obtain ⟨pre, post, hsplit⟩ := List.append_of_mem hg
  rw [hsplit]
  exact List.mem_append_left _ (h pre g post hsplit f hf hfg)

theorem InOrder.concat {paths : RecordedPaths} {order : ExecPoint → ExecPoint → Bool}
    {executed : List ExecPoint} (h : InOrder paths order executed) {e : ExecPoint}
    (hearlier : ∀ f, paths.Action f → order f e = true → f ∈ executed) :
    InOrder paths order (executed ++ [e]) := by
  intro pre g post hsplit f hf hfg
  rcases List.eq_nil_or_concat' post with rfl | ⟨post, x, rfl⟩
  · obtain ⟨rfl, hge⟩ := List.append_inj' hsplit rfl
    rw [← List.singleton_inj.mp hge] at hfg
    exact hearlier f hf hfg
  · rw [← List.cons_append, ← List.append_assoc] at hsplit
    exact h pre g post (List.append_inj' hsplit rfl).1 f hf hfg

structure ReplayOk (paths : RecordedPaths) (order : ExecPoint → ExecPoint → Bool)
    (pairs : List WaitPair) (s : Replay) : Prop where
  length_le : s.threads.length ≤ paths.num
  pos_le : ∀ t < s.threads.length, s.position t ≤ (paths.path t).length
  complete : ∀ t < s.threads.length, s.isComplete t = true →
    s.position t = (paths.path t).length
  executed : ∀ f, f ∈ s.executed ↔
    ∃ t < s.threads.length, .memory f ∈ (paths.path t).take (s.position t)
  inOrder : InOrder paths order s.executed
  waited : ∀ t, ∀ wp ∈ (waitset pairs t).take (s.waitsetindex t), wp.wait ∈ s.executed
  waiting : ∀ t, ∀ wp ∈ (waitset pairs t).drop (s.waitsetindex t), wp.stop ∉ s.executed

/-- A thread that is not complete has something left, unless its path is empty. -/
def Stopped (paths : RecordedPaths) (s : Replay) (t : Nat) : Prop :=
  s.isComplete t = false → s.position t < (paths.path t).length ∨ paths.path t = []

/-- The thread stands at an action that waits for one that is not executed. -/
def Blocked (paths : RecordedPaths) (order : ExecPoint → ExecPoint → Bool) (s : Replay)
    (t : Nat) : Prop :=
  ∃ e wait, (paths.path t)[s.position t]? = some (.memory e) ∧ paths.Action wait ∧
    order wait e = true ∧ wait ∉ s.executed ∧ wait.tid < s.threads.length

/-- No wait pair of the action at which the thread stands is left. -/
def Passed (paths : RecordedPaths) (pairs : List WaitPair) (s : Replay) (t : Nat) : Prop :=
  ∀ e, (paths.path t)[s.position t]? = some (.memory e) →
    ∀ wp ∈ (waitset pairs t).drop (s.waitsetindex t), wp.stop ≠ e

theorem execpoint_of_getElem? {t : Nat} {event : PathEvent}
    (h : (paths.path t)[s.position t]? = some event) : s.execpoint paths t = event.ep := by
  simp [execpoint, h]

/-! ## Consulting a thread -/

theorem ReplayOk.mem_executed (h : ReplayOk paths order pairs s) {f : ExecPoint} {t : Nat}
    (ht : t < s.threads.length) (hf : .memory f ∈ paths.path t) :
    f ∈ s.executed ↔ .memory f ∈ (paths.path t).take (s.position t) := by
  rw [h.executed]
  constructor
  · rintro ⟨u, hu, hmem⟩
    have htid := RecordedPaths.tid_of_memory (ht.trans_le h.length_le) hf
    have huid := RecordedPaths.tid_of_memory (hu.trans_le h.length_le) (List.mem_of_mem_take hmem)
    rwa [← huid, htid] at hmem
  · exact fun hmem => ⟨t, ht, hmem⟩

/-- What `checkSet` finds out about a waited-on action of an existing thread. -/
theorem ReplayOk.consult (h : ReplayOk paths order pairs s)
    (hstopped : ∀ t < s.threads.length, Stopped paths s t) {wait : ExecPoint}
    (hwait : paths.Action wait) (htid : wait.tid < s.threads.length) :
    (wait ∈ s.executed ∧ ((s.execpoint paths wait.tid).compare wait = .before ∨
        s.isComplete wait.tid = true)) ∨
      (wait ∉ s.executed ∧ s.isComplete wait.tid = false ∧
        ((s.execpoint paths wait.tid).compare wait = .after ∨
          (s.execpoint paths wait.tid).compare wait = .equals)) := by
  obtain ⟨hnum, hmem⟩ := hwait.mem
  have hincreasing := paths.increasing wait.tid hnum
  rw [h.mem_executed htid hmem]
  by_cases hlt : s.position wait.tid < (paths.path wait.tid).length
  · have hget := List.getElem?_eq_getElem hlt
    rw [execpoint_of_getElem? hget]
    by_cases htake : .memory wait ∈ (paths.path wait.tid).take (s.position wait.tid)
    · exact .inl ⟨htake, .inl (pairwise_of_mem_take hincreasing htake
        (mem_drop_of_getElem? hget)).2⟩
    · have hdrop := (mem_take_or_drop (s.position wait.tid) hmem).resolve_left htake
      have hincomplete : s.isComplete wait.tid = false := by
        rw [Bool.eq_false_iff]
        intro hcomplete
        exact hlt.ne (h.complete _ htid hcomplete)
      refine .inr ⟨htake, hincomplete, ?_⟩
      rcases eq_or_pairwise_of_mem_drop hincreasing hget hdrop with heq | hprec
      · exact .inr (by rw [← heq]; exact ExecPoint.compare_self wait)
      · exact .inl hprec.1
  · have hpos : s.position wait.tid = (paths.path wait.tid).length :=
      le_antisymm (h.pos_le _ htid) (not_lt.mp hlt)
    have hcomplete : s.isComplete wait.tid = true := by
      by_contra hincomplete
      rcases hstopped _ htid (Bool.eq_false_iff.mpr hincomplete) with hlt' | hnil
      · exact hlt hlt'
      · rw [hnil] at hmem
        cases hmem
    refine .inl ⟨?_, .inr hcomplete⟩
    rw [hpos, List.take_length]
    exact hmem

theorem ReplayOk.checkSet_cons (h : ReplayOk paths order pairs s)
    (hstopped : ∀ t < s.threads.length, Stopped paths s t) {current : ExecPoint} {wp : WaitPair}
    {wps : List WaitPair} (hstop : wp.stop.compare current = .equals)
    (hwait : paths.Action wp.wait) (htid : wp.wait.tid < s.threads.length) :
    s.checkSet paths current (wp :: wps) =
      if wp.wait ∈ s.executed then
        (s.checkSet paths current wps).map fun (passes, n) => (passes, n + 1)
      else some (false, 0) := by
  rw [checkSet, hstop]
  simp only [not_le.mpr htid, if_false]
  rcases h.consult hstopped hwait htid with ⟨hexec, hcmp | hcomplete⟩ | ⟨hexec, hinc, hcmp | hcmp⟩
  · rw [hcmp, if_pos hexec]
  · rw [if_pos hexec, hcomplete]
    cases (s.execpoint paths wp.wait.tid).compare wp.wait <;> rfl
  · rw [hcmp, if_neg hexec, hinc]
    rfl
  · rw [hcmp, if_neg hexec, hinc]
    rfl

theorem ReplayOk.checkSet_spec (h : ReplayOk paths order pairs s)
    (hstopped : ∀ t < s.threads.length, Stopped paths s t) {current : ExecPoint}
    {wps : List WaitPair} {passes : Bool} {n : Nat} (hwaits : ∀ wp ∈ wps, paths.Action wp.wait)
    (hcheck : s.checkSet paths current wps = some (passes, n)) :
    (∀ wp ∈ wps.take n, wp.wait ∈ s.executed) ∧
      (passes = true → ∀ wp wps', wps.drop n = wp :: wps' → wp.stop.compare current ≠ .equals) ∧
      (passes = false → ∃ wp ∈ wps, wp.stop.compare current = .equals ∧
        wp.wait ∉ s.executed ∧ wp.wait.tid < s.threads.length) := by
  induction wps generalizing n with
  | nil =>
    simp only [checkSet, Option.some.injEq, Prod.mk.injEq] at hcheck
    obtain ⟨rfl, rfl⟩ := hcheck
    simp
  | cons wp wps ih =>
    rw [List.forall_mem_cons] at hwaits
    by_cases hstop : wp.stop.compare current = .equals
    · by_cases htid : wp.wait.tid < s.threads.length
      · rw [h.checkSet_cons hstopped hstop hwaits.1 htid] at hcheck
        split_ifs at hcheck with hexec
        · obtain ⟨⟨passes', n'⟩, hrest, heq⟩ := Option.map_eq_some_iff.mp hcheck
          simp only [Prod.mk.injEq] at heq
          obtain ⟨rfl, rfl⟩ := heq
          obtain ⟨htake, hpass, hfail⟩ := ih hwaits.2 hrest
          refine ⟨?_, hpass, fun hfalse => ?_⟩
          · rw [List.take_succ_cons, List.forall_mem_cons]
            exact ⟨hexec, htake⟩
          · obtain ⟨wp', hwp', hrest⟩ := hfail hfalse
            exact ⟨wp', List.mem_cons_of_mem wp hwp', hrest⟩
        · simp only [Option.some.injEq, Prod.mk.injEq] at hcheck
          obtain ⟨rfl, rfl⟩ := hcheck
          exact ⟨by simp, by simp, fun _ => ⟨wp, by simp, hstop, hexec, htid⟩⟩
      · rw [checkSet, hstop] at hcheck
        simp [not_lt.mp htid] at hcheck
    · have htrue : s.checkSet paths current (wp :: wps) = some (true, 0) := by
        rw [checkSet]
        cases hcmp : wp.stop.compare current <;> simp_all
      rw [htrue] at hcheck
      simp only [Option.some.injEq, Prod.mk.injEq] at hcheck
      obtain ⟨rfl, rfl⟩ := hcheck
      refine ⟨by simp, fun _ wp' wps' hdrop => ?_, by simp⟩
      rw [List.drop_zero, List.cons.injEq] at hdrop
      rw [← hdrop.1]
      exact hstop

/-! ## Choosing a thread -/

theorem mem_waitset {t : Nat} {wp : WaitPair} :
    wp ∈ waitset pairs t ↔ wp ∈ pairs ∧ wp.stop.tid = t := by
  simp [waitset]

/-- The stop of a pair that is left comes from where the thread stands on. -/
theorem ReplayOk.stop_mem_drop (h : ReplayOk paths order pairs s)
    (hwaits : WaitsFor paths order pairs) {t : Nat} (ht : t < s.threads.length) {wp : WaitPair}
    (hwp : wp ∈ (waitset pairs t).drop (s.waitsetindex t)) :
    .memory wp.stop ∈ (paths.path t).drop (s.position t) := by
  obtain ⟨hpair, htid⟩ := mem_waitset.mp (List.mem_of_mem_drop hwp)
  have hmem := (hwaits.earlier wp hpair).1.mem.2
  rw [htid] at hmem
  apply (mem_take_or_drop (s.position t) hmem).resolve_left
  intro htake
  exact h.waiting t wp hwp ((h.mem_executed ht hmem).mpr htake)

/-- Where the stop of a pair that is left compares as equal, the thread stands at it. -/
theorem ReplayOk.record_of_stop (h : ReplayOk paths order pairs s)
    (hwaits : WaitsFor paths order pairs) {t : Nat} (ht : t < s.threads.length) {wp : WaitPair}
    (hwp : wp ∈ (waitset pairs t).drop (s.waitsetindex t))
    (hstop : wp.stop.compare (s.execpoint paths t) = .equals) :
    (paths.path t)[s.position t]? = some (.memory wp.stop) := by
  have hdrop := h.stop_mem_drop hwaits ht hwp
  have hlt : s.position t < (paths.path t).length := by
    have hlength := List.length_pos_of_mem hdrop
    rw [List.length_drop] at hlength
    omega
  have hget := List.getElem?_eq_getElem hlt
  rw [execpoint_of_getElem? hget] at hstop
  rcases eq_or_pairwise_of_mem_drop (paths.increasing t (ht.trans_le h.length_le)) hget hdrop
    with heq | hprec
  · rw [hget, heq]
  · have hbefore := hprec.2
    change wp.stop.compare _ = _ at hbefore
    rw [hstop] at hbefore
    cases hbefore

theorem ReplayOk.checkThread_spec (h : ReplayOk paths order pairs s)
    (hstopped : ∀ t < s.threads.length, Stopped paths s t) (horder : paths.OrderOk order)
    (hwaits : WaitsFor paths order pairs) {t : Nat} (ht : t < s.threads.length) {passes : Bool}
    (hcheck : s.checkThread paths pairs t = some (passes, s')) :
    (∃ index, s' = { s with waitsetindex := index }) ∧ ReplayOk paths order pairs s' ∧
      (passes = true → Passed paths pairs s' t) ∧ (passes = false → Blocked paths order s t) := by
  obtain ⟨⟨passes', n⟩, hset, heq⟩ := Option.map_eq_some_iff.mp hcheck
  simp only [Prod.mk.injEq] at heq
  obtain ⟨rfl, rfl⟩ := heq
  have hpairs : ∀ wp ∈ (waitset pairs t).drop (s.waitsetindex t), wp ∈ pairs := fun wp hwp =>
    (mem_waitset.mp (List.mem_of_mem_drop hwp)).1
  obtain ⟨htake, hpass, hfail⟩ := h.checkSet_spec hstopped
    (fun wp hwp => (hwaits.earlier wp (hpairs wp hwp)).2.1) hset
  rw [List.drop_drop] at hpass
  refine ⟨⟨_, rfl⟩, { h with waited := ?_, waiting := ?_ }, fun htrue e he wp hwp => ?_,
    fun hfalse => ?_⟩
  · intro u wp hwp
    simp only at hwp
    split_ifs at hwp with hu
    · subst hu
      rw [List.take_add, List.mem_append] at hwp
      rcases hwp with hwp | hwp
      · exact h.waited u wp hwp
      · exact htake wp hwp
    · exact h.waited u wp hwp
  · intro u wp hwp
    simp only at hwp
    split_ifs at hwp with hu
    · subst hu
      rw [← List.drop_drop] at hwp
      exact h.waiting u wp (List.mem_of_mem_drop hwp)
    · exact h.waiting u wp hwp
  · simp only [if_pos] at hwp
    change (paths.path t)[s.position t]? = some (.memory e) at he
    have heact : paths.Action e := ⟨t, ht.trans_le h.length_le, List.mem_of_getElem? he⟩
    have hleft : ∀ wp ∈ (waitset pairs t).drop (s.waitsetindex t + n),
        .memory wp.stop ∈ (paths.path t).drop (s.position t) := by
      intro wp hwp
      rw [← List.drop_drop] at hwp
      exact h.stop_mem_drop hwaits ht (List.mem_of_mem_drop hwp)
    cases hdrop : (waitset pairs t).drop (s.waitsetindex t + n) with
    | nil => rw [hdrop] at hwp; cases hwp
    | cons wp₀ wps =>
      rw [hdrop] at hwp hleft
      have hne : wp₀.stop ≠ e := by
        rintro rfl
        apply hpass htrue wp₀ wps hdrop
        rw [execpoint_of_getElem? he]
        exact ExecPoint.compare_self wp₀.stop
      have hlt : order e wp₀.stop = true :=
        (horder.head_le (ht.trans_le h.length_le) he (hleft wp₀ (by simp))).resolve_left hne
      rcases List.mem_cons.mp hwp with rfl | hwp
      · exact hne
      · have hsorted : ((waitset pairs t).drop (s.waitsetindex t + n)).Pairwise fun wp wp' =>
            wp.stop = wp'.stop ∨ order wp.stop wp'.stop = true :=
          (hwaits.sorted.sublist List.filter_sublist).sublist (List.drop_sublist _ _)
        rw [hdrop] at hsorted
        have hstop : ∀ wp ∈ wp₀ :: wps, paths.Action wp.stop := fun wp hwp =>
          ⟨t, ht.trans_le h.length_le, List.mem_of_mem_drop (hleft wp hwp)⟩
        rcases List.rel_of_pairwise_cons hsorted hwp with heq | hlt'
        · rw [← heq]
          exact hne
        · rintro rfl
          have hself := horder.trans _ _ _ heact (hstop wp₀ (by simp)) heact hlt hlt'
          rw [horder.irrefl _ heact] at hself
          cases hself
  · obtain ⟨wp, hwp, hstop, hexec, htid⟩ := hfail hfalse
    have hearlier := hwaits.earlier wp (hpairs wp hwp)
    exact ⟨wp.stop, wp.wait, h.record_of_stop hwaits ht hwp hstop, hearlier.2.1, hearlier.2.2.1,
      hexec, htid⟩

theorem ReplayOk.findThread_spec (h : ReplayOk paths order pairs s)
    (hstopped : ∀ t < s.threads.length, Stopped paths s t) (horder : paths.OrderOk order)
    (hwaits : WaitsFor paths order pairs) {tids : List Nat}
    (htids : ∀ t ∈ tids, t < s.threads.length) {r : Option Nat}
    (hfind : s.findThread paths pairs tids = some (r, s')) :
    (∃ index, s' = { s with waitsetindex := index }) ∧ ReplayOk paths order pairs s' ∧
      (∀ t, r = some t → t ∈ tids ∧ s.isComplete t = false ∧ Passed paths pairs s' t) ∧
      (r = none → ∀ t ∈ tids, s.isComplete t = false → Blocked paths order s t) := by
  induction tids generalizing s with
  | nil =>
    simp only [findThread, Option.some.injEq, Prod.mk.injEq] at hfind
    obtain ⟨rfl, rfl⟩ := hfind
    exact ⟨⟨_, rfl⟩, h, by simp, by simp⟩
  | cons tid tids ih =>
    rw [List.forall_mem_cons] at htids
    rw [findThread] at hfind
    split_ifs at hfind with hcomplete
    · obtain ⟨hsame, hok, hsome, hnone⟩ := ih h hstopped htids.2 hfind
      refine ⟨hsame, hok, fun t ht => ?_, fun hr => ?_⟩
      · exact (hsome t ht).imp_left (List.mem_cons_of_mem tid)
      · rw [List.forall_mem_cons]
        exact ⟨fun hincomplete => by simp [hcomplete] at hincomplete, hnone hr⟩
    · have hincomplete : s.isComplete tid = false := by simpa using hcomplete
      cases hcheck : s.checkThread paths pairs tid with
      | none => simp [hcheck] at hfind
      | some result =>
        obtain ⟨passes, s₁⟩ := result
        obtain ⟨⟨index, rfl⟩, hok, hpass, hfail⟩ :=
          h.checkThread_spec hstopped horder hwaits htids.1 hcheck
        rw [hcheck] at hfind
        cases passes with
        | true =>
          simp only [Option.some.injEq, Prod.mk.injEq] at hfind
          obtain ⟨rfl, rfl⟩ := hfind
          refine ⟨⟨_, rfl⟩, hok, fun t ht => ?_, by simp⟩
          cases ht
          exact ⟨by simp, hincomplete, hpass rfl⟩
        | false =>
          obtain ⟨⟨index', rfl⟩, hok', hsome, hnone⟩ := ih hok hstopped htids.2 hfind
          refine ⟨⟨_, rfl⟩, hok', fun t ht => ?_, fun hr => ?_⟩
          · exact (hsome t ht).imp_left (List.mem_cons_of_mem tid)
          · rw [List.forall_mem_cons]
            exact ⟨fun _ => hfail rfl, hnone hr⟩

theorem mem_candidates {tid t : Nat} : t ∈ s.candidates tid ↔ t < s.threads.length := by
  simp only [candidates, List.mem_map, List.mem_range]
  constructor
  · rintro ⟨i, hi, rfl⟩
    exact Nat.mod_lt _ (Nat.zero_lt_of_lt hi)
  · intro ht
    have hstart : (tid + 1) % s.threads.length < s.threads.length :=
      Nat.mod_lt _ (Nat.zero_lt_of_lt ht)
    rcases le_or_gt ((tid + 1) % s.threads.length) t with hle | hlt
    · refine ⟨t - (tid + 1) % s.threads.length, by omega, ?_⟩
      rw [← Nat.mod_add_mod, Nat.add_sub_cancel' hle, Nat.mod_eq_of_lt ht]
    · refine ⟨s.threads.length - (tid + 1) % s.threads.length + t, by omega, ?_⟩
      rw [← Nat.mod_add_mod, ← Nat.add_assoc, Nat.add_sub_cancel' hstart.le, Nat.add_mod_left,
        Nat.mod_eq_of_lt ht]

/-- Of several incomplete threads at least the one with the earliest action is not blocked. -/
theorem ReplayOk.exists_not_blocked (h : ReplayOk paths order pairs s)
    (horder : paths.OrderOk order) {t : Nat} (ht : t < s.threads.length)
    (hincomplete : s.isComplete t = false) :
    ∃ u < s.threads.length, s.isComplete u = false ∧ ¬ Blocked paths order s u := by
  by_contra hall
  push Not at hall
  set heads := (List.range s.threads.length).filterMap fun u =>
    if s.isComplete u then none else ((paths.path u)[s.position u]?).bind PathEvent.memory?
    with hheads
  have hmem : ∀ u < s.threads.length, s.isComplete u = false → ∀ e,
      (paths.path u)[s.position u]? = some (.memory e) → e ∈ heads := by
    intro u hu hinc e he
    refine List.mem_filterMap.mpr ⟨u, List.mem_range.mpr hu, ?_⟩
    simp [hinc, he, PathEvent.memory?]
  have hhead : ∀ e ∈ heads, ∃ u < s.threads.length, s.isComplete u = false ∧
      (paths.path u)[s.position u]? = some (.memory e) := by
    intro e he
    obtain ⟨u, hu, he⟩ := List.mem_filterMap.mp he
    split_ifs at he with hcomplete
    obtain ⟨event, hget, hevent⟩ := Option.bind_eq_some_iff.mp he
    cases event <;> simp [PathEvent.memory?] at hevent
    subst hevent
    exact ⟨u, List.mem_range.mp hu, by simpa using hcomplete, hget⟩
  have haction : ∀ e ∈ heads, paths.Action e := by
    intro e he
    obtain ⟨u, hu, -, hget⟩ := hhead e he
    exact ⟨u, hu.trans_le h.length_le, List.mem_of_getElem? hget⟩
  rcases earliest_spec horder haction with ⟨hnil, -⟩ | ⟨m, hm, -, hmin⟩
  · obtain ⟨e, -, he, -⟩ := hall t ht hincomplete
    have hempty := hmem t ht hincomplete e he
    rw [hnil] at hempty
    cases hempty
  · obtain ⟨u, hu, hinc, hget⟩ := hhead m hm
    obtain ⟨e, wait, he, hwait, hlt, hexec, htid⟩ := hall u hu hinc
    obtain rfl : m = e := by simpa [hget] using he
    -- the thread of the waited-on action stands at it or before it
    have hpath := hwait.mem.2
    have hdrop := (mem_take_or_drop (s.position wait.tid) hpath).resolve_left fun htake =>
      hexec ((h.mem_executed htid hpath).mpr htake)
    have hinc' : s.isComplete wait.tid = false := by
      rw [Bool.eq_false_iff]
      intro hcomplete
      rw [h.complete _ htid hcomplete, List.drop_length] at hdrop
      cases hdrop
    obtain ⟨e', wait', he', -⟩ := hall wait.tid htid hinc'
    have he'act := haction e' (hmem _ htid hinc' e' he')
    have hle : wait = e' ∨ order e' wait = true :=
      horder.head_le (htid.trans_le h.length_le) he' hdrop
    have hlt' : order e' m = true := by
      rcases hle with rfl | hle
      · exact hlt
      · exact horder.trans _ _ _ he'act hwait (haction m hm) hle hlt
    rcases hmin e' (hmem _ htid hinc' e' he') with rfl | hgt
    · rw [horder.irrefl _ he'act] at hlt'
      cases hlt'
    · rw [horder.asymm (haction m hm) he'act hgt] at hlt'
      cases hlt'

/-! ## Running a thread -/

@[simp] theorem length_setThread (s : Replay) (tid : Nat) (thread : ReplayThread) :
    (s.setThread tid thread).threads.length = s.threads.length := by
  simp [setThread]

@[simp] theorem executed_setThread (s : Replay) (tid : Nat) (thread : ReplayThread) :
    (s.setThread tid thread).executed = s.executed := rfl

@[simp] theorem setThread_setThread (s : Replay) (tid : Nat) (a b : ReplayThread) :
    (s.setThread tid a).setThread tid b = s.setThread tid b := by
  simp [setThread]

theorem position_setThread {tid : Nat} (htid : tid < s.threads.length) (thread : ReplayThread)
    (t : Nat) :
    (s.setThread tid thread).position t = if t = tid then thread.pos else s.position t := by
  by_cases heq : t = tid
  · subst heq
    simp [position, setThread, htid]
  · simp [position, setThread, List.getElem?_set_ne (Ne.symm heq), heq]

theorem isComplete_setThread {tid : Nat} (htid : tid < s.threads.length)
    (thread : ReplayThread) (t : Nat) :
    (s.setThread tid thread).isComplete t =
      if t = tid then thread.complete else s.isComplete t := by
  by_cases heq : t = tid
  · subst heq
    simp [isComplete, setThread, htid]
  · simp [isComplete, setThread, List.getElem?_set_ne (Ne.symm heq), heq]

theorem ReplayOk.setThread (h : ReplayOk paths order pairs s) {tid : Nat}
    (htid : tid < s.threads.length) {thread : ReplayThread}
    (hpos : thread.pos ≤ (paths.path tid).length)
    (hcomplete : thread.complete = true → thread.pos = (paths.path tid).length)
    (hmem : ∀ f, .memory f ∈ (paths.path tid).take thread.pos ↔
      .memory f ∈ (paths.path tid).take (s.position tid)) :
    ReplayOk paths order pairs (s.setThread tid thread) where
  length_le := by simpa using h.length_le
  pos_le t ht := by
    rw [position_setThread htid]
    split_ifs with heq
    · exact heq ▸ hpos
    · exact h.pos_le t (by simpa using ht)
  complete t ht := by
    rw [position_setThread htid, isComplete_setThread htid]
    split_ifs with heq
    · exact heq ▸ hcomplete
    · exact h.complete t (by simpa using ht)
  executed f := by
    rw [executed_setThread, h.executed, length_setThread]
    refine exists_congr fun t => and_congr_right fun _ => ?_
    rw [position_setThread htid]
    split_ifs with heq
    · rw [heq, hmem]
    · rfl
  inOrder := h.inOrder
  waited := h.waited
  waiting := h.waiting

theorem length_addThread (s : Replay) : s.addThread.threads.length = s.threads.length + 1 := by
  simp [addThread]

theorem position_addThread (s : Replay) (t : Nat) :
    s.addThread.position t = if t < s.threads.length then s.position t else 0 := by
  simp only [position, addThread, List.getElem?_append, List.getElem?_singleton]
  split_ifs with hlt hlast <;> simp

theorem isComplete_addThread (s : Replay) (t : Nat) :
    s.addThread.isComplete t = if t < s.threads.length then s.isComplete t else false := by
  simp only [isComplete, addThread, List.getElem?_append, List.getElem?_singleton]
  split_ifs with hlt hlast <;> simp

theorem setThread_addThread {tid : Nat} (htid : tid < s.threads.length) (thread : ReplayThread) :
    s.addThread.setThread tid thread = (s.setThread tid thread).addThread := by
  simp [addThread, Replay.setThread, List.set_append_left _ _ htid]

theorem ReplayOk.addThread (h : ReplayOk paths order pairs s)
    (hnum : s.threads.length < paths.num) : ReplayOk paths order pairs s.addThread := by
  refine ⟨?_, fun t _ => ?_, fun t _ => ?_, fun f => ?_, h.inOrder, h.waited, h.waiting⟩
  · rw [length_addThread]
    exact hnum
  · rw [position_addThread]
    split_ifs with hlt
    · exact h.pos_le t hlt
    · exact Nat.zero_le _
  · rw [position_addThread, isComplete_addThread]
    split_ifs with hlt
    · exact h.complete t hlt
    · simp
  · change f ∈ s.executed ↔ _
    rw [h.executed, length_addThread]
    constructor
    · rintro ⟨t, ht, hmem⟩
      refine ⟨t, Nat.lt_succ_of_lt ht, ?_⟩
      rwa [position_addThread, if_pos ht]
    · rintro ⟨t, _, hmem⟩
      rw [position_addThread] at hmem
      split_ifs at hmem with hlt
      · exact ⟨t, hlt, hmem⟩
      · simp at hmem

/-- Where a thread has passed its check, all actions before the one it stands at are executed. -/
theorem ReplayOk.executed_of_passed (h : ReplayOk paths order pairs s)
    (horder : paths.OrderOk order) (hwaits : WaitsFor paths order pairs) {tid : Nat}
    (htid : tid < s.threads.length) {e : ExecPoint}
    (he : (paths.path tid)[s.position tid]? = some (.memory e))
    (hpassed : Passed paths pairs s tid) {f : ExecPoint} (hf : paths.Action f)
    (hfe : order f e = true) : f ∈ s.executed := by
  have hnum := htid.trans_le h.length_le
  have hpath := List.mem_of_getElem? he
  have hetid : e.tid = tid := RecordedPaths.tid_of_memory hnum hpath
  by_cases hftid : f.tid = tid
  · have hpathf := hf.mem.2
    rw [hftid] at hpathf
    rw [h.mem_executed htid hpathf]
    apply (mem_take_or_drop (s.position tid) hpathf).resolve_right
    intro hdrop
    rcases horder.head_le hnum he hdrop with rfl | hef
    · simp [horder.irrefl f hf] at hfe
    · simp [horder.asymm ⟨tid, hnum, hpath⟩ hf hef] at hfe
  · obtain ⟨wp, hwp, hstop, -, hle⟩ :=
      hwaits.covers e f ⟨tid, hnum, hpath⟩ hf hfe (hetid ▸ hftid)
    have hset : wp ∈ waitset pairs tid := mem_waitset.mpr ⟨hwp, hstop ▸ hetid⟩
    have htake := (mem_take_or_drop (s.waitsetindex tid) hset).resolve_right fun hdrop =>
      hpassed e he wp hdrop hstop
    have hexec := h.waited tid wp htake
    rcases hle with rfl | hlt
    · exact hexec
    · exact h.inOrder.closed hf hexec hlt

theorem ReplayOk.mem_executed_perform (h : ReplayOk paths order pairs s) {tid : Nat}
    (htid : tid < s.threads.length) {e : ExecPoint} {position : Nat → Nat}
    (he : (paths.path tid)[s.position tid]? = some (.memory e))
    (hposition : ∀ u, position u = if u = tid then s.position tid + 1 else s.position u)
    (f : ExecPoint) :
    f ∈ s.executed ++ [e] ↔
      ∃ u < s.threads.length, .memory f ∈ (paths.path u).take (position u) := by
  have htake := take_succ_of_getElem? he
  rw [List.mem_append, List.mem_singleton, h.executed]
  constructor
  · rintro (⟨u, hu, hmem⟩ | rfl)
    · refine ⟨u, hu, ?_⟩
      rw [hposition]
      split_ifs with heq
      · subst heq
        rw [htake]
        exact List.mem_append_left _ hmem
      · exact hmem
    · refine ⟨tid, htid, ?_⟩
      rw [hposition, if_pos rfl, htake]
      simp
  · rintro ⟨u, hu, hmem⟩
    rw [hposition] at hmem
    split_ifs at hmem with heq
    · subst heq
      rw [htake, List.mem_append, List.mem_singleton] at hmem
      exact hmem.imp (fun hmem => ⟨u, hu, hmem⟩) PathEvent.memory.inj
    · exact .inl ⟨u, hu, hmem⟩

/-- The action at which a thread has passed its check is performed. -/
theorem ReplayOk.perform (h : ReplayOk paths order pairs s) (horder : paths.OrderOk order)
    (hwaits : WaitsFor paths order pairs) {tid : Nat} (htid : tid < s.threads.length)
    {e : ExecPoint} (he : (paths.path tid)[s.position tid]? = some (.memory e))
    (hpassed : Passed paths pairs s tid) (thread : ReplayThread)
    (hpos : thread.pos = s.position tid + 1) (hcomplete : thread.complete = false) :
    ReplayOk paths order pairs
      ({ s with executed := s.executed ++ [e] }.setThread tid thread) := by
  set t : Replay := { s with executed := s.executed ++ [e] } with ht
  have hposition : ∀ u, (t.setThread tid thread).position u =
      if u = tid then thread.pos else s.position u := position_setThread (s := t) htid thread
  have hcompleted : ∀ u, (t.setThread tid thread).isComplete u =
      if u = tid then thread.complete else s.isComplete u :=
    isComplete_setThread (s := t) htid thread
  have hexecuted : (t.setThread tid thread).executed = s.executed ++ [e] := rfl
  have hlength : (t.setThread tid thread).threads.length = s.threads.length :=
    length_setThread t tid thread
  refine ⟨hlength ▸ h.length_le, fun u hu => ?_, fun u hu hc => ?_, fun f => ?_, ?_, ?_, ?_⟩
  · rw [hlength] at hu
    rw [hposition]
    split_ifs with heq
    · rw [heq, hpos]
      exact (List.getElem?_eq_some_iff.mp he).1
    · exact h.pos_le u hu
  · rw [hlength] at hu
    rw [hcompleted] at hc
    rw [hposition]
    split_ifs at hc ⊢ with heq
    · rw [hcomplete] at hc
      cases hc
    · exact h.complete u hu hc
  · rw [hexecuted, hlength]
    exact h.mem_executed_perform htid he (by simpa [hpos] using hposition) f
  · exact h.inOrder.concat fun f hf hfe => h.executed_of_passed horder hwaits htid he hpassed hf hfe
  · intro u wp hwp
    exact List.mem_append_left _ (h.waited u wp hwp)
  · intro u wp hwp
    rw [hexecuted, List.mem_append, List.mem_singleton, not_or]
    refine ⟨h.waiting u wp hwp, fun hstop => ?_⟩
    have hetid : e.tid = tid :=
      RecordedPaths.tid_of_memory (htid.trans_le h.length_le) (List.mem_of_getElem? he)
    have hu : u = tid := by
      rw [← (mem_waitset.mp (List.mem_of_mem_drop hwp)).2, hstop, hetid]
    subst hu
    exact hpassed e he wp hwp hstop

theorem stopped_setThread {tid : Nat} (htid : tid < s.threads.length) {thread : ReplayThread}
    (hthread : thread.complete = true ∨ thread.pos < (paths.path tid).length)
    (hothers : ∀ t < s.threads.length, t ≠ tid → Stopped paths s t) :
    ∀ t < (s.setThread tid thread).threads.length, Stopped paths (s.setThread tid thread) t := by
  intro t ht
  rw [length_setThread] at ht
  unfold Stopped
  rw [position_setThread htid, isComplete_setThread htid]
  split_ifs with heq
  · subst heq
    intro hincomplete
    apply Or.inl
    apply hthread.resolve_left
    rw [hincomplete]
    exact Bool.false_ne_true
  · exact hothers t ht heq

theorem stopped_addThread {tid : Nat}
    (hothers : ∀ t < s.threads.length, t ≠ tid → Stopped paths s t) :
    ∀ t < s.addThread.threads.length, t ≠ tid → Stopped paths s.addThread t := by
  intro t _ hne
  unfold Stopped
  rw [position_addThread, isComplete_addThread]
  split_ifs with hlt
  · exact hothers t hlt hne
  · intro _
    rcases List.eq_nil_or_concat' (paths.path t) with hnil | ⟨l, x, hsplit⟩
    · exact .inr hnil
    · exact .inl (by rw [hsplit]; simp)

theorem ReplayOk.pass {tid pos : Nat} {event : PathEvent}
    (h : ReplayOk paths order pairs (s.setThread tid ⟨pos, false, true⟩))
    (htid : tid < s.threads.length) (hget : (paths.path tid)[pos]? = some event)
    (hevent : event.memory? = none) :
    ReplayOk paths order pairs (s.setThread tid ⟨pos + 1, false, true⟩) := by
  have hlt : pos < (paths.path tid).length := (List.getElem?_eq_some_iff.mp hget).1
  rw [← setThread_setThread s tid ⟨pos, false, true⟩]
  refine h.setThread (by simpa using htid) ?_ (by simp) fun f => ?_
  · exact hlt
  · rw [position_setThread htid, if_pos rfl, take_succ_of_getElem? hget, List.mem_append,
      List.mem_singleton, or_iff_left]
    rintro rfl
    cases hevent

theorem ReplayOk.runOn {tid pos : Nat} {rest : List PathEvent}
    (h : ReplayOk paths order pairs (s.setThread tid ⟨pos, false, true⟩))
    (htid : tid < s.threads.length) (hrest : (paths.path tid).drop pos = rest)
    (hstopped : ∀ t < s.threads.length, t ≠ tid → Stopped paths s t)
    (hrun : s.runOn tid pos rest = some s') :
    ReplayOk paths order pairs s' ∧ (∀ t < s'.threads.length, Stopped paths s' t) ∧
      tid < s'.threads.length := by
  have hposle : pos ≤ (paths.path tid).length := by
    have hle := h.pos_le tid (by simpa using htid)
    rwa [position_setThread htid, if_pos rfl] at hle
  induction rest generalizing s pos with
  | nil =>
    have hpos : pos = (paths.path tid).length :=
      le_antisymm hposle (List.drop_eq_nil_iff.mp hrest)
    cases hrun
    refine ⟨?_, stopped_setThread htid (.inl rfl) hstopped, by simpa using htid⟩
    rw [← setThread_setThread s tid ⟨pos, false, true⟩]
    apply h.setThread (by simpa using htid) hposle fun _ => hpos
    intro f
    rw [position_setThread htid, if_pos rfl]
  | cons event rest ih =>
    have hlt : pos < (paths.path tid).length := by
      by_contra hge
      rw [List.drop_eq_nil_of_le (not_lt.mp hge)] at hrest
      cases hrest
    rw [List.drop_eq_getElem_cons hlt, List.cons.injEq] at hrest
    have hget : (paths.path tid)[pos]? = some event := by
      rw [List.getElem?_eq_getElem hlt, hrest.1]
    have hparked : ReplayOk paths order pairs (s.setThread tid ⟨pos, false, true⟩) ∧
        (∀ t < (s.setThread tid ⟨pos, false, true⟩).threads.length,
          Stopped paths (s.setThread tid ⟨pos, false, true⟩) t) ∧
        tid < (s.setThread tid ⟨pos, false, true⟩).threads.length :=
      ⟨h, stopped_setThread htid (.inr hlt) hstopped, by simpa using htid⟩
    cases event with
    | memory ep =>
      cases hrun
      exact hparked
    | other ep =>
      exact ih (h.pass htid hget rfl) htid hrest.2 hstopped hrun hlt
    | threadJoin ep target =>
      rw [Replay.runOn] at hrun
      split_ifs at hrun
      · exact ih (h.pass htid hget rfl) htid hrest.2 hstopped hrun hlt
      · cases hrun
        exact hparked
    | threadCreate ep child =>
      rw [Replay.runOn] at hrun
      split_ifs at hrun with hchild
      have hnum : s.threads.length < paths.num := by
        have hlength := h.length_le
        rw [length_setThread] at hlength
        rw [← hchild]
        exact (paths.created_lt tid (htid.trans_le hlength) ep child (List.mem_of_getElem? hget)).2
      have htid' : tid < s.addThread.threads.length := by
        rw [length_addThread]
        exact Nat.lt_succ_of_lt htid
      refine ih ?_ htid' hrest.2 (stopped_addThread hstopped) hrun hlt
      rw [setThread_addThread htid]
      exact (h.pass htid hget rfl).addThread (by rwa [length_setThread])

theorem ReplayOk.resume (h : ReplayOk paths order pairs s)
    (hstopped : ∀ t < s.threads.length, Stopped paths s t) (horder : paths.OrderOk order)
    (hwaits : WaitsFor paths order pairs) {tid : Nat}
    (hpassed : ∀ thread, s.threads[tid]? = some thread →
      thread.complete = false ∧ (thread.parked = true → Passed paths pairs s tid))
    (hresume : s.resume paths tid = some s') :
    ReplayOk paths order pairs s' ∧ (∀ t < s'.threads.length, Stopped paths s' t) ∧
      tid < s'.threads.length := by
  unfold Replay.resume at hresume
  cases hthread : s.threads[tid]? with
  | none => simp [hthread] at hresume
  | some thread =>
    have htid : tid < s.threads.length := (List.getElem?_eq_some_iff.mp hthread).1
    have hposition : s.position tid = thread.pos := by simp [position, hthread]
    obtain ⟨hincomplete, hparked⟩ := hpassed thread hthread
    rw [hthread] at hresume
    simp only at hresume
    split at hresume
    · rename_i ep rest hp hdrop
      have hget : (paths.path tid)[s.position tid]? = some (.memory ep) := by
        rw [hposition, ← List.head?_drop, hdrop]
        rfl
      have hrest : (paths.path tid).drop (thread.pos + 1) = rest := by
        rw [← List.drop_drop, hdrop]
        rfl
      exact (h.perform horder hwaits htid hget (hparked hp)
        ⟨thread.pos + 1, false, true⟩ (by rw [hposition]) rfl).runOn htid hrest
        (fun t ht _ => hstopped t ht) hresume
    · refine ReplayOk.runOn ?_ htid rfl (fun t ht _ => hstopped t ht) hresume
      apply h.setThread htid
      · rw [← hposition]
        exact h.pos_le tid htid
      · simp
      · intro f
        rw [hposition]

/-! ## Whole replays -/

theorem replayOk_start : ReplayOk paths order pairs start := by
  refine ⟨paths.num_pos, by simp [start, position], by simp [start, isComplete], ?_, ?_, ?_, ?_⟩
  · simp [start, position]
  · intro pre e post hsplit
    simp [start] at hsplit
  · simp [start]
  · simp [start]

theorem stopped_start : ∀ t < start.threads.length, Stopped paths start t := by
  intro t ht
  obtain rfl : t = 0 := by simpa [start] using ht
  intro _
  rcases List.eq_nil_or_concat' (paths.path 0) with hnil | ⟨l, x, hsplit⟩
  · exact .inr hnil
  · exact .inl (by rw [hsplit]; simp [start, position])

/-- The thread that `check_preempt` switches to has passed its check. -/
theorem ReplayOk.checkPreempt_spec (h : ReplayOk paths order pairs s)
    (hstopped : ∀ t < s.threads.length, Stopped paths s t) (horder : paths.OrderOk order)
    (hwaits : WaitsFor paths order pairs) {tid next : Nat} (htid : tid < s.threads.length)
    (hpreempt : s.checkPreempt paths pairs tid = some (some next, s')) :
    (∃ index, s' = { s with waitsetindex := index }) ∧ ReplayOk paths order pairs s' ∧
      s.isComplete next = false ∧ Passed paths pairs s' next := by
  unfold checkPreempt at hpreempt
  cases hfind : s.findThread paths pairs (s.candidates tid) with
  | none => simp [hfind] at hpreempt
  | some result =>
    obtain ⟨r, s₁⟩ := result
    obtain ⟨hsame, hok, hsome, hnone⟩ :=
      h.findThread_spec hstopped horder hwaits (fun t ht => mem_candidates.mp ht) hfind
    rw [hfind] at hpreempt
    cases r with
    | some t =>
      simp only [Option.some.injEq, Prod.mk.injEq] at hpreempt
      obtain ⟨rfl, rfl⟩ := hpreempt
      exact ⟨hsame, hok, (hsome t rfl).2⟩
    | none =>
      exfalso
      -- the fall-through needs an incomplete thread, but not all of them are blocked
      simp only [Option.some.injEq, Prod.mk.injEq] at hpreempt
      obtain ⟨hnext, -⟩ := hpreempt
      split_ifs at hnext with hcomplete
      obtain ⟨index, rfl⟩ := hsame
      obtain ⟨u, hu, hinc, hfree⟩ := h.exists_not_blocked horder
        (Nat.mod_lt (tid + 1) (Nat.zero_lt_of_lt htid)) (Bool.eq_false_iff.mpr hcomplete)
      exact hfree (hnone rfl u (mem_candidates.mpr hu) hinc)

theorem replayOk_schedulingPoint (horder : paths.OrderOk order)
    (hwaits : WaitsFor paths order pairs) {n tid : Nat}
    (hrun : schedulingPoint paths pairs n = some (tid, s)) :
    ReplayOk paths order pairs s ∧ (∀ t < s.threads.length, Stopped paths s t) ∧
      tid < s.threads.length := by
  induction n generalizing tid s with
  | zero =>
    obtain ⟨s₀, hresume, heq⟩ := Option.map_eq_some_iff.mp hrun
    cases heq
    refine replayOk_start.resume stopped_start horder hwaits ?_ hresume
    intro thread hthread
    cases hthread
    exact ⟨rfl, fun hparked => absurd hparked (by decide)⟩
  | succ n ih =>
    unfold schedulingPoint at hrun
    cases hprev : schedulingPoint paths pairs n with
    | none => simp [hprev] at hrun
    | some point =>
      obtain ⟨prev, s₀⟩ := point
      obtain ⟨hok, hstopped, hlt⟩ := ih hprev
      rw [hprev] at hrun
      cases hpreempt : s₀.checkPreempt paths pairs prev with
      | none => simp [hpreempt] at hrun
      | some result =>
        obtain ⟨_ | next, s₁⟩ := result
        · simp [hpreempt] at hrun
        · obtain ⟨⟨index, rfl⟩, hok', hincomplete, hpassed⟩ :=
            hok.checkPreempt_spec hstopped horder hwaits hlt hpreempt
          simp only [hpreempt] at hrun
          obtain ⟨s₂, hresume, heq⟩ := Option.map_eq_some_iff.mp hrun
          cases heq
          refine hok'.resume hstopped horder hwaits (fun thread hthread => ⟨?_, fun _ => hpassed⟩)
            hresume
          simpa [isComplete, hthread] using hincomplete

/-- For an order that also keeps every action behind the creations that lead to its thread,
the replay of the schedule performs the actions in that order, and at a scheduling point with
an incomplete thread the search of `check_preempt` finds an incomplete thread that passes. -/
theorem schedulingPoint_follows (horder : paths.OrderOk order)
    (hcreators : paths.AfterCreators order) (n tid : Nat)
    (hrun : schedulingPoint paths (buildSchedule paths order) n = some (tid, s)) :
    InOrder paths order s.executed ∧
      ((∃ t < s.threads.length, s.isComplete t = false) → ∀ r s',
        s.findThread paths (buildSchedule paths order) (s.candidates tid) = some (r, s') →
        ∃ next < s.threads.length, r = some next ∧ s.isComplete next = false) := by
  have hwaits := buildSchedule_waitsFor horder hcreators
  obtain ⟨hok, hstopped, -⟩ := replayOk_schedulingPoint horder hwaits hrun
  refine ⟨hok.inOrder, ?_⟩
  rintro ⟨t, ht, hincomplete⟩ r s' hfind
  obtain ⟨-, -, hsome, hnone⟩ := hok.findThread_spec hstopped horder hwaits
    (fun t ht => mem_candidates.mp ht) hfind
  cases r with
  | some next =>
    obtain ⟨hmem, hinc, -⟩ := hsome next rfl
    exact ⟨next, mem_candidates.mp hmem, rfl, hinc⟩
  | none =>
    obtain ⟨u, hu, hinc, hfree⟩ := hok.exists_not_blocked horder ht hincomplete
    exact absurd (hnone rfl u (mem_candidates.mpr hu) hinc) hfree

/-! ## A relayed creation -/

/-- Thread 0 performs an action and creates thread 1, which creates thread 2 and performs
nothing itself; thread 2 performs an action. -/
def relayedPath : Nat → List PathEvent
  | 0 => [.other ⟨0, [(.counter, 0)]⟩, .memory ⟨0, [(.counter, 1)]⟩,
      .threadCreate ⟨0, [(.counter, 2)]⟩ 1]
  | 1 => [.other ⟨1, [(.counter, 0)]⟩, .threadCreate ⟨1, [(.counter, 1)]⟩ 2]
  | 2 => [.other ⟨2, [(.counter, 0)]⟩, .memory ⟨2, [(.counter, 1)]⟩]
  | _ => []

theorem create_relayedPath {t child : Nat} {ep : ExecPoint}
    (h : .threadCreate ep child ∈ relayedPath t) :
    (t = 0 ∧ child = 1 ∧ ep = ⟨0, [(.counter, 2)]⟩) ∨
      (t = 1 ∧ child = 2 ∧ ep = ⟨1, [(.counter, 1)]⟩) := by
  match t with
  | 0 | 1 | 2 | _ + 3 => simp_all [relayedPath]

def relayed : RecordedPaths where
  num := 3
  path := relayedPath
  num_pos := by decide
  tid_eq := by decide
  increasing t _ := by
    match t with
    | 0 | 1 | 2 | _ + 3 => simp [relayedPath, PathEvent.Precedes, PathEvent.ep, ExecPoint.compare,
        ExecPoint.comparePairs]
  created_lt t _ ep child h := by
    rcases create_relayedPath h with ⟨rfl, rfl, -⟩ | ⟨rfl, rfl, -⟩ <;> decide
  created t ht hpos := by
    match t with
    | 1 => exact ⟨0, by decide, ⟨0, [(.counter, 2)]⟩, by simp [relayedPath]⟩
    | 2 => exact ⟨1, by decide, ⟨1, [(.counter, 1)]⟩, by simp [relayedPath]⟩
  created_once t _ t' _ ep ep' child h h' := by
    rcases create_relayedPath h with ⟨rfl, rfl, rfl⟩ | ⟨rfl, rfl, rfl⟩ <;>
      rcases create_relayedPath h' with ⟨rfl, hchild, rfl⟩ | ⟨rfl, hchild, rfl⟩ <;>
      simp_all

private theorem relayed_action {f : ExecPoint} (h : relayed.Action f) :
    f = ⟨0, [(.counter, 1)]⟩ ∨ f = ⟨2, [(.counter, 1)]⟩ := by
  obtain ⟨t, ht, hmem⟩ := h
  match t with
  | 0 | 1 | 2 | _ + 3 => simp_all [relayed, relayedPath]

theorem relayed_orderOk {b : Nat → Nat → Bool} (hirrefl : ∀ t, b t t = false)
    (htotal : b 0 2 = !b 2 0) : relayed.OrderOk fun f g => b f.tid g.tid where
  irrefl f _ := hirrefl f.tid
  trans f g h hf hg hh hfg hgh := by
    rcases relayed_action hf with rfl | rfl <;> rcases relayed_action hg with rfl | rfl <;>
      rcases relayed_action hh with rfl | rfl <;> simp_all
  total f g hf hg hne := by
    rcases relayed_action hf with rfl | rfl <;> rcases relayed_action hg with rfl | rfl <;>
      simp_all
  program t _ := by
    match t with
    | 0 | 1 | 2 | _ + 3 => simp [relayed, relayedPath]
  joined t _ pre ep target post hpath := by
    have hmem : .threadJoin ep target ∈ relayedPath t := by
      change relayedPath t = _ at hpath
      simp [hpath]
    match t with
    | 0 | 1 | 2 | _ + 3 => simp [relayedPath] at hmem

theorem le_of_descends {child u : Nat} (h : paths.Descends child u) : child ≤ u := by
  induction h with
  | refl => exact le_rfl
  | step _ ht ep hcreate ih => exact ih.trans (paths.created_lt _ ht ep _ hcreate).1.le

private theorem afterCreators_of_tid : paths.AfterCreators fun f g => f.tid < g.tid := by
  intro t ht pre ep child post hpath u hu hdesc f hf g hg
  have hcreate : .threadCreate ep child ∈ paths.path t := by simp [hpath]
  have hfpath : .memory f ∈ paths.path t := by
    rw [hpath]
    exact List.mem_append_left _ (mem_memories.mp hf)
  change decide (f.tid < g.tid) = true
  rw [RecordedPaths.tid_of_memory ht hfpath, RecordedPaths.tid_of_memory hu (mem_memories.mp hg)]
  have hlt := (paths.created_lt t ht ep child hcreate).1
  exact decide_eq_true (hlt.trans_le (le_of_descends hdesc))

theorem relayed_follows : ∃ tid s,
    schedulingPoint relayed (buildSchedule relayed fun f g => f.tid < g.tid) 4 = some (tid, s) ∧
      s.executed = [⟨0, [(.counter, 1)]⟩, ⟨2, [(.counter, 1)]⟩] ∧
      InOrder relayed (fun f g => f.tid < g.tid) s.executed := by
  have horder : relayed.OrderOk fun f g => decide (f.tid < g.tid) :=
    relayed_orderOk (b := fun t u => decide (t < u)) (by simp) rfl
  exact ⟨_, _, rfl, rfl, (schedulingPoint_follows horder afterCreators_of_tid 4 _ rfl).1⟩

/-- An order may place the action of thread 2 first when it only keeps the actions of a
thread behind the creation of this thread. -/
theorem not_schedulingPoint_follows :
    relayed.OrderOk (fun f g => g.tid < f.tid) ∧ relayed.AfterCreator (fun f g => g.tid < f.tid) ∧
      ∃ tid s,
        schedulingPoint relayed (buildSchedule relayed fun f g => g.tid < f.tid) 4 =
          some (tid, s) ∧ ¬ InOrder relayed (fun f g => g.tid < f.tid) s.executed := by
  refine ⟨relayed_orderOk (b := fun t u => decide (u < t)) (by simp) rfl, ?_, _, _, rfl, ?_⟩
  · intro t _ pre ep child post hpath f hf g hg
    change relayedPath t = _ at hpath
    have hcreate : .threadCreate ep child ∈ relayedPath t := by simp [hpath]
    rcases create_relayedPath hcreate with ⟨rfl, rfl, -⟩ | ⟨rfl, rfl, -⟩
    · cases hg
    · have hnone : .memory f ∉ relayedPath 1 := by simp [relayedPath]
      rw [hpath] at hnone
      exact absurd (List.mem_append_left _ (mem_memories.mp hf)) hnone
  · intro hinOrder
    have hearlier := hinOrder [] ⟨0, [(.counter, 1)]⟩ [⟨2, [(.counter, 1)]⟩] rfl
      ⟨2, [(.counter, 1)]⟩ ⟨2, by decide, by simp [relayed, relayedPath]⟩ rfl
    cases hearlier

end Replay

end SatCheck
