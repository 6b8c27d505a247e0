import SatCheck.ScheduleReplay
/-!
# Waited-on threads

`checkSet` looks up the point of the thread that a wait pair waits for, in the list of the threads
that have been created so far.  The thread is missing if and only if some thread has a creation
that leads to it in front of its next memory action.
-/

namespace SatCheck

namespace RecordedPaths

variable (paths : RecordedPaths)

/-- Every thread of the list but the main one comes behind its creator. -/
def CreatorsFirst (threads : List Nat) : Prop :=
  ∀ pre u post, threads = pre ++ u :: post →
    u = 0 ∨ ∃ c ∈ pre, c < paths.num ∧ ∃ ep, .threadCreate ep u ∈ paths.path c

variable {paths} {threads : List Nat} {c child u : Nat} {ep : ExecPoint}

theorem CreatorsFirst.append_singleton (h : paths.CreatorsFirst threads) (hc : c ∈ threads)
    (hnum : c < paths.num) (hcreate : .threadCreate ep child ∈ paths.path c) :
    paths.CreatorsFirst (threads ++ [child]) := by
  intro pre u post hsplit
  rcases List.eq_nil_or_concat' post with rfl | ⟨post, x, rfl⟩
  · obtain ⟨rfl, hu⟩ := List.append_inj' hsplit rfl
    obtain rfl := List.singleton_inj.mp hu
    exact Or.inr ⟨c, hc, hnum, ep, hcreate⟩
  · rw [← List.cons_append, ← List.append_assoc] at hsplit
    exact h pre u post (List.append_inj' hsplit rfl).1

theorem CreatorsFirst.mem_of_descends (h : paths.CreatorsFirst threads) (hc : c < paths.num)
    (hcreate : .threadCreate ep child ∈ paths.path c) (hdesc : paths.Descends child u)
    (pre post : List Nat) (hsplit : threads = pre ++ u :: post) : c ∈ pre := by
  induction hdesc generalizing pre post with
  | refl =>
    have hlt := (paths.created_lt c hc ep child hcreate).1
    rcases h pre child post hsplit with hzero | ⟨c', hc', hnum, ep', hcreate'⟩
    · omega
    · rwa [(paths.created_once c hc c' hnum ep ep' child hcreate hcreate').1]
  | @step t u hdesc ht ep' hcreate' ih =>
    have hlt := (paths.created_lt t ht ep' u hcreate').1
    rcases h pre u post hsplit with hzero | ⟨t', ht', hnum, ep'', hcreate''⟩
    · omega
    · obtain ⟨rfl, -⟩ := paths.created_once t ht t' hnum ep' ep'' u hcreate' hcreate''
      obtain ⟨pre, between, rfl⟩ := List.append_of_mem ht'
      rw [List.append_assoc, List.cons_append] at hsplit
      exact List.mem_append_left _ (ih pre _ hsplit)

end RecordedPaths

namespace ScheduleBuilder

variable {paths : RecordedPaths} {order : ExecPoint → ExecPoint → Bool}

private theorem map_thread_step (l₁ l₂ : List Slot) (slot : Slot) (event : PathEvent) :
    (l₁ ++ (stepped slot event :: l₂ ++ created event)).map Slot.thread =
      (l₁ ++ slot :: l₂).map Slot.thread ++ (created event).map Slot.thread := by
  simp [stepped]

/-! ## Slots behind those of the creators -/

theorem creatorsFirst_step {l₁ l₂ : List Slot} {slot : Slot} {event : PathEvent}
    (h : SlotsOk paths (l₁ ++ slot :: l₂)) (hrec : record paths slot = some event)
    (hfirst : paths.CreatorsFirst ((l₁ ++ slot :: l₂).map Slot.thread)) :
    paths.CreatorsFirst
      ((l₁ ++ (stepped slot event :: l₂ ++ created event)).map Slot.thread) := by
  rw [map_thread_step]
  cases event with
  | threadCreate ep child =>
    have hmem : slot.thread ∈ (l₁ ++ slot :: l₂).map Slot.thread := by simp
    exact hfirst.append_singleton hmem (h.lt slot (by simp)) (List.mem_of_getElem? hrec)
  | _ => simpa [created] using hfirst

theorem creatorsFirst_settle (fuel : Nat) {done todo : List Slot}
    (h : SlotsOk paths (done ++ todo))
    (hfirst : paths.CreatorsFirst ((done ++ todo).map Slot.thread)) :
    paths.CreatorsFirst ((settle paths fuel done todo).map Slot.thread) := by
  induction fuel generalizing done todo with
  | zero => exact hfirst
  | succ fuel ih =>
    cases todo with
    | nil => simpa [settle] using hfirst
    | cons slot todo =>
      by_cases hsettled : Settled paths slot
      · rw [settle_settled hsettled]
        have happend : (done ++ [slot]) ++ todo = done ++ slot :: todo := by simp
        rw [← happend] at h hfirst
        exact ih h hfirst
      · simp only [Settled, not_forall] at hsettled
        obtain ⟨event, hrec, hmem⟩ := hsettled
        rw [settle_other hrec (by simpa using hmem)]
        exact ih (h.step hrec) (creatorsFirst_step h hrec hfirst)

/-! ## The order of the wait pairs -/

/-- A stop waits for what the creators of a waited-on thread do before the stop, and does so in
front of the wait for the thread. -/
def CreatorsInFront (paths : RecordedPaths) (order : ExecPoint → ExecPoint → Bool)
    (pairs : List WaitPair) : Prop :=
  ∀ pre wp post, pairs = pre ++ wp :: post →
    ∀ c < paths.num, ∀ ep child, .threadCreate ep child ∈ paths.path c →
      paths.Descends child wp.wait.tid → c ≠ wp.stop.tid →
        ∀ g, .memory g ∈ paths.path c → order g wp.stop = true →
          ∃ wp' ∈ pre, wp'.stop = wp.stop ∧ (g = wp'.wait ∨ order g wp'.wait = true)

theorem CreatorsInFront.nil : CreatorsInFront paths order [] := by
  intro pre wp post hsplit
  simp at hsplit

theorem CreatorsInFront.append {pairs pairs' : List WaitPair}
    (h : CreatorsInFront paths order pairs) (h' : CreatorsInFront paths order pairs') :
    CreatorsInFront paths order (pairs ++ pairs') := by
  intro pre wp post hsplit c hc ep child hcreate hdesc hne g hg hlt
  rcases List.append_eq_append_iff.mp hsplit with ⟨as, rfl, hright⟩ | ⟨bs, hleft, hright⟩
  · obtain ⟨wp', hwp', hwait⟩ := h' as wp post hright c hc ep child hcreate hdesc hne g hg hlt
    exact ⟨wp', List.mem_append_right _ hwp', hwait⟩
  · cases bs with
    | nil =>
      rw [List.append_nil] at hleft
      obtain ⟨wp', hwp', -⟩ := h' [] wp post hright.symm c hc ep child hcreate hdesc hne g hg hlt
      simp at hwp'
    | cons b bs =>
      obtain ⟨rfl, -⟩ := List.cons.inj hright
      exact h pre wp bs hleft c hc ep child hcreate hdesc hne g hg hlt

theorem creatorsInFront_addedPairs {slots : List Slot} {m : ExecPoint} (h : SlotsOk paths slots)
    (hfirst : paths.CreatorsFirst (slots.map Slot.thread)) (horder : paths.OrderOk order)
    (hround : RoundOk paths order (taken paths slots) m (addedPairs paths m slots)) :
    CreatorsInFront paths order (addedPairs paths m slots) := by
  intro pre wp post hsplit c hc ep child hcreate hdesc hne g hg hlt
  have hstop : wp.stop = m := (hround.waits wp (by simp [hsplit])).1
  rw [hstop] at hne hlt ⊢
  obtain ⟨l₁, rest, hslots, hpre, hrest⟩ := List.filterMap_eq_append_iff.mp hsplit
  obtain ⟨l₂, a, l₃, rfl, hnone, ha, -⟩ := List.filterMap_eq_cons_iff.mp hrest
  rw [← List.append_assoc] at hslots
  have hamem : a ∈ slots := by simp [hslots]
  have hathread : a.thread = wp.wait.tid := by
    split_ifs at ha
    obtain ⟨last, hlast, rfl⟩ := Option.map_eq_some_iff.mp ha
    rw [h.last a hamem] at hlast
    exact (RecordedPaths.tid_of_memory (h.lt a hamem)
      (List.mem_of_mem_take (mem_memories.mp (List.mem_of_getLast? hlast)))).symm
  have hthreads : slots.map Slot.thread =
      (l₁ ++ l₂).map Slot.thread ++ wp.wait.tid :: l₃.map Slot.thread := by
    rw [hslots, List.map_append, List.map_cons, hathread]
  obtain ⟨b, hb, hbthread⟩ :=
    List.mem_map.mp (hfirst.mem_of_descends hc hcreate hdesc _ _ hthreads)
  have hbmem : b ∈ slots := by
    rw [hslots]
    exact List.mem_append_left _ hb
  have hgdone := hround.mem_of_earlier horder ⟨c, hc, hg⟩ hlt
  obtain ⟨b', hb', htake⟩ := mem_taken.mp hgdone
  have hgtid := RecordedPaths.tid_of_memory hc hg
  have hb'thread := RecordedPaths.tid_of_memory (h.lt b' hb') (List.mem_of_mem_take htake)
  obtain rfl := h.eq_of_thread hb' hbmem (by omega)
  obtain ⟨last, hlast, hle⟩ := h.last_spec horder hb' htake
  have hhead : head paths b' ≠ some m := by
    intro hhead
    obtain ⟨event, hevent, hmem⟩ := Option.bind_eq_some_iff.mp hhead
    cases event <;> simp [PathEvent.memory?] at hmem
    subst hmem
    have htid := RecordedPaths.tid_of_memory (h.lt b' hb') (List.mem_of_getElem? hevent)
    omega
  have hpair : (if head paths b' = some m then none
      else b'.lastoperation.map fun last => (⟨m, last⟩ : WaitPair)) = some ⟨m, last⟩ := by
    rw [if_neg hhead, hlast]
    rfl
  have hbfront : b' ∈ l₁ := by
    apply (List.mem_append.mp hb).resolve_right
    intro hb2
    rw [hnone b' hb2] at hpair
    simp at hpair
  refine ⟨⟨m, last⟩, ?_, rfl, hle⟩
  rw [← hpre]
  exact List.mem_filterMap.mpr ⟨b', hbfront, hpair⟩

private theorem creatorsInFront_rounds {fuel : Nat} {slots : List Slot} (h : SlotsOk paths slots)
    (hfirst : paths.CreatorsFirst (slots.map Slot.thread)) (horder : paths.OrderOk order)
    (hcreators : paths.AfterCreators order) :
    CreatorsInFront paths order ((rounds paths order fuel slots).flatMap Prod.snd) := by
  induction fuel generalizing slots with
  | zero => exact .nil
  | succ fuel ih =>
    obtain ⟨hok, hsettled, -⟩ :=
      @settle_spec paths (settleFuel paths) [] slots h (by simp) (by simp)
    have hnext := @creatorsFirst_settle paths (settleFuel paths) [] slots h hfirst
    unfold rounds
    simp only
    set next := settle paths (settleFuel paths) [] slots
    have hheads : ∀ f ∈ next.filterMap (head paths), paths.Action f := by
      intro f hf
      obtain ⟨a, ha, hrec⟩ := mem_heads.mp hf
      exact ⟨a.thread, hok.lt a ha, List.mem_of_getElem? hrec⟩
    rcases earliest_spec horder hheads with ⟨-, hnone⟩ | ⟨m, hm, hsome, hmin⟩
    · rw [hnone]
      exact .nil
    · rw [hsome]
      obtain ⟨slot, hslot, hrec⟩ := mem_heads.mp hm
      have hround := roundOk_addedPairs hok hsettled horder hcreators hslot hrec hmin
      rw [List.flatMap_cons]
      apply (creatorsInFront_addedPairs hok hnext horder hround).append
      obtain ⟨l₁, l₂, hsplit⟩ := List.append_of_mem hslot
      rw [hsplit] at hok hnext ⊢
      rw [advance_eq hok hrec]
      exact ih (hok.step hrec) (creatorsFirst_step hok hrec hnext)

theorem creatorsInFront_buildSchedule (horder : paths.OrderOk order)
    (hcreators : paths.AfterCreators order) :
    CreatorsInFront paths order (buildSchedule paths order) := by
  apply creatorsInFront_rounds slotsOk_start _ horder hcreators
  intro pre u post hsplit
  have hmem : u ∈ [0] := by
    change [0] = _ at hsplit
    simp [hsplit]
  exact Or.inl (List.mem_singleton.mp hmem)

theorem CreatorsInFront.waitset {pairs : List WaitPair} (h : CreatorsInFront paths order pairs)
    (t : Nat) : CreatorsInFront paths order (Replay.waitset pairs t) := by
  intro pre wp post hsplit c hc ep child hcreate hdesc hne g hg hlt
  obtain ⟨l₁, rest, rfl, hpre, hrest⟩ := List.filter_eq_append_iff.mp hsplit
  obtain ⟨l₂, l₃, rfl, hnone, hwp, -⟩ := List.filter_eq_cons_iff.mp hrest
  rw [← List.append_assoc] at h
  obtain ⟨wp', hwp', hstop, hwait⟩ := h _ wp l₃ rfl c hc ep child hcreate hdesc hne g hg hlt
  refine ⟨wp', ?_, hstop, hwait⟩
  rw [← hstop] at hwp
  have hfront : wp' ∈ l₁ := by
    apply (List.mem_append.mp hwp').resolve_right
    intro hwp2
    exact hnone wp' hwp2 hwp
  rw [← hpre]
  exact List.mem_filter.mpr ⟨hfront, hwp⟩

end ScheduleBuilder

namespace Replay

open ScheduleBuilder

variable (paths : RecordedPaths) (pairs : List WaitPair)

def upcoming (s : Replay) (t : Nat) : List PathEvent :=
  ((paths.path t).drop (s.position t)).takeWhile fun event => event.memory?.isNone

/-- In front of its next memory action the thread creates `u` or a thread that leads to `u`. -/
def AboutToCreate (s : Replay) (t u : Nat) : Prop :=
  ∃ ep child, .threadCreate ep child ∈ s.upcoming paths t ∧ paths.Descends child u

/-- The pairs at which `checkSet` looks up the waited-on thread. -/
def consulted (s : Replay) (current : ExecPoint) : List WaitPair → List WaitPair
  | [] => []
  | wp :: wps =>
      match wp.stop.compare current with
      | .equals =>
          if s.threads.length ≤ wp.wait.tid then [wp]
          else
            match (s.execpoint paths wp.wait.tid).compare wp.wait with
            | .before | .incomparable => wp :: s.consulted current wps
            | _ => if s.isComplete wp.wait.tid then wp :: s.consulted current wps else [wp]
      | _ => []

/-- The same for the loop of `check_preempt` over the thread ids. -/
def searched (s : Replay) : List Nat → List WaitPair
  | [] => []
  | tid :: tids =>
      if s.isComplete tid then s.searched tids
      else
        s.consulted paths (s.execpoint paths tid)
            ((waitset pairs tid).drop (s.waitsetindex tid)) ++
          match s.checkThread paths pairs tid with
          | some (false, s) => s.searched tids
          | _ => []

/-- The pairs at which `check_preempt`, called by `tid`, looks up the waited-on thread. -/
def lookups (s : Replay) (tid : Nat) : List WaitPair :=
  s.searched paths pairs (s.candidates tid)

variable {paths pairs} {order : ExecPoint → ExecPoint → Bool} {s s' : Replay}

/-! ## Lookups -/

private theorem checkSet_eq_none_iff {current : ExecPoint} {wps : List WaitPair} :
    s.checkSet paths current wps = none ↔
      ∃ wp ∈ s.consulted paths current wps, s.threads.length ≤ wp.wait.tid := by
  induction wps with
  | nil => simp [checkSet, consulted]
  | cons wp wps ih =>
    unfold checkSet consulted
    cases wp.stop.compare current with
    | equals =>
      by_cases htid : s.threads.length ≤ wp.wait.tid
      · simp [htid]
      · simp only [htid, if_false]
        cases (s.execpoint paths wp.wait.tid).compare wp.wait <;>
          by_cases hcomplete : s.isComplete wp.wait.tid <;> simp [hcomplete, htid, ih]
    | _ => simp

private theorem checkThread_eq_none_iff {tid : Nat} :
    s.checkThread paths pairs tid = none ↔
      ∃ wp ∈ s.consulted paths (s.execpoint paths tid)
        ((waitset pairs tid).drop (s.waitsetindex tid)), s.threads.length ≤ wp.wait.tid := by
  rw [checkThread, Option.map_eq_none_iff, checkSet_eq_none_iff]

private theorem length_of_checkThread {tid : Nat} {passes : Bool}
    (h : s.checkThread paths pairs tid = some (passes, s')) :
    s'.threads = s.threads := by
  obtain ⟨result, -, heq⟩ := Option.map_eq_some_iff.mp h
  obtain ⟨-, rfl⟩ := Prod.mk.inj heq
  rfl

private theorem findThread_eq_none_iff {tids : List Nat} :
    s.findThread paths pairs tids = none ↔
      ∃ wp ∈ s.searched paths pairs tids, s.threads.length ≤ wp.wait.tid := by
  induction tids generalizing s with
  | nil => simp [findThread, searched]
  | cons tid tids ih =>
    unfold findThread searched
    split_ifs with hcomplete
    · exact ih
    · cases hcheck : s.checkThread paths pairs tid with
      | none => simpa using checkThread_eq_none_iff.mp hcheck
      | some result =>
        obtain ⟨passes, s₁⟩ := result
        have hnot : ¬ ∃ wp ∈ s.consulted paths (s.execpoint paths tid)
            ((waitset pairs tid).drop (s.waitsetindex tid)),
              s.threads.length ≤ wp.wait.tid := by
          rw [← checkThread_eq_none_iff, hcheck]
          simp
        have hlength : s₁.threads.length = s.threads.length :=
          congrArg List.length (length_of_checkThread hcheck)
        simp only [List.mem_append, or_and_right, exists_or, hnot, false_or]
        cases passes with
        | true => simp
        | false =>
          simp only
          rw [ih, hlength]

/-- The lookups are those of `check_preempt`: it stays inside the list of threads if and only if
every lookup does. -/
theorem checkPreempt_eq_none_iff {tid : Nat} :
    s.checkPreempt paths pairs tid = none ↔
      ∃ wp ∈ s.lookups paths pairs tid, s.threads.length ≤ wp.wait.tid := by
  rw [lookups, ← findThread_eq_none_iff, checkPreempt]
  cases s.findThread paths pairs (s.candidates tid) with
  | none => simp
  | some result =>
    obtain ⟨r, s₁⟩ := result
    cases r <;> simp

/-! ## The threads that exist -/

/-- The threads are those that have been created by what the threads have passed. -/
structure CreatedOk (paths : RecordedPaths) (s : Replay) : Prop where
  children : ∀ c < s.threads.length, ∀ ep child,
    .threadCreate ep child ∈ (paths.path c).take (s.position c) → child < s.threads.length
  parents : ∀ u < s.threads.length, 0 < u → ∃ c < s.threads.length, ∃ ep,
    .threadCreate ep u ∈ (paths.path c).take (s.position c)

theorem CreatedOk.setThread (h : CreatedOk paths s) {tid : Nat} (htid : tid < s.threads.length)
    {thread : ReplayThread} (hcreates : ∀ ep child,
      .threadCreate ep child ∈ (paths.path tid).take thread.pos ↔
        .threadCreate ep child ∈ (paths.path tid).take (s.position tid)) :
    CreatedOk paths (s.setThread tid thread) := by
  have htake : ∀ c ep child,
      .threadCreate ep child ∈ (paths.path c).take ((s.setThread tid thread).position c) ↔
        .threadCreate ep child ∈ (paths.path c).take (s.position c) := by
    intro c ep child
    rw [position_setThread htid]
    split_ifs with heq
    · subst heq
      exact hcreates ep child
    · rfl
  constructor
  · intro c hc ep child hcreate
    rw [length_setThread] at hc ⊢
    exact h.children c hc ep child ((htake c ep child).mp hcreate)
  · intro u hu hpos
    rw [length_setThread] at hu ⊢
    obtain ⟨c, hc, ep, hcreate⟩ := h.parents u hu hpos
    exact ⟨c, hc, ep, (htake c ep u).mpr hcreate⟩

theorem CreatedOk.pass {tid pos : Nat} {event : PathEvent}
    (h : CreatedOk paths (s.setThread tid ⟨pos, false, true⟩)) (htid : tid < s.threads.length)
    (hget : (paths.path tid)[pos]? = some event)
    (hevent : ∀ ep child, event ≠ .threadCreate ep child) :
    CreatedOk paths (s.setThread tid ⟨pos + 1, false, true⟩) := by
  rw [← setThread_setThread s tid ⟨pos, false, true⟩]
  apply h.setThread (by simpa using htid)
  intro ep child
  rw [position_setThread htid, if_pos rfl, take_succ_of_getElem? hget, List.mem_append,
    List.mem_singleton]
  exact or_iff_left (hevent ep child).symm

theorem CreatedOk.create {tid pos : Nat} {ep : ExecPoint}
    (h : CreatedOk paths (s.setThread tid ⟨pos, false, true⟩)) (htid : tid < s.threads.length)
    (hget : (paths.path tid)[pos]? = some (.threadCreate ep s.threads.length)) :
    CreatedOk paths (s.addThread.setThread tid ⟨pos + 1, false, true⟩) := by
  have hlength : (s.addThread.setThread tid ⟨pos + 1, false, true⟩).threads.length =
      s.threads.length + 1 := by
    rw [length_setThread, length_addThread]
  have hold : (s.setThread tid ⟨pos, false, true⟩).threads.length = s.threads.length :=
    length_setThread _ _ _
  have htake : ∀ c < s.threads.length, ∀ event, event ∈ (paths.path c).take
      ((s.addThread.setThread tid ⟨pos + 1, false, true⟩).position c) ↔
        event ∈ (paths.path c).take ((s.setThread tid ⟨pos, false, true⟩).position c) ∨
          (c = tid ∧ event = .threadCreate ep s.threads.length) := by
    intro c hc event
    rw [position_setThread (by rw [length_addThread]; omega), position_setThread htid,
      position_addThread, if_pos hc]
    split_ifs with heq
    · subst heq
      rw [take_succ_of_getElem? hget, List.mem_append, List.mem_singleton]
      simp
    · simp [heq]
  constructor
  · intro c hc ep' child hcreate
    rw [hlength] at hc ⊢
    by_cases hnew : c = s.threads.length
    · subst hnew
      rw [position_setThread (by rw [length_addThread]; omega), position_addThread,
        if_neg (by omega), if_neg (Nat.lt_irrefl _)] at hcreate
      simp at hcreate
    · have hc' : c < s.threads.length := by omega
      rcases (htake c hc' _).mp hcreate with hcreate | ⟨-, heq⟩
      · have hlt := h.children c (by omega) ep' child hcreate
        omega
      · obtain ⟨-, rfl⟩ := PathEvent.threadCreate.inj heq
        omega
  · intro u hu hpos
    rw [hlength] at hu ⊢
    by_cases hnew : u = s.threads.length
    · subst hnew
      exact ⟨tid, by omega, ep, (htake tid htid _).mpr (Or.inr ⟨rfl, rfl⟩)⟩
    · obtain ⟨c, hc, ep', hcreate⟩ := h.parents u (by omega) hpos
      rw [hold] at hc
      exact ⟨c, by omega, ep', (htake c hc _).mpr (Or.inl hcreate)⟩

theorem CreatedOk.runOn {tid pos : Nat} {rest : List PathEvent}
    (h : CreatedOk paths (s.setThread tid ⟨pos, false, true⟩)) (htid : tid < s.threads.length)
    (hrest : (paths.path tid).drop pos = rest) (hrun : s.runOn tid pos rest = some s') :
    CreatedOk paths s' := by
  induction rest generalizing s pos with
  | nil =>
    cases hrun
    rw [← setThread_setThread s tid ⟨pos, false, true⟩]
    apply h.setThread (by simpa using htid)
    intro ep child
    rw [position_setThread htid, if_pos rfl]
  | cons event rest ih =>
    have hget : (paths.path tid)[pos]? = some event := by
      rw [← List.head?_drop, hrest]
      rfl
    have hnext : (paths.path tid).drop (pos + 1) = rest := by
      rw [← List.drop_drop, hrest]
      rfl
    cases event with
    | memory ep =>
      cases hrun
      exact h
    | other ep => exact ih (h.pass htid hget (by simp)) htid hnext hrun
    | threadJoin ep target =>
      rw [Replay.runOn] at hrun
      split_ifs at hrun
      · exact ih (h.pass htid hget (by simp)) htid hnext hrun
      · cases hrun
        exact h
    | threadCreate ep child =>
      rw [Replay.runOn] at hrun
      split_ifs at hrun with hchild
      subst hchild
      apply ih (h.create htid hget) _ hnext hrun
      rw [length_addThread]
      omega

theorem CreatedOk.resume (h : CreatedOk paths s) {tid : Nat}
    (hresume : s.resume paths tid = some s') : CreatedOk paths s' := by
  unfold Replay.resume at hresume
  cases hthread : s.threads[tid]? with
  | none => simp [hthread] at hresume
  | some thread =>
    have htid : tid < s.threads.length := (List.getElem?_eq_some_iff.mp hthread).1
    have hposition : s.position tid = thread.pos := by simp [position, hthread]
    rw [hthread] at hresume
    simp only at hresume
    split at hresume
    · rename_i ep rest hp hdrop
      have hget : (paths.path tid)[thread.pos]? = some (.memory ep) := by
        rw [← List.head?_drop, hdrop]
        rfl
      have hrest : (paths.path tid).drop (thread.pos + 1) = rest := by
        rw [← List.drop_drop, hdrop]
        rfl
      have hperformed : CreatedOk paths { s with executed := s.executed ++ [ep] } :=
        ⟨h.children, h.parents⟩
      refine CreatedOk.runOn (hperformed.setThread htid ?_) htid hrest hresume
      intro ep' child
      change _ ↔ _ ∈ (paths.path tid).take (s.position tid)
      rw [hposition, take_succ_of_getElem? hget, List.mem_append, List.mem_singleton]
      exact or_iff_left (by simp)
    · refine CreatedOk.runOn (h.setThread htid ?_) htid rfl hresume
      intro ep child
      rw [hposition]

theorem createdOk_start : CreatedOk paths start where
  children c hc ep child hcreate := by
    obtain rfl : c = 0 := by simpa [start] using hc
    simp [start, position] at hcreate
  parents u hu hpos := by
    obtain rfl : u = 0 := by simpa [start] using hu
    omega

/-- A thread that does not exist is created behind the position of one that does. -/
theorem CreatedOk.exists_creator (h : CreatedOk paths s) (hpos : 0 < s.threads.length) (u : Nat)
    (hu : u < paths.num) : u < s.threads.length ∨ ∃ c < s.threads.length, ∃ ep child,
      .threadCreate ep child ∈ (paths.path c).drop (s.position c) ∧ paths.Descends child u := by
  induction u using Nat.strong_induction_on with
  | _ u ih =>
    rcases Nat.eq_zero_or_pos u with rfl | hupos
    · exact Or.inl hpos
    · obtain ⟨c, hc, ep, hcreate⟩ := paths.created u hu hupos
      have hlt := (paths.created_lt c hc ep u hcreate).1
      rcases ih c hlt hc with hexists | ⟨c', hc', ep', child, hmem, hdesc⟩
      · rcases mem_take_or_drop (s.position c) hcreate with htake | hdrop
        · exact Or.inl (h.children c hexists ep u htake)
        · exact Or.inr ⟨c, hexists, ep, u, hdrop, .refl⟩
      · exact Or.inr ⟨c', hc', ep', child, hmem, .step hdesc hc ep hcreate⟩

/-- What a thread has not created yet does not lead to a thread that exists. -/
theorem CreatedOk.le_of_drop (h : CreatedOk paths s) (hnum : s.threads.length ≤ paths.num) {c : Nat}
    (hc : c < s.threads.length) {ep : ExecPoint} {child u : Nat}
    (hdrop : .threadCreate ep child ∈ (paths.path c).drop (s.position c))
    (hdesc : paths.Descends child u) : s.threads.length ≤ u := by
  by_contra hu
  push Not at hu
  have hcreate := List.mem_of_mem_drop hdrop
  induction hdesc with
  | refl =>
    have hlt := (paths.created_lt c (hc.trans_le hnum) ep child hcreate).1
    obtain ⟨c', hc', ep', htake⟩ := h.parents child hu (by omega)
    obtain ⟨rfl, rfl⟩ := paths.created_once c' (hc'.trans_le hnum) c (hc.trans_le hnum) ep' ep child
      (List.mem_of_mem_take htake) hcreate
    exact RecordedPaths.not_precedes_self _
      (pairwise_of_mem_take (paths.increasing c' (hc'.trans_le hnum)) htake hdrop)
  | @step t u hdesc ht ep' hcreate' ih =>
    have hlt := (paths.created_lt t ht ep' u hcreate').1
    exact ih (by omega)

theorem ReplayOk.consulted_cons (h : ReplayOk paths order pairs s)
    (hstopped : ∀ t < s.threads.length, Stopped paths s t) {current : ExecPoint} {wp : WaitPair}
    {wps : List WaitPair} (hstop : wp.stop.compare current = .equals)
    (hwait : paths.Action wp.wait) (htid : wp.wait.tid < s.threads.length) :
    s.consulted paths current (wp :: wps) =
      wp :: if wp.wait ∈ s.executed then s.consulted paths current wps else [] := by
  rw [consulted, hstop]
  simp only [not_le.mpr htid, if_false]
  rcases h.consult hstopped hwait htid with ⟨hexec, hcmp | hcomplete⟩ | ⟨hexec, hinc, hcmp | hcmp⟩
  · rw [hcmp, if_pos hexec]
  · rw [if_pos hexec, hcomplete]
    cases (s.execpoint paths wp.wait.tid).compare wp.wait <;> rfl
  · rw [hcmp, if_neg hexec, hinc]
    rfl
  · rw [hcmp, if_neg hexec, hinc]
    rfl

/-- The waits that `checkSet` passes in front of a lookup have been executed. -/
theorem ReplayOk.consulted_spec (h : ReplayOk paths order pairs s)
    (hstopped : ∀ t < s.threads.length, Stopped paths s t) {current : ExecPoint}
    {wps : List WaitPair} (hwaits : ∀ wp ∈ wps, paths.Action wp.wait) {wp : WaitPair}
    (hwp : wp ∈ s.consulted paths current wps) :
    wp.stop.compare current = .equals ∧ ∃ pre post, wps = pre ++ wp :: post ∧
      ∀ wp' ∈ pre, wp'.wait ∈ s.executed := by
  induction wps with
  | nil => simp [consulted] at hwp
  | cons wp₀ wps ih =>
    rw [List.forall_mem_cons] at hwaits
    by_cases hstop : wp₀.stop.compare current = .equals
    · have hcases : wp = wp₀ ∨ (wp₀.wait ∈ s.executed ∧ wp ∈ s.consulted paths current wps) := by
        by_cases htid : wp₀.wait.tid < s.threads.length
        · rw [h.consulted_cons hstopped hstop hwaits.1 htid, List.mem_cons] at hwp
          apply hwp.imp_right
          intro hmem
          split_ifs at hmem with hexec
          · exact ⟨hexec, hmem⟩
          · simp at hmem
        · rw [consulted, hstop] at hwp
          simp only [not_lt.mp htid, if_true] at hwp
          exact Or.inl (List.mem_singleton.mp hwp)
      rcases hcases with rfl | ⟨hexec, hmem⟩
      · exact ⟨hstop, [], wps, rfl, by simp⟩
      · obtain ⟨hequals, pre, post, rfl, hpre⟩ := ih hwaits.2 hmem
        refine ⟨hequals, wp₀ :: pre, post, rfl, ?_⟩
        rw [List.forall_mem_cons]
        exact ⟨hexec, hpre⟩
    · exfalso
      unfold consulted at hwp
      cases hcompare : wp₀.stop.compare current <;> simp_all

/-- A creation that is not in front of the next memory action is behind one. -/
theorem exists_memory_of_not_upcoming {t child : Nat} {ep : ExecPoint}
    (hdrop : .threadCreate ep child ∈ (paths.path t).drop (s.position t))
    (hnot : .threadCreate ep child ∉ s.upcoming paths t) : ∃ g pre post,
      (paths.path t).drop (s.position t) = pre ++ .threadCreate ep child :: post ∧
        g ∈ memories pre := by
  unfold upcoming at hnot
  generalize (paths.path t).drop (s.position t) = events at hdrop hnot ⊢
  induction events with
  | nil => simp at hdrop
  | cons event rest ih =>
    cases event with
    | memory g =>
      have hrest := (List.mem_cons.mp hdrop).resolve_left (by simp)
      obtain ⟨pre, post, rfl⟩ := List.append_of_mem hrest
      exact ⟨g, .memory g :: pre, post, rfl, mem_memories.mpr List.mem_cons_self⟩
    | _ =>
      rw [List.takeWhile_cons_of_pos rfl, List.mem_cons, not_or] at hnot
      obtain ⟨g, pre, post, hsplit, hg⟩ := ih ((List.mem_cons.mp hdrop).resolve_left hnot.1) hnot.2
      refine ⟨g, _ :: pre, post, by rw [hsplit, List.cons_append], ?_⟩
      rw [mem_memories] at hg ⊢
      exact List.mem_cons_of_mem _ hg

/-- Where `checkSet` looks up a thread that does not exist, some thread is about to create it. -/
theorem ReplayOk.exists_aboutToCreate (h : ReplayOk paths order pairs s)
    (hstopped : ∀ t < s.threads.length, Stopped paths s t) (hcreated : CreatedOk paths s)
    (horder : paths.OrderOk order) (hcreators : paths.AfterCreators order)
    (hwaits : WaitsFor paths order pairs) (hfront : CreatorsInFront paths order pairs) {t : Nat}
    (ht : t < s.threads.length) {wp : WaitPair}
    (hwp : wp ∈ s.consulted paths (s.execpoint paths t)
      ((waitset pairs t).drop (s.waitsetindex t)))
    (hmissing : s.threads.length ≤ wp.wait.tid) :
    ∃ c < s.threads.length, s.AboutToCreate paths c wp.wait.tid := by
  have hleft : ∀ wp ∈ (waitset pairs t).drop (s.waitsetindex t), wp ∈ pairs ∧ wp.stop.tid = t :=
    fun wp hwp => mem_waitset.mp (List.mem_of_mem_drop hwp)
  obtain ⟨hstop, pre, post, hsplit, hpre⟩ := h.consulted_spec hstopped
    (fun wp hwp => (hwaits.earlier wp (hleft wp hwp).1).2.1) hwp
  have hmem : wp ∈ (waitset pairs t).drop (s.waitsetindex t) := by simp [hsplit]
  have hstand := h.record_of_stop hwaits ht hmem hstop
  obtain ⟨hstopAction, hwaitAction, hlt, -⟩ := hwaits.earlier wp (hleft wp hmem).1
  have htid := (hleft wp hmem).2
  obtain ⟨c, hc, ep, child, hdrop, hdesc⟩ := (hcreated.exists_creator (Nat.zero_lt_of_lt ht) _
    hwaitAction.mem.1).resolve_left (Nat.not_lt.mpr hmissing)
  have hcnum := hc.trans_le h.length_le
  refine ⟨c, hc, ep, child, ?_, hdesc⟩
  by_contra hnot
  -- an action in front of the creation is not executed, but the stop has waited for it
  obtain ⟨g, inner, rest, hrest, hg⟩ := exists_memory_of_not_upcoming hdrop hnot
  have hgdrop : .memory g ∈ (paths.path c).drop (s.position c) := by
    rw [hrest]
    exact List.mem_append_left _ (mem_memories.mp hg)
  have hgpath := List.mem_of_mem_drop hgdrop
  have hgAction : paths.Action g := ⟨c, hcnum, hgpath⟩
  have hgleft : g ∉ s.executed := by
    rw [h.mem_executed hc hgpath]
    intro htake
    exact RecordedPaths.not_precedes_self _
      (pairwise_of_mem_take (paths.increasing c hcnum) htake hgdrop)
  have hpath : paths.path c = ((paths.path c).take (s.position c) ++ inner) ++
      .threadCreate ep child :: rest := by
    rw [List.append_assoc, ← hrest, List.take_append_drop]
  have hgwait : order g wp.wait = true := by
    apply hcreators c hcnum _ ep child rest hpath wp.wait.tid hwaitAction.mem.1 hdesc
    · rw [mem_memories]
      exact List.mem_append_right _ (mem_memories.mp hg)
    · exact mem_memories.mpr hwaitAction.mem.2
  have hgstop := horder.trans g wp.wait wp.stop hgAction hwaitAction hstopAction hgwait hlt
  have hne : c ≠ wp.stop.tid := by
    rintro rfl
    rw [htid] at hgdrop
    rcases horder.head_le (ht.trans_le h.length_le) hstand hgdrop with heq | hgt
    · rw [heq, horder.irrefl _ hstopAction] at hgstop
      simp at hgstop
    · rw [horder.asymm hstopAction hgAction hgt] at hgstop
      simp at hgstop
  have hset : waitset pairs t =
      ((waitset pairs t).take (s.waitsetindex t) ++ pre) ++ wp :: post := by
    rw [List.append_assoc, ← hsplit, List.take_append_drop]
  obtain ⟨wp', hwp', -, hle⟩ := hfront.waitset t _ wp post hset c hcnum ep child
    (List.mem_of_mem_drop hdrop) hdesc hne g hgpath hgstop
  have hexec : wp'.wait ∈ s.executed := by
    rcases List.mem_append.mp hwp' with hwp' | hwp'
    · exact h.waited t wp' hwp'
    · exact hpre wp' hwp'
  rcases hle with rfl | hle
  · exact hgleft hexec
  · exact hgleft (h.inOrder.closed hgAction hexec hle)

/-! ## All lookups of a replay -/

/-- A lookup is one of a thread that the search has come to, with the pairs passed so far. -/
theorem ReplayOk.exists_consulted (h : ReplayOk paths order pairs s)
    (hstopped : ∀ t < s.threads.length, Stopped paths s t) (horder : paths.OrderOk order)
    (hwaits : WaitsFor paths order pairs) {tids : List Nat}
    (htids : ∀ t ∈ tids, t < s.threads.length) {wp : WaitPair}
    (hwp : wp ∈ s.searched paths pairs tids) :
    ∃ t < s.threads.length, ∃ index : Nat → Nat,
      ReplayOk paths order pairs { s with waitsetindex := index } ∧
        wp ∈ ({ s with waitsetindex := index } : Replay).consulted paths (s.execpoint paths t)
          ((waitset pairs t).drop (index t)) := by
  induction tids generalizing s with
  | nil => simp [searched] at hwp
  | cons tid tids ih =>
    rw [List.forall_mem_cons] at htids
    unfold searched at hwp
    split_ifs at hwp with hcomplete
    · exact ih h hstopped htids.2 hwp
    · rcases List.mem_append.mp hwp with hwp | hwp
      · exact ⟨tid, htids.1, s.waitsetindex, h, hwp⟩
      · cases hcheck : s.checkThread paths pairs tid with
        | none => simp [hcheck] at hwp
        | some result =>
          obtain ⟨passes, s₁⟩ := result
          obtain ⟨⟨index, rfl⟩, hok, -⟩ :=
            h.checkThread_spec hstopped horder hwaits htids.1 hcheck
          rw [hcheck] at hwp
          cases passes with
          | true => simp at hwp
          | false =>
            have hrest := ih hok hstopped htids.2 hwp
            exact hrest

private theorem createdOk_schedulingPoint (horder : paths.OrderOk order)
    (hwaits : WaitsFor paths order pairs) {n tid : Nat}
    (hrun : schedulingPoint paths pairs n = some (tid, s)) : CreatedOk paths s := by
  induction n generalizing tid s with
  | zero =>
    obtain ⟨s₀, hresume, heq⟩ := Option.map_eq_some_iff.mp hrun
    cases heq
    exact createdOk_start.resume hresume
  | succ n ih =>
    unfold schedulingPoint at hrun
    cases hprev : schedulingPoint paths pairs n with
    | none => simp [hprev] at hrun
    | some point =>
      obtain ⟨prev, s₀⟩ := point
      obtain ⟨hok, hstopped, hlt⟩ := replayOk_schedulingPoint horder hwaits hprev
      rw [hprev] at hrun
      cases hpreempt : s₀.checkPreempt paths pairs prev with
      | none => simp [hpreempt] at hrun
      | some result =>
        obtain ⟨_ | next, s₁⟩ := result
        · simp [hpreempt] at hrun
        · obtain ⟨⟨index, rfl⟩, -⟩ :=
            hok.checkPreempt_spec hstopped horder hwaits hlt hpreempt
          simp only [hpreempt] at hrun
          obtain ⟨s₂, hresume, heq⟩ := Option.map_eq_some_iff.mp hrun
          cases heq
          have hcreated : CreatedOk paths { s₀ with waitsetindex := index } :=
            ⟨(ih hprev).children, (ih hprev).parents⟩
          exact hcreated.resume hresume

/-- Whenever `checkSet` looks up the thread of a wait pair in a replay of a schedule, the thread
exists if and only if no thread has a creation that leads to it in front of its next memory
action. -/
theorem lookups_created_iff (paths : RecordedPaths) (order : ExecPoint → ExecPoint → Bool)
    (horder : paths.OrderOk order) (hcreators : paths.AfterCreators order) :
    ∀ n tid s, schedulingPoint paths (buildSchedule paths order) n = some (tid, s) →
      ∀ wp ∈ s.lookups paths (buildSchedule paths order) tid,
        wp.wait.tid < s.threads.length ↔
          ∀ t < s.threads.length, ¬ s.AboutToCreate paths t wp.wait.tid := by
  intro n tid s hrun wp hwp
  have hwaits := buildSchedule_waitsFor horder hcreators
  obtain ⟨hok, hstopped, -⟩ := replayOk_schedulingPoint horder hwaits hrun
  have hcreated := createdOk_schedulingPoint horder hwaits hrun
  constructor
  · intro hexists t ht habout
    obtain ⟨ep, child, hmem, hdesc⟩ := habout
    have hdrop := (List.takeWhile_sublist _).subset hmem
    have hle := hcreated.le_of_drop hok.length_le ht hdrop hdesc
    omega
  · intro hnone
    by_contra hmissing
    obtain ⟨t, ht, index, hok', hconsulted⟩ :=
      hok.exists_consulted hstopped horder hwaits (fun t ht => mem_candidates.mp ht) hwp
    have hcreated' : CreatedOk paths { s with waitsetindex := index } :=
      ⟨hcreated.children, hcreated.parents⟩
    obtain ⟨c, hc, habout⟩ := hok'.exists_aboutToCreate hstopped hcreated' horder hcreators hwaits
      (creatorsInFront_buildSchedule horder hcreators) ht hconsulted (Nat.not_lt.mp hmissing)
    exact hnone c hc habout

/-! ## A creator that has not run -/

/-- Thread 0 creates thread 1, performs an action and creates thread 2, which performs nothing and
creates thread 3; threads 1 and 3 perform an action. -/
def lateCreatorPath : Nat → List PathEvent
  | 0 => [.other ⟨0, [(.counter, 0)]⟩, .threadCreate ⟨0, [(.counter, 1)]⟩ 1,
      .memory ⟨0, [(.counter, 2)]⟩, .threadCreate ⟨0, [(.counter, 3)]⟩ 2]
  | 1 => [.other ⟨1, [(.counter, 0)]⟩, .memory ⟨1, [(.counter, 1)]⟩]
  | 2 => [.other ⟨2, [(.counter, 0)]⟩, .threadCreate ⟨2, [(.counter, 1)]⟩ 3]
  | 3 => [.other ⟨3, [(.counter, 0)]⟩, .memory ⟨3, [(.counter, 1)]⟩]
  | _ => []

theorem create_lateCreatorPath {t child : Nat} {ep : ExecPoint}
    (h : .threadCreate ep child ∈ lateCreatorPath t) :
    (t = 0 ∧ child = 1 ∧ ep = ⟨0, [(.counter, 1)]⟩) ∨
      (t = 0 ∧ child = 2 ∧ ep = ⟨0, [(.counter, 3)]⟩) ∨
        (t = 2 ∧ child = 3 ∧ ep = ⟨2, [(.counter, 1)]⟩) := by
  match t with
  | 0 | 1 | 2 | 3 | _ + 4 => simp_all [lateCreatorPath, and_comm]

def lateCreator : RecordedPaths where
  num := 4
  path := lateCreatorPath
  num_pos := by decide
  tid_eq := by decide
  increasing t _ := by
    match t with
    | 0 | 1 | 2 | 3 | _ + 4 => simp [lateCreatorPath, PathEvent.Precedes, PathEvent.ep,
        ExecPoint.compare, ExecPoint.comparePairs]
  created_lt t _ ep child h := by
    rcases create_lateCreatorPath h with ⟨rfl, rfl, -⟩ | ⟨rfl, rfl, -⟩ | ⟨rfl, rfl, -⟩ <;> decide
  created t ht hpos := by
    match t with
    | 1 => exact ⟨0, by decide, ⟨0, [(.counter, 1)]⟩, by simp [lateCreatorPath]⟩
    | 2 => exact ⟨0, by decide, ⟨0, [(.counter, 3)]⟩, by simp [lateCreatorPath]⟩
    | 3 => exact ⟨2, by decide, ⟨2, [(.counter, 1)]⟩, by simp [lateCreatorPath]⟩
  created_once t _ t' _ ep ep' child h h' := by
    rcases create_lateCreatorPath h with ⟨rfl, rfl, rfl⟩ | ⟨rfl, rfl, rfl⟩ | ⟨rfl, rfl, rfl⟩ <;>
      rcases create_lateCreatorPath h' with ⟨rfl, hchild, rfl⟩ | ⟨rfl, hchild, rfl⟩ |
        ⟨rfl, hchild, rfl⟩ <;> simp_all

/-- The action of thread 0, then those of threads 1 and 3, where that of thread 3 comes last or is
the `late` one before that of thread 1. -/
def creatorOrder (late : Bool) (f g : ExecPoint) : Bool :=
  (f.tid = 0 && g.tid ≠ 0) ||
    if late then f.tid = 3 && g.tid = 1 else f.tid = 1 && g.tid = 3

private theorem lateCreator_action {f : ExecPoint} (h : lateCreator.Action f) :
    f = ⟨0, [(.counter, 2)]⟩ ∨ f = ⟨1, [(.counter, 1)]⟩ ∨ f = ⟨3, [(.counter, 1)]⟩ := by
  obtain ⟨t, ht, hmem⟩ := h
  match t with
  | 0 | 1 | 2 | 3 | _ + 4 => simp_all [lateCreator, lateCreatorPath]

theorem lateCreator_orderOk (late : Bool) : lateCreator.OrderOk (creatorOrder late) where
  irrefl f hf := by
    rcases lateCreator_action hf with rfl | rfl | rfl <;> simp [creatorOrder]
  trans f g h hf hg hh hfg hgh := by
    rcases lateCreator_action hf with rfl | rfl | rfl <;>
      rcases lateCreator_action hg with rfl | rfl | rfl <;>
        rcases lateCreator_action hh with rfl | rfl | rfl <;> simp_all [creatorOrder]
  total f g hf hg hne := by
    rcases lateCreator_action hf with rfl | rfl | rfl <;>
      rcases lateCreator_action hg with rfl | rfl | rfl <;> cases late <;> simp_all [creatorOrder]
  program t _ := by
    match t with
    | 0 | 1 | 2 | 3 | _ + 4 => simp [lateCreator, lateCreatorPath]
  joined t _ pre ep target post hpath := by
    have hmem : .threadJoin ep target ∈ lateCreatorPath t := by
      change lateCreatorPath t = _ at hpath
      simp [hpath]
    rcases t with _ | _ | _ | _ | t <;> simp [lateCreatorPath] at hmem

theorem lateCreator_afterCreators (late : Bool) :
    lateCreator.AfterCreators (creatorOrder late) := by
  intro t ht pre ep child post hpath u hu hdesc f hf g hg
  have hcreate : .threadCreate ep child ∈ lateCreatorPath t := by
    change lateCreatorPath t = _ at hpath
    simp [hpath]
  have hfpath : .memory f ∈ lateCreator.path t := by
    rw [hpath]
    exact List.mem_append_left _ (mem_memories.mp hf)
  have hpos : 0 < u := by
    have hle := le_of_descends hdesc
    have hlt := (lateCreator.created_lt t ht ep child hcreate).1
    omega
  have hftid := RecordedPaths.tid_of_memory ht hfpath
  have hgtid := RecordedPaths.tid_of_memory hu (mem_memories.mp hg)
  have hmain : t = 0 := by
    rcases create_lateCreatorPath hcreate with ⟨rfl, -⟩ | ⟨rfl, -⟩ | ⟨rfl, -⟩
    · rfl
    · rfl
    · simp [lateCreator, lateCreatorPath] at hfpath
  simp [creatorOrder, hftid, hgtid, hmain]
  omega

/-- Thread 0 ends when thread 2 has not run yet, and the search comes to thread 1, which waits for
thread 3. -/
theorem not_lookups_created :
    ¬ ∀ (paths : RecordedPaths) (order : ExecPoint → ExecPoint → Bool), paths.OrderOk order →
      paths.AfterCreators order →
      ∀ n tid s, schedulingPoint paths (buildSchedule paths order) n = some (tid, s) →
        ∀ wp ∈ s.lookups paths (buildSchedule paths order) tid,
          wp.wait.tid < s.threads.length := by
  intro h
  have hlookup := h lateCreator (creatorOrder true) (lateCreator_orderOk true)
    (lateCreator_afterCreators true) 2 0 _ rfl
    ⟨⟨1, [(.counter, 1)]⟩, ⟨3, [(.counter, 1)]⟩⟩ (by decide)
  exact absurd hlookup (by decide)

/-- When thread 3 stands at its action, it waits for thread 1, which no thread is about to
create. -/
theorem lookups_created_lateCreator :
    ∃ s, schedulingPoint lateCreator (buildSchedule lateCreator (creatorOrder false)) 5 =
        some (3, s) ∧
      ⟨⟨3, [(.counter, 1)]⟩, ⟨1, [(.counter, 1)]⟩⟩ ∈
        s.lookups lateCreator (buildSchedule lateCreator (creatorOrder false)) 3 ∧
      ∀ t < s.threads.length, ¬ s.AboutToCreate lateCreator t 1 := by
  refine ⟨_, rfl, by decide, ?_⟩
  have hcreated := lookups_created_iff lateCreator (creatorOrder false)
    (lateCreator_orderOk false) (lateCreator_afterCreators false) 5 3 _ rfl
    ⟨⟨3, [(.counter, 1)]⟩, ⟨1, [(.counter, 1)]⟩⟩ (by decide)
  exact hcreated.mp (by decide)

end Replay

end SatCheck
