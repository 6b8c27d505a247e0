import SatCheck.TSOThreads
/-!
# The first run under TSO

Without wait pairs every store has reached the memory before another thread goes on, and the
threads take turns.
-/

namespace SatCheck

namespace TSOExecution

open ByteMemory StoreBuffers

variable {schedule : Schedule} {s s' : TSOExecution} {tid u : Nat} {t : TSOThread}

/-- No thread and no store has to wait, as in the first run. -/
structure Schedule.Empty (schedule : Schedule) : Prop where
  waitset : ∀ tid, schedule.waitset tid = []
  storeset : ∀ tid, schedule.storeset tid = []

theorem pairsAhead_nil (s : TSOExecution) (setindex : Nat) : s.pairsAhead [] setindex = [] := by
  unfold pairsAhead
  rw [List.drop_nil, ite_self]

private theorem checkStoreBuffer_of_empty (hempty : schedule.Empty) (s : TSOExecution) (tid : Nat)
    (first : StoreValue) : ∃ s', s.checkStoreBuffer schedule tid first = some (true, s') := by
  unfold checkStoreBuffer
  rw [hempty.storeset tid, pairsAhead_nil]
  exact ⟨_, rfl⟩

/-- Once there is nothing to commit, `check_preempt` leaves the buffers alone. -/
theorem checkPreempt_of_drained {n : Nat} (hdrained : ∀ u, s.storebuffer u = [])
    (h : s.checkPreempt schedule tid n = some s') (u : Nat) : s'.storebuffer u = [] := by
  unfold checkPreempt at h
  split at h
  · cases h
  · rename_i s₁ hsearch
    obtain rfl := Option.some.inj h
    exact (congrFun (search_spec hsearch).1.storebuffer u).trans (hdrained u)
  · rename_i next s₁ hsearch
    obtain rfl := Option.some.inj h
    exact (congrFun (search_spec hsearch).1.storebuffer u).trans (hdrained u)
  · rename_i from_ s₁ hsearch
    obtain ⟨hsame, hstore⟩ := search_spec hsearch
    exact absurd ((congrFun hsame.storebuffer from_).trans (hdrained from_)) (hstore from_ rfl)

private theorem search_own_store (hempty : schedule.Empty) {first : StoreValue}
    {rest : List StoreValue} (hbuffer : s.storebuffer tid = first :: rest) :
    ∃ s₁, s.search schedule (2 * s.threads.length) tid true = some (.store tid, s₁) ∧
      SameStores s s₁ := by
  obtain ⟨t, ht⟩ := exists_thread hbuffer
  obtain ⟨n, hn⟩ : ∃ n, 2 * s.threads.length = n + 1 := by
    obtain ⟨hlt, -⟩ := List.getElem?_eq_some_iff.mp ht
    exact ⟨2 * s.threads.length - 1, by omega⟩
  obtain ⟨s₁, hcheck⟩ := checkStoreBuffer_of_empty hempty s tid first
  refine ⟨s₁, ?_, checkStoreBuffer_same hcheck⟩
  rw [hn, search]
  simp only [hbuffer, hcheck]

/-- The buffer of the thread that calls `check_preempt` is emptied before another thread runs. -/
theorem checkPreempt_drains (hempty : schedule.Empty) {n : Nat}
    (hothers : ∀ u, u ≠ tid → s.storebuffer u = []) (hn : (s.storebuffer tid).length ≤ n)
    (h : s.checkPreempt schedule tid n = some s') : ∃ (s₁ : TSOExecution) (m : Nat),
      s₁.checkPreempt schedule tid m = some s' ∧
      (∀ u, s₁.storebuffer u = []) ∧ s₁.threads.length = s.threads.length ∧
      s₁.isComplete = s.isComplete := by
  induction n generalizing s with
  | zero =>
    refine ⟨s, 0, h, fun u => ?_, rfl, rfl⟩
    by_cases hu : u = tid
    · rw [hu]
      exact List.length_eq_zero_iff.mp (Nat.le_zero.mp hn)
    · exact hothers u hu
  | succ n ih =>
    cases hbuffer : s.storebuffer tid with
    | nil =>
      refine ⟨s, n + 1, h, fun u => ?_, rfl, rfl⟩
      by_cases hu : u = tid
      · rw [hu, hbuffer]
      · exact hothers u hu
    | cons first rest =>
      obtain ⟨s₁, hsearch, hsame⟩ := search_own_store hempty hbuffer
      rw [checkPreempt, hsearch] at h
      have hthreads := (search_threads hsearch).1
      have hstore := storebuffer_doStore (hsame.storebuffer ▸ hbuffer : s₁.storebuffer tid = _)
      obtain ⟨hlength, hcomplete, -⟩ := doStore_threads s₁ tid
      obtain ⟨s₂, m, h, hdrained, hlength', hcomplete'⟩ := ih (fun u hu => by
        rw [hstore, Function.update_of_ne hu, hsame.storebuffer]
        exact hothers u hu) (by
        rw [hstore, Function.update_self]
        rw [hbuffer, List.length_cons] at hn
        omega) h
      exact ⟨s₂, m, h, hdrained, hlength'.trans (hlength.trans (congrArg List.length hthreads)),
        hcomplete'.trans (hcomplete.trans (isComplete_congr hthreads))⟩

/-! ## The machine without buffers -/

/-- Only the running thread has stores pending, and none when it has called `check_preempt`. -/
structure Calm (s : TSOExecution) : Prop where
  others : ∀ u, s.current ≠ some u → s.storebuffer u = []
  parked : ∀ u t, s.current = some u → s.threads[u]? = some t → t.pending ≠ none →
    t.storebuffer = []

theorem Calm.of_drained (h : ∀ u, s.storebuffer u = []) : Calm s where
  others u _ := h u
  parked u _ _ ht _ := (storebuffer_of_thread ht).symm.trans (h u)

theorem Calm.drained (hcalm : Calm s) (hcurrent : s.current = some tid)
    (ht : s.threads[tid]? = some t) (hpending : t.pending ≠ none) (u : Nat) :
    s.storebuffer u = [] := by
  by_cases hu : u = tid
  · rw [hu, storebuffer_of_thread ht]
    exact hcalm.parked tid t hcurrent ht hpending
  · exact hcalm.others u fun h => hu (Option.some.inj (h.symm.trans hcurrent))

theorem Calm.allows (hcalm : Calm s) : Allows Exclusive s where
  commit _ _ _ := trivial
  issue _ _ hcurrent v hv := hcalm.others v fun h => hv (Option.some.inj (h.symm.trans hcurrent))
  access _ _ hcurrent ht hpending :=
    ⟨fun _ => hcalm.drained hcurrent ht hpending, fun _ => hcalm.drained hcurrent ht hpending⟩

/-- The running thread may do with its own buffer what it likes while it stays outside of
`check_preempt`. -/
theorem Calm.of_running (hcalm : Calm s) (hcurrent : s.current = some tid)
    (hcurrent' : s'.current = some tid)
    (hbuffers : ∀ u, u ≠ tid → s'.storebuffer u = s.storebuffer u)
    (hpending : s'.threads[tid]?.map (·.pending) = some none) : Calm s' where
  others u hu := by
    have hne : u ≠ tid := fun h => hu (h ▸ hcurrent')
    rw [hbuffers u hne]
    exact hcalm.others u fun h => hne (Option.some.inj (h.symm.trans hcurrent))
  parked _ t hu ht hparked := by
    obtain rfl := Option.some.inj (hcurrent'.symm.trans hu)
    rw [ht] at hpending
    exact absurd (Option.some.inj hpending) hparked

theorem Calm.preempt (hempty : schedule.Empty) (hothers : ∀ u, u ≠ tid → s.storebuffer u = [])
    (h : s.preempt schedule tid = some s') : Calm s' := by
  obtain ⟨s₁, m, h, hdrained, -, -⟩ :=
    checkPreempt_drains hempty hothers (length_storebuffer_le s tid) h
  exact .of_drained (checkPreempt_of_drained hdrained h)

theorem Calm.park {pending : Pending} (hempty : schedule.Empty)
    (hothers : ∀ u, u ≠ tid → s.storebuffer u = [])
    (h : s.park schedule tid pending = some s') : Calm s' := by
  have hsame : SameStores s (s.modify tid fun t => { t with pending := some pending }) :=
    storebuffer_modify s tid fun _ => rfl
  exact .preempt hempty (fun u hu => (congrFun hsame.storebuffer u).trans (hothers u hu)) h

theorem pending_modify (ht : s.threads[tid]? = some t) (hpending : t.pending = none)
    {f : TSOThread → TSOThread} (hf : (f t).pending = t.pending) :
    (s.modify tid f).threads[tid]?.map (·.pending) = some none := by
  rw [getElem?_modify, if_pos rfl, ht, Option.map_some, Option.map_some, hf, hpending]

private theorem doStores_drained (n : Nat) (hdrained : ∀ u, s.storebuffer u = []) :
    s.doStores tid n = s := by
  induction n with
  | zero => rfl
  | succ n ih =>
    have hstore : s.doStore tid = s := by
      unfold doStore
      rw [hdrained tid]
    rw [doStores, hstore, ih]

theorem Calm.resume {pending : Pending} (hempty : schedule.Empty)
    (hdrained : ∀ u, s.storebuffer u = [])
    (h : s.resume schedule tid t pending = some s') : Calm s' := by
  have hsame : SameStores s (s.modify tid fun t => { t with pending := none }) :=
    storebuffer_modify s tid fun _ => rfl
  have hincrement := hsame.trans (incrementTop_same _ tid)
  have hdrained' : ∀ u, ((s.modify tid fun t => { t with pending := none }).incrementTop
      tid).storebuffer u = [] := by
    rwa [hincrement.storebuffer]
  unfold TSOExecution.resume at h
  cases pending with
  | load addr len =>
    obtain rfl := Option.some.inj h
    exact .of_drained hdrained'
  | rmw op addr len oldval valarg =>
    obtain rfl := Option.some.inj h
    refine .of_drained fun u => (congrFun (storebuffer_congr ?_) u).trans (hdrained' u)
    unfold rmw
    dsimp only
    split_ifs <;> rfl
  | fence =>
    obtain rfl := Option.some.inj h
    rw [doStores_drained _ hdrained']
    exact .of_drained hdrained'
  | join target =>
    simp only at h
    split_ifs at h
    · obtain rfl := Option.some.inj h
      exact .of_drained hdrained'
    · exact .park hempty (fun u _ => (congrFun hsame.storebuffer u).trans (hdrained u)) h

theorem Calm.call {c : TSOCall} (hempty : schedule.Empty) (hcalm : Calm s)
    (hcurrent : s.current = some tid) (ht : s.threads[tid]? = some t) (hpending : t.pending = none)
    (h : s.call schedule tid t c = some s') : Calm s' := by
  have hothers : ∀ u, u ≠ tid → s.storebuffer u = [] := fun u hu =>
    hcalm.others u fun hu' => hu (Option.some.inj (hu'.symm.trans hcurrent))
  have hincrement : Calm (s.incrementTop tid) :=
    hcalm.of_running hcurrent hcurrent
      (fun u _ => congrFun (incrementTop_same s tid).storebuffer u)
      (pending_modify ht hpending rfl)
  cases c with
  | load addr len => exact .park hempty hothers h
  | rmw op addr len oldval valarg => exact .park hempty hothers h
  | fence => exact .park hempty hothers h
  | store addr val len =>
    obtain rfl := Option.some.inj h
    refine hcalm.of_running hcurrent hcurrent (fun u hu => ?_) (pending_modify ht hpending rfl)
    exact ((congrFun (storebuffer_congr rfl) u).trans
      (congrFun (storebuffer_update s ht) u)).trans (Function.update_of_ne hu _ _)
  | threadCreate =>
    obtain rfl := Option.some.inj h
    refine hcalm.of_running hcurrent hcurrent (fun u _ => ?_) ?_
    · exact congrFun ((incrementTop_same s tid).trans (threadCreate_same _ _ rfl)).storebuffer u
    · have hlt : tid < (s.incrementTop tid).threads.length := by
        rw [incrementTop, modify, List.length_modify]
        exact (List.getElem?_eq_some_iff.mp ht).1
      rw [List.getElem?_append_left hlt]
      exact pending_modify ht hpending rfl
  | threadJoin target =>
    unfold TSOExecution.call at h
    simp only at h
    split_ifs at h
    · obtain rfl := Option.some.inj h
      exact hincrement
    · exact .park hempty hothers h
  | threadFinish =>
    have hsame : SameStores s (s.modify tid fun t => { t with complete := true }) :=
      storebuffer_modify s tid fun _ => rfl
    exact .preempt hempty (fun u hu => (congrFun hsame.storebuffer u).trans (hothers u hu)) h
  | annotate execpoint =>
    obtain rfl := Option.some.inj h
    have hsame : SameStores s (s.modify tid fun t => { t with execpoint := execpoint }) :=
      storebuffer_modify s tid fun _ => rfl
    exact hcalm.of_running hcurrent hcurrent (fun u _ => congrFun hsame.storebuffer u)
      (pending_modify ht hpending rfl)
  | setNewFlag =>
    obtain rfl := Option.some.inj h
    exact ⟨hcalm.others, hcalm.parked⟩

theorem Calm.step {c : TSOCall} (hempty : schedule.Empty) (hcalm : Calm s)
    (h : s.step schedule c = some s') : Calm s' := by
  unfold TSOExecution.step at h
  split at h
  · cases h
  · rename_i u hcurrent
    split at h
    · cases h
    · rename_i thread ht
      split at h
      · rename_i pending hpending
        exact .resume hempty (hcalm.drained hcurrent ht (by simp [hpending])) h
      · rename_i hpending
        exact .call hempty hcalm hcurrent ht hpending h

theorem Reachable.calm {memory : Memory} (hempty : schedule.Empty)
    (h : Reachable schedule memory s) : Calm s := by
  induction h with
  | start => exact .of_drained (congrFun (congrArg State.buffer (buffers_start memory)))
  | step _ c hstep ih => exact ih.step hempty hstep

/-- Without wait pairs an execution with store buffers is one of the machine without buffers: every
store can be done where it is issued, and every load and RMW reads what that leaves. -/
theorem unscheduled_sequential {schedule : Schedule} (hempty : schedule.Empty) {memory : Memory}
    {s : TSOExecution} (h : Reachable schedule memory s) :
    ∃ m, Sequential semantics memory s.events m ∧ Drains s.buffers semantics m := by
  have htrace : Trace semantics Exclusive memory s.events s.buffers := by
    induction h with
    | start =>
      rw [buffers_start]
      exact .nil
    | step h c hstep ih => exact step_continues (h.calm hempty).allows hstep _ ih
  exact htrace.sequential

/-- The second thread reads what the first one has stored. -/
theorem unscheduled_sequential_buffering : ∃ s m,
    (start fun _ => 0).run emptySchedule bufferingCalls = some s ∧
    s.events.getLast? = some (.read 1 ⟨0, .one, 1, false⟩) ∧
    Sequential semantics (fun _ => 0) s.events m ∧ Drains s.buffers semantics m := by
  obtain ⟨s, hrun, hevents⟩ : ∃ s,
      (start fun _ => 0).run emptySchedule bufferingCalls = some s ∧
      s.events.getLast? = some (.read 1 ⟨0, .one, 1, false⟩) := ⟨_, rfl, by decide⟩
  obtain ⟨m, hm⟩ := unscheduled_sequential ⟨fun _ => rfl, fun _ => rfl⟩ (Reachable.start.run hrun)
  exact ⟨s, m, hrun, hevents, hm⟩

/-! ## Turns -/

theorem checkThread_of_empty (hempty : schedule.Empty) (s : TSOExecution) (tid : Nat)
    (t : TSOThread) : ∃ s', s.checkThread schedule tid t = some (true, s') := by
  unfold checkThread
  rw [hempty.waitset tid, pairsAhead_nil]
  exact ⟨_, rfl⟩

/-- Which thread `check_preempt` goes on with: the first behind the caller that can run. -/
inductive Finds (alive : Nat → Prop) (numThreads tid turns : Nat) : Found → Prop
  | thread (turn : Nat) (hpos : 0 < turn) (hle : turn ≤ turns)
      (hskipped : ∀ i, 0 < i → i < turn → ¬ alive ((tid + i) % numThreads)) :
      Finds alive numThreads tid turns (.thread ((tid + turn) % numThreads))
  | nothing (hskipped : ∀ i, 0 < i → i ≤ turns → ¬ alive ((tid + i) % numThreads)) :
      Finds alive numThreads tid turns .nothing

theorem Finds.skip {alive : Nat → Prop} {numThreads turns : Nat} {found : Found}
    (hskip : ¬ alive ((tid + 1) % numThreads))
    (h : Finds alive numThreads ((tid + 1) % numThreads) turns found) :
    Finds alive numThreads tid (turns + 1) found := by
  have hshift : ∀ i, ((tid + 1) % numThreads + i) % numThreads = (tid + (i + 1)) % numThreads := by
    intro i
    rw [Nat.mod_add_mod, Nat.add_assoc, Nat.add_comm 1]
  cases h with
  | thread turn hpos hle hrest =>
    rw [hshift]
    refine .thread (turn + 1) (by omega) (by omega) fun i hi hlt => ?_
    obtain _ | _ | i := i
    · omega
    · exact hskip
    · exact hshift (i + 1) ▸ hrest (i + 1) (by omega) (by omega)
  | nothing hrest =>
    refine .nothing fun i hi hle => ?_
    obtain _ | _ | i := i
    · omega
    · exact hskip
    · exact hshift (i + 1) ▸ hrest (i + 1) (by omega) (by omega)

theorem search_finds (hempty : schedule.Empty) (hdrained : ∀ u, s.storebuffer u = []) {n : Nat}
    {found : Found} (h : s.search schedule (2 * n) tid true = some (found, s')) :
    Finds s.Alive s.threads.length tid n found := by
  induction n generalizing tid with
  | zero =>
    obtain ⟨rfl, -⟩ := Prod.mk.inj (Option.some.inj h)
    exact .nothing fun i hpos hle => by omega
  | succ n ih =>
    rw [Nat.mul_succ, search] at h
    simp only [hdrained tid] at h
    rw [search] at h
    split at h
    · cases h
    · rename_i t ht
      split at h
      · rename_i hcomplete
        refine Finds.skip ?_ (ih h)
        rintro ⟨-, halive⟩
        unfold isComplete at halive
        rw [ht] at halive
        exact absurd halive (by simp [hcomplete])
      · obtain ⟨s₁, hcheck⟩ := checkThread_of_empty hempty s ((tid + 1) % s.threads.length) t
        rw [hcheck] at h
        obtain ⟨rfl, -⟩ := Prod.mk.inj (Option.some.inj h)
        exact .thread 1 one_pos (by omega) fun i hpos hlt => by omega

/-- Where `check_preempt` goes on with what it has found. -/
def Found.next (found : Found) (tid : Nat) (complete : Bool) : Option Nat :=
  match found with
  | .thread u => some u
  | _ => if complete then none else some tid

theorem checkPreempt_finds (hempty : schedule.Empty) {n : Nat}
    (hothers : ∀ u, u ≠ tid → s.storebuffer u = []) (hn : (s.storebuffer tid).length ≤ n)
    (h : s.checkPreempt schedule tid n = some s') :
    ∃ found, Finds s.Alive s.threads.length tid s.threads.length found ∧
      s'.current = found.next tid (s.isComplete tid) := by
  obtain ⟨s₁, m, h, hdrained, hlength, hcomplete⟩ := checkPreempt_drains hempty hothers hn h
  have halive : s₁.Alive = s.Alive := by
    unfold Alive
    rw [hlength, hcomplete]
  rw [← halive, ← hlength, ← hcomplete]
  unfold checkPreempt at h
  split at h
  · cases h
  · rename_i s₂ hsearch
    obtain rfl := Option.some.inj h
    refine ⟨_, search_finds hempty hdrained hsearch, ?_⟩
    rw [isComplete_congr (search_threads hsearch).1]
    rfl
  · rename_i next s₂ hsearch
    obtain rfl := Option.some.inj h
    exact ⟨_, search_finds hempty hdrained hsearch, rfl⟩
  · rename_i from_ s₂ hsearch
    obtain ⟨hsame, hstore⟩ := search_spec hsearch
    exact absurd ((congrFun hsame.storebuffer from_).trans (hdrained from_)) (hstore from_ rfl)

def ahead (numThreads tid u : Nat) : Nat := if tid ≤ u then u - tid else numThreads + u - tid

private theorem mod_ahead {numThreads : Nat} (htid : tid < numThreads) (hu : u < numThreads) :
    (tid + ahead numThreads tid u) % numThreads = u := by
  unfold ahead
  split_ifs with h
  · rw [Nat.add_sub_cancel' h, Nat.mod_eq_of_lt hu]
  · have hsum : tid + (numThreads + u - tid) = u + numThreads := by omega
    rw [hsum, Nat.add_mod_right, Nat.mod_eq_of_lt hu]

theorem ahead_lt {m n turn : Nat} (hmn : m ≤ n) (htid : tid < m) (hu : u < m) (hpos : 0 < turn)
    (hle : turn ≤ ahead m tid u) : ahead n ((tid + turn) % m) u < ahead n tid u := by
  unfold ahead at hle ⊢
  by_cases hbehind : tid ≤ u
  · rw [if_pos hbehind] at hle ⊢
    rw [Nat.mod_eq_of_lt (by omega), if_pos (by omega)]
    omega
  · rw [if_neg hbehind] at hle ⊢
    rcases Nat.lt_or_ge (tid + turn) m with hlt | hge
    · rw [Nat.mod_eq_of_lt hlt, if_neg (by omega)]
      omega
    · rw [Nat.mod_eq_sub_mod hge, Nat.mod_eq_of_lt (by omega), if_pos (by omega)]
      omega

theorem Finds.ahead_lt {alive : Nat → Prop} {m n : Nat} {found : Found} (hmn : m ≤ n)
    (htid : tid < m) (hu : u < m) (hne : tid ≠ u) (halive : alive u)
    (h : Finds alive m tid m found) :
    ∃ next, found = .thread next ∧ ahead n next u < ahead n tid u := by
  have hmod := mod_ahead htid hu
  have hpos : 0 < ahead m tid u := by
    unfold ahead
    split_ifs <;> omega
  have hle : ahead m tid u ≤ m := by
    unfold ahead
    split_ifs <;> omega
  cases h with
  | thread turn hturn _ hskipped =>
    refine ⟨_, rfl, TSOExecution.ahead_lt hmn htid hu hturn ?_⟩
    by_contra hlt
    exact hskipped _ hpos (by omega) (by rwa [hmod])
  | nothing hskipped => exact absurd halive (hmod ▸ hskipped _ hpos hle)

theorem step_length {c : TSOCall} (h : s.step schedule c = some s') :
    s.threads.length ≤ s'.threads.length := by
  obtain ⟨tid, t, -, ht, hcases⟩ := step_cases h
  generalize s.preempts c = preempts at hcases
  cases hcases with
  | preempt f _ _ _ hpreempt =>
    have hlength := length_modify s tid f
    have htid := (List.getElem?_eq_some_iff.mp ht).1
    exact ((checkPreempt_spec (hlength ▸ htid) hpreempt).length.trans hlength).ge
  | own hown => exact hown.length

/-- Runs in which the thread has to wait, with the number of calls of `check_preempt`. -/
inductive PassedOver (schedule : Schedule) (u : Nat) (s : TSOExecution) :
    Nat → TSOExecution → Prop
  | refl : PassedOver schedule u s 0 s
  | step {n : Nat} {s₁ s₂ : TSOExecution} (h : PassedOver schedule u s n s₁)
      (hother : s₁.current ≠ some u) (c : TSOCall) (hstep : s₁.step schedule c = some s₂) :
      PassedOver schedule u s (n + (s₁.preempts c).toNat) s₂

theorem Bystander.alive (h : Bystander u s s') (hu : s.Alive u) : s'.Alive u := by
  obtain ⟨hlt, hcomplete⟩ := hu
  obtain ⟨n, hn⟩ := h.thread _ (List.getElem?_eq_getElem hlt)
  refine alive_of_thread hn ?_
  unfold TSOExecution.isComplete at hcomplete
  rwa [List.getElem?_eq_getElem hlt] at hcomplete

def turnsUntil (s : TSOExecution) (numThreads u : Nat) : Nat :=
  match s.current with
  | some tid => ahead numThreads tid u
  | none => 0

private theorem step_turnsUntil {memory : Memory} {c : TSOCall} {numThreads : Nat}
    (hempty : schedule.Empty) (hs : Reachable schedule memory s) (hu : s.Alive u)
    (hother : s.current ≠ some u) (h : s.step schedule c = some s')
    (hnum : s'.threads.length ≤ numThreads) :
    (s.preempts c).toNat + s'.turnsUntil numThreads u ≤ s.turnsUntil numThreads u := by
  obtain ⟨tid, t, hcurrent, ht, hcases⟩ := step_cases h
  have htid := (List.getElem?_eq_some_iff.mp ht).1
  unfold turnsUntil
  rw [hcurrent]
  generalize s.preempts c = preempts at hcases ⊢
  cases hcases with
  | own hown =>
    rw [hown.current, hcurrent]
    simp
  | preempt f hbuffer _ _ hpreempt =>
    have hlength := length_modify s tid f
    have hspec := checkPreempt_spec (hlength ▸ htid) hpreempt
    have hothers : ∀ v, v ≠ tid → (s.modify tid f).storebuffer v = [] := fun v hv => by
      rw [(storebuffer_modify s tid hbuffer).storebuffer]
      exact (hs.calm hempty).others v fun hv' => hv (Option.some.inj (hv'.symm.trans hcurrent))
    obtain ⟨found, hfinds, hnext⟩ :=
      checkPreempt_finds hempty hothers (length_storebuffer_le _ tid) hpreempt
    have hne : tid ≠ u := fun heq => hother (heq ▸ hcurrent)
    have halive := (Bystander.modify (s := s) f (Ne.symm hne)).alive hu
    rw [hspec.length] at hnum
    obtain ⟨next, rfl, hlt⟩ := hfinds.ahead_lt hnum (hlength ▸ htid) halive.1 hne halive
    rw [hnext]
    show 1 + ahead numThreads next u ≤ ahead numThreads tid u
    omega

/-- Without wait pairs no thread is passed over: a thread that has not finished runs before
`check_preempt` has been called as many times as there are threads. -/
theorem bounded_bypass {schedule : Schedule} (hempty : schedule.Empty) {memory : Memory}
    {s s' : TSOExecution} {u n : Nat} (hs : Reachable schedule memory s) (hu : s.Alive u)
    (h : PassedOver schedule u s n s') : n < s'.threads.length := by
  have hrun : ∀ {n s'}, PassedOver schedule u s n s' → Reachable schedule memory s' ∧
      s'.Alive u ∧ ∀ numThreads, s'.threads.length ≤ numThreads →
        n + s'.turnsUntil numThreads u ≤ s.turnsUntil numThreads u := by
    intro n s' h
    induction h with
    | refl => exact ⟨hs, hu, fun numThreads _ => by simp⟩
    | @step n s₁ s₂ _ hother c hstep ih =>
      obtain ⟨hreach, halive, hturns⟩ := ih
      refine ⟨hreach.step c hstep, (step_bystander hstep hother).alive halive, ?_⟩
      intro numThreads hnum
      have hone := step_turnsUntil hempty hreach halive hother hstep hnum
      have hmono := (step_length hstep).trans hnum
      have := hturns numThreads hmono
      omega
  obtain ⟨-, halive, hturns⟩ := hrun h
  have hbound := hturns _ le_rfl
  have hlt : s.turnsUntil s'.threads.length u < s'.threads.length := by
    have hu' := halive.1
    unfold turnsUntil ahead
    cases hcurrent : s.current with
    | none => exact Nat.zero_lt_of_lt hu'
    | some tid =>
      have htid := (hs.alive hcurrent).1
      simp only
      split_ifs <;> omega
  omega

/-- The main thread and the first of two others call `check_preempt` before the second one runs. -/
theorem bounded_bypass_fences : ∃ s s' : TSOExecution,
    (start fun _ => 0).run emptySchedule [.threadCreate, .threadCreate] = some s ∧
    s.run emptySchedule [.fence, .fence] = some s' ∧ s'.current = some 2 ∧
    2 < s'.threads.length := by
  obtain ⟨s, s₁, s₂, hrun, hfirst, hsecond, ⟨hlt, hcomplete⟩, hother, hother₁, hpreempts,
      hpreempts₁, hcurrent⟩ : ∃ s s₁ s₂ : TSOExecution,
      (start fun _ => 0).run emptySchedule [.threadCreate, .threadCreate] = some s ∧
      s.step emptySchedule .fence = some s₁ ∧ s₁.step emptySchedule .fence = some s₂ ∧
      s.Alive 2 ∧ s.current ≠ some 2 ∧ s₁.current ≠ some 2 ∧ s.preempts .fence = true ∧
      s₁.preempts .fence = true ∧ s₂.current = some 2 :=
    ⟨_, _, _, rfl, rfl, rfl, ⟨by decide, rfl⟩, by decide, by decide, rfl, rfl, rfl⟩
  have hpassed := ((PassedOver.refl : PassedOver emptySchedule 2 s 0 s).step hother .fence
    hfirst).step hother₁ .fence hsecond
  rw [hpreempts, hpreempts₁] at hpassed
  refine ⟨s, s₂, hrun, ?_, hcurrent, bounded_bypass ⟨fun _ => rfl, fun _ => rfl⟩
    (Reachable.start.run hrun) ⟨hlt, hcomplete⟩ hpassed⟩
  simp only [run, hfirst, hsecond, Option.bind_some]

end TSOExecution

end SatCheck
