import Mathlib.Algebra.Order.BigOperators.Group.List
import SatCheck.TSORuns
/-!
# Threads under TSO

What a thread does when it does not run, and when it runs again.  A thread that has finished only
has its pending stores committed, and without wait pairs no thread is passed over forever.
-/

namespace SatCheck

namespace TSOExecution

open ByteMemory StoreBuffers

variable {schedule : Schedule} {s s' s'' : TSOExecution} {tid u : Nat} {t : TSOThread}

/-! ## Threads that do not run -/

/-- The thread is where it has been, though some of its stores may have been committed. -/
structure Bystander (u : Nat) (s s' : TSOExecution) : Prop where
  thread : ∀ t, s.threads[u]? = some t →
    ∃ n, s'.threads[u]? = some { t with storebuffer := t.storebuffer.drop n }
  events : ∃ new, s'.events = s.events ++ new ∧
    ∀ event ∈ new, event.thread = u → ∃ epval, event = .commit u epval

theorem Bystander.of_same (hthreads : s'.threads = s.threads) (hevents : s'.events = s.events) :
    Bystander u s s' where
  thread t ht := ⟨0, by rw [hthreads, ht]; rfl⟩
  events := ⟨[], by rw [hevents, List.append_nil], by simp⟩

theorem Bystander.trans (h : Bystander u s s') (h' : Bystander u s' s'') : Bystander u s s'' where
  thread t ht := by
    obtain ⟨n, hn⟩ := h.thread t ht
    obtain ⟨m, hm⟩ := h'.thread _ hn
    exact ⟨n + m, by rw [hm, List.drop_drop]⟩
  events := by
    obtain ⟨new, heq, hnew⟩ := h.events
    obtain ⟨new', heq', hnew'⟩ := h'.events
    refine ⟨new ++ new', by rw [heq', heq, List.append_assoc], ?_⟩
    intro event hmem hthread
    rcases List.mem_append.mp hmem with hmem | hmem
    · exact hnew event hmem hthread
    · exact hnew' event hmem hthread

theorem Bystander.isComplete (h : Bystander u s s') (hu : s.isComplete u = true) :
    s'.isComplete u = true := by
  unfold TSOExecution.isComplete at hu ⊢
  cases ht : s.threads[u]? with
  | none => simp [ht] at hu
  | some t =>
    obtain ⟨n, hn⟩ := h.thread t ht
    rw [hn]
    simpa [ht] using hu

theorem Bystander.modify (f : TSOThread → TSOThread) (hu : u ≠ tid) :
    Bystander u s (s.modify tid f) where
  thread t ht := ⟨0, by rw [getElem?_modify, if_neg (Ne.symm hu), ht]; rfl⟩
  events := ⟨[], (List.append_nil _).symm, by simp⟩

theorem Bystander.doStore (s : TSOExecution) (tid u : Nat) : Bystander u s (s.doStore tid) := by
  unfold TSOExecution.doStore
  cases hbuffer : s.storebuffer tid with
  | nil => exact .of_same rfl rfl
  | cons epval rest =>
    refine ⟨fun t ht => ?_, [.commit tid epval], rfl, ?_⟩
    · by_cases hu : tid = u
      · subst hu
        rw [storebuffer_of_thread ht] at hbuffer
        refine ⟨1, (getElem?_modify s tid tid _).trans ?_⟩
        rw [if_pos rfl, ht, hbuffer]
        rfl
      · exact ⟨0, (getElem?_modify s tid u _).trans (by rw [if_neg hu, ht]; rfl)⟩
    · intro event hmem hthread
      obtain rfl := List.mem_singleton.mp hmem
      exact ⟨epval, by rw [← hthread]; rfl⟩

/-! ## `check_preempt` -/

theorem checkThread_threads {passes : Bool}
    (h : s.checkThread schedule tid t = some (passes, s')) : s'.threads = s.threads := by
  obtain ⟨⟨b, n⟩, -, heq⟩ := Option.map_eq_some_iff.mp h
  obtain ⟨-, rfl⟩ := Prod.mk.inj heq
  rfl

theorem checkStoreBuffer_threads {first : StoreValue} {passes : Bool}
    (h : s.checkStoreBuffer schedule tid first = some (passes, s')) : s'.threads = s.threads := by
  obtain ⟨⟨b, n⟩, -, heq⟩ := Option.map_eq_some_iff.mp h
  obtain ⟨-, rfl⟩ := Prod.mk.inj heq
  rfl

/-- The search keeps the threads, and one that it finds has not finished. -/
theorem search_threads {n : Nat} {turn : Bool} {found : Found}
    (h : s.search schedule n tid turn = some (found, s')) : s'.threads = s.threads ∧
      ∀ next, found = .thread next → ∃ t, s.threads[next]? = some t ∧ t.complete = false := by
  induction n generalizing s tid turn with
  | zero =>
    obtain ⟨rfl, rfl⟩ := Prod.mk.inj (Option.some.inj h)
    exact ⟨rfl, fun _ hfound => by cases hfound⟩
  | succ n ih =>
    cases turn with
    | true =>
      rw [search] at h
      split at h
      · exact ih h
      · split at h
        · cases h
        · rename_i s₁ hcheck
          obtain ⟨rfl, rfl⟩ := Prod.mk.inj (Option.some.inj h)
          exact ⟨checkStoreBuffer_threads hcheck, fun _ hfound => by cases hfound⟩
        · rename_i s₁ hcheck
          rw [← checkStoreBuffer_threads hcheck]
          exact ih h
    | false =>
      rw [search] at h
      split at h
      · cases h
      · rename_i t ht
        split at h
        · exact ih h
        · rename_i hcomplete
          split at h
          · cases h
          · rename_i s₁ hcheck
            obtain ⟨rfl, rfl⟩ := Prod.mk.inj (Option.some.inj h)
            refine ⟨checkThread_threads hcheck, fun next hfound => ?_⟩
            obtain rfl := Found.thread.inj hfound
            exact ⟨t, ht, by simpa using hcomplete⟩
          · rename_i s₁ hcheck
            rw [← checkThread_threads hcheck]
            exact ih h

def Alive (s : TSOExecution) (u : Nat) : Prop := u < s.threads.length ∧ s.isComplete u = false

theorem alive_of_thread (ht : s.threads[tid]? = some t) (hcomplete : t.complete = false) :
    s.Alive tid := by
  refine ⟨(List.getElem?_eq_some_iff.mp ht).1, ?_⟩
  unfold isComplete
  rw [ht]
  exact hcomplete

theorem isComplete_congr (h : s'.threads = s.threads) : s'.isComplete = s.isComplete := by
  funext u
  unfold isComplete
  rw [h]

theorem isComplete_modify (s : TSOExecution) (tid : Nat) {f : TSOThread → TSOThread}
    (hf : ∀ t, (f t).complete = t.complete) : (s.modify tid f).isComplete = s.isComplete := by
  funext u
  unfold isComplete
  rw [getElem?_modify]
  split_ifs with hu
  · cases s.threads[u]? with
    | none => rfl
    | some t => exact hf t
  · rfl

theorem length_modify (s : TSOExecution) (tid : Nat) (f : TSOThread → TSOThread) :
    (s.modify tid f).threads.length = s.threads.length :=
  List.length_modify _ _ _

theorem doStore_threads (s : TSOExecution) (tid : Nat) :
    (s.doStore tid).threads.length = s.threads.length ∧
      (s.doStore tid).isComplete = s.isComplete ∧ (s.doStore tid).current = s.current := by
  unfold doStore
  cases s.storebuffer tid with
  | nil => exact ⟨rfl, rfl, rfl⟩
  | cons epval rest =>
    exact ⟨length_modify s tid _,
      (isComplete_congr rfl).trans (isComplete_modify s tid fun _ => rfl), rfl⟩

/-- What `check_preempt` does when the thread calls it. -/
structure Preempted (tid : Nat) (s s' : TSOExecution) : Prop where
  bystander : ∀ u, Bystander u s s'
  length : s'.threads.length = s.threads.length
  isComplete : s'.isComplete = s.isComplete
  next : ∀ u, s'.current = some u → s'.Alive u
  idle : s'.current = none → s.isComplete tid = true

theorem Preempted.of_search {next : Option Nat} (hthreads : s'.threads = s.threads)
    (hevents : s'.events = s.events) (hnext : ∀ u, next = some u → s.Alive u)
    (hidle : next = none → s.isComplete tid = true) :
    Preempted tid s { s' with current := next } where
  bystander u := .of_same hthreads hevents
  length := congrArg List.length hthreads
  isComplete := isComplete_congr hthreads
  next u hu := by
    obtain ⟨hlt, hcomplete⟩ := hnext u hu
    exact ⟨hthreads ▸ hlt, (congrFun (isComplete_congr hthreads) u).trans hcomplete⟩
  idle := hidle

private theorem preempted_nothing {n : Nat} {turn : Bool} (htid : tid < s.threads.length)
    (h : s.search schedule n tid turn = some (.nothing, s')) :
    Preempted tid s { s' with current := if s'.isComplete tid then none else some tid } := by
  have hthreads := (search_threads h).1
  rw [isComplete_congr hthreads]
  refine .of_search hthreads (search_spec h).1.events (fun u hu => ?_) fun hidle => ?_
  · split_ifs at hu with hcomplete
    obtain rfl := Option.some.inj hu
    exact ⟨htid, by simpa using hcomplete⟩
  · by_contra hcomplete
    rw [if_neg hcomplete] at hidle
    cases hidle

private theorem preempted_thread {n next : Nat} {turn : Bool}
    (h : s.search schedule n tid turn = some (.thread next, s')) :
    Preempted tid s { s' with current := some next } := by
  obtain ⟨hthreads, hnext⟩ := search_threads h
  refine .of_search hthreads (search_spec h).1.events (fun u hu => ?_) fun hidle => by cases hidle
  obtain rfl := Option.some.inj hu
  obtain ⟨t, ht, hcomplete⟩ := hnext next rfl
  exact alive_of_thread ht hcomplete

theorem checkPreempt_spec {n : Nat} (htid : tid < s.threads.length)
    (h : s.checkPreempt schedule tid n = some s') : Preempted tid s s' := by
  induction n generalizing s with
  | zero =>
    rw [checkPreempt] at h
    split at h
    · cases h
    · rename_i s₁ hsearch
      obtain rfl := Option.some.inj h
      exact preempted_nothing htid hsearch
    · rename_i next s₁ hsearch
      obtain rfl := Option.some.inj h
      exact preempted_thread hsearch
    · cases h
  | succ n ih =>
    rw [checkPreempt] at h
    split at h
    · cases h
    · rename_i s₁ hsearch
      obtain rfl := Option.some.inj h
      exact preempted_nothing htid hsearch
    · rename_i next s₁ hsearch
      obtain rfl := Option.some.inj h
      exact preempted_thread hsearch
    · rename_i from_ s₁ hsearch
      obtain ⟨hthreads, -⟩ := search_threads hsearch
      have hsame := (search_spec hsearch).1
      obtain ⟨hlength, hcomplete, -⟩ := doStore_threads s₁ from_
      have hrest := ih (by rw [hlength, hthreads]; exact htid) h
      have hcomplete' := hcomplete.trans (isComplete_congr hthreads)
      exact {
        bystander := fun u => ((Bystander.of_same hthreads hsame.events).trans
          (.doStore s₁ from_ u)).trans (hrest.bystander u)
        length := hrest.length.trans (hlength.trans (congrArg List.length hthreads))
        isComplete := hrest.isComplete.trans hcomplete'
        next := hrest.next
        idle := fun hcurrent => (congrFun hcomplete' tid).symm.trans (hrest.idle hcurrent) }

/-! ## Steps -/

/-- What the thread does without `check_preempt`. -/
structure Own (tid : Nat) (s s' : TSOExecution) : Prop where
  current : s'.current = s.current
  bystander : ∀ u, u ≠ tid → Bystander u s s'
  length : s.threads.length ≤ s'.threads.length
  isComplete : s'.isComplete = s.isComplete

theorem Own.trans (h : Own tid s s') (h' : Own tid s' s'') : Own tid s s'' where
  current := h'.current.trans h.current
  bystander u hu := (h.bystander u hu).trans (h'.bystander u hu)
  length := h.length.trans h'.length
  isComplete := h'.isComplete.trans h.isComplete

theorem Own.of_modify {f : TSOThread → TSOThread} (hf : ∀ t, (f t).complete = t.complete)
    (hcurrent : s'.current = s.current) (hthreads : s'.threads = (s.modify tid f).threads)
    {new : List (BufferEvent Nat StoreValue ReadResult)} (hevents : s'.events = s.events ++ new)
    (hnew : ∀ event ∈ new, event.thread = tid) : Own tid s s' where
  current := hcurrent
  bystander u hu := by
    refine ⟨fun t ht => ⟨0, ?_⟩, new, hevents, fun event hmem hthread => ?_⟩
    · rw [hthreads, getElem?_modify, if_neg (Ne.symm hu), ht]
      rfl
    · exact absurd (hthread.symm.trans (hnew event hmem)) hu
  length := by rw [hthreads, length_modify]
  isComplete := (isComplete_congr hthreads).trans (isComplete_modify s tid hf)

theorem Own.modify {f : TSOThread → TSOThread} (hf : ∀ t, (f t).complete = t.complete) :
    Own tid s (s.modify tid f) :=
  .of_modify hf rfl rfl (List.append_nil _).symm (by simp)

theorem Own.incrementTop (s : TSOExecution) (tid : Nat) : Own tid s (s.incrementTop tid) :=
  .modify fun _ => rfl

theorem Own.doStores (n : Nat) (s : TSOExecution) (tid : Nat) : Own tid s (s.doStores tid n) := by
  induction n generalizing s with
  | zero => exact ⟨rfl, fun u _ => .of_same rfl rfl, le_rfl, rfl⟩
  | succ n ih =>
    obtain ⟨hlength, hcomplete, hcurrent⟩ := doStore_threads s tid
    have hone : Own tid s (s.doStore tid) :=
      ⟨hcurrent, fun u _ => .doStore s tid u, hlength.ge, hcomplete⟩
    exact hone.trans (ih (s.doStore tid))

theorem Own.rmw (t : TSOThread) (op : AtomicOp) (addr : Nat) (len : StoreBuffer.AccessLen)
    (oldval valarg : UInt64) : Own tid s (s.rmw tid t op addr len oldval valarg) := by
  unfold TSOExecution.rmw
  dsimp only
  split_ifs
  · exact .of_modify (f := fun t => { t with execpoint := t.execpoint.incrementTop })
      (fun _ => rfl) rfl rfl rfl (by simp [BufferEvent.thread])
  · exact .of_modify (f := fun t => { t with execpoint := t.execpoint.incrementTop })
      (fun _ => rfl) rfl rfl (List.append_assoc _ _ _) (by simp [BufferEvent.thread])

theorem Own.threadCreate (s : TSOExecution) (tid : Nat) (t : TSOThread)
    (ht : t.complete = false) : Own tid s { s with threads := s.threads ++ [t] } where
  current := rfl
  bystander u _ := by
    refine ⟨fun t' ht' => ⟨0, ?_⟩, [], (List.append_nil _).symm, by simp⟩
    rw [List.getElem?_append_left (List.getElem?_eq_some_iff.mp ht').1, ht']
    rfl
  length := by simp
  isComplete := by
    funext u
    unfold TSOExecution.isComplete
    simp only
    rcases lt_trichotomy u s.threads.length with hu | rfl | hu
    · rw [List.getElem?_append_left hu]
    · simp [ht]
    · rw [List.getElem?_eq_none (by simp; omega), List.getElem?_eq_none (by omega)]

def joins (s : TSOExecution) (c : TSOCall) : Option Nat :=
  match s.current.bind fun tid => s.threads[tid]? with
  | none => none
  | some t =>
      match t.pending, c with
      | some (.join target), _ | none, .threadJoin target => some target
      | _, _ => none

/-- The step calls `check_preempt`. -/
def preempts (s : TSOExecution) (c : TSOCall) : Bool :=
  match s.joins c with
  | some target => !s.isComplete target
  | none =>
      match s.current.bind fun tid => s.threads[tid]? with
      | some t => t.pending.isNone && match c with
        | .load .. | .rmw .. | .fence | .threadFinish => true
        | _ => false
      | none => false

/-- A step calls `check_preempt` or is one of the running thread alone. -/
inductive StepCases (schedule : Schedule) (s : TSOExecution) (tid : Nat) (t : TSOThread)
    (s' : TSOExecution) : Bool → Prop
  | preempt (f : TSOThread → TSOThread) (hbuffer : ∀ t, (f t).storebuffer = t.storebuffer)
      (hpoint : ∀ t, (f t).execpoint = t.execpoint)
      (hcomplete : ∀ t, t.complete = true → (f t).complete = true)
      (h : (s.modify tid f).preempt schedule tid = some s') : StepCases schedule s tid t s' true
  | own (h : Own tid s s') : StepCases schedule s tid t s' false

private theorem modify_modify (s : TSOExecution) (tid : Nat) (f g : TSOThread → TSOThread) :
    (s.modify tid f).modify tid g = s.modify tid (g ∘ f) := by
  unfold modify
  rw [List.modify_modify_eq]

theorem stepCases_park {f : TSOThread → TSOThread} {pending : Pending}
    (hbuffer : ∀ t, (f t).storebuffer = t.storebuffer)
    (hpoint : ∀ t, (f t).execpoint = t.execpoint) (hcomplete : ∀ t, (f t).complete = t.complete)
    (h : (s.modify tid f).park schedule tid pending = some s') :
    StepCases schedule s tid t s' true := by
  unfold park at h
  rw [modify_modify] at h
  exact .preempt (fun t => { f t with pending := some pending }) hbuffer hpoint
    (fun t ht => (hcomplete t).trans ht) h

theorem stepCases_join {target : Nat} {f : TSOThread → TSOThread}
    (hbuffer : ∀ t, (f t).storebuffer = t.storebuffer)
    (hpoint : ∀ t, (f t).execpoint = t.execpoint) (hcomplete : ∀ t, (f t).complete = t.complete)
    (h : (if (s.modify tid f).isComplete target then some ((s.modify tid f).incrementTop tid)
      else (s.modify tid f).park schedule tid (.join target)) = some s') :
    StepCases schedule s tid t s' !s.isComplete target := by
  rw [isComplete_modify s tid hcomplete] at h
  cases htarget : s.isComplete target with
  | true =>
    rw [htarget, if_pos rfl] at h
    obtain rfl := Option.some.inj h
    exact .own ((Own.modify hcomplete).trans (.incrementTop _ tid))
  | false =>
    rw [htarget, if_neg Bool.false_ne_true] at h
    exact stepCases_park hbuffer hpoint hcomplete h

theorem stepCases_resume {pending : Pending} (hpending : t.pending = some pending)
    (hrunning : (s.current.bind fun tid => s.threads[tid]?) = some t) {c : TSOCall}
    (h : s.resume schedule tid t pending = some s') :
    StepCases schedule s tid t s' (s.preempts c) := by
  have hown : Own tid s (s.modify tid fun t => { t with pending := none }) := .modify fun _ => rfl
  unfold preempts joins
  simp only [hrunning, hpending]
  cases pending with
  | load addr len =>
    obtain rfl := Option.some.inj h
    exact .own (hown.trans (.of_modify (f := fun t =>
      { t with execpoint := t.execpoint.incrementTop }) (fun _ => rfl) rfl rfl rfl
      (by simp [BufferEvent.thread])))
  | rmw op addr len oldval valarg =>
    obtain rfl := Option.some.inj h
    exact .own (hown.trans (.rmw t op addr len oldval valarg))
  | fence =>
    obtain rfl := Option.some.inj h
    exact .own ((hown.trans (.incrementTop _ tid)).trans (.doStores _ _ tid))
  | join target =>
    exact stepCases_join (f := fun t => { t with pending := none }) (fun _ => rfl) (fun _ => rfl)
      (fun _ => rfl) h

theorem stepCases_call (hpending : t.pending = none)
    (hrunning : (s.current.bind fun tid => s.threads[tid]?) = some t) {c : TSOCall}
    (h : s.call schedule tid t c = some s') : StepCases schedule s tid t s' (s.preempts c) := by
  have hid : s.modify tid id = s := by
    unfold modify
    rw [List.modify_id]
  have hpark : ∀ {pending}, s.park schedule tid pending = some s' →
      StepCases schedule s tid t s' true := by
    intro pending hpark
    exact stepCases_park (f := id) (fun _ => rfl) (fun _ => rfl) (fun _ => rfl) (by rwa [hid])
  unfold preempts joins
  simp only [hrunning, hpending]
  cases c with
  | load addr len => exact hpark h
  | rmw op addr len oldval valarg => exact hpark h
  | fence => exact hpark h
  | store addr val len =>
    obtain rfl := Option.some.inj h
    exact .own (.of_modify (f := fun t' => { t' with
      storebuffer := t'.storebuffer ++ [⟨.new addr val len, t.execpoint⟩]
      execpoint := t'.execpoint.incrementTop }) (fun _ => rfl) rfl rfl rfl
      (by simp [BufferEvent.thread]))
  | threadCreate =>
    obtain rfl := Option.some.inj h
    exact .own ((Own.incrementTop s tid).trans (.threadCreate (s.incrementTop tid) tid
      ⟨.start (s.incrementTop tid).threads.length, [], none, false⟩ rfl))
  | threadJoin target =>
    exact stepCases_join (f := id) (fun _ => rfl) (fun _ => rfl) (fun _ => rfl) (by rwa [hid])
  | threadFinish =>
    exact .preempt (fun t => { t with complete := true }) (fun _ => rfl) (fun _ => rfl)
      (fun _ _ => rfl) h
  | annotate execpoint =>
    obtain rfl := Option.some.inj h
    exact .own (.modify (f := fun t => { t with execpoint := execpoint }) fun _ => rfl)
  | setNewFlag =>
    obtain rfl := Option.some.inj h
    exact .own ⟨rfl, fun _ _ => .of_same rfl rfl, le_rfl, isComplete_congr rfl⟩

theorem step_cases {c : TSOCall} (h : s.step schedule c = some s') :
    ∃ tid t, s.current = some tid ∧ s.threads[tid]? = some t ∧
      StepCases schedule s tid t s' (s.preempts c) := by
  unfold step at h
  split at h
  · cases h
  · rename_i tid hcurrent
    split at h
    · cases h
    · rename_i t ht
      refine ⟨tid, t, hcurrent, ht, ?_⟩
      have hrunning : (s.current.bind fun tid => s.threads[tid]?) = some t := by
        rw [hcurrent]
        exact ht
      split at h
      · rename_i pending hpending
        exact stepCases_resume hpending hrunning h
      · rename_i hpending
        exact stepCases_call hpending hrunning h

theorem step_bystander {c : TSOCall} (h : s.step schedule c = some s')
    (hu : s.current ≠ some u) : Bystander u s s' := by
  obtain ⟨tid, t, hcurrent, ht, hcases⟩ := step_cases h
  have hne : u ≠ tid := fun heq => hu (heq ▸ hcurrent)
  generalize s.preempts c = preempts at hcases
  cases hcases with
  | preempt f _ _ _ h =>
    have htid : tid < (s.modify tid f).threads.length := by
      rw [length_modify]
      exact (List.getElem?_eq_some_iff.mp ht).1
    exact (Bystander.modify f hne).trans ((checkPreempt_spec htid h).bystander u)
  | own h => exact h.bystander u hne

theorem step_alive {c : TSOCall} (h : s.step schedule c = some s')
    (hs : ∀ u, s.current = some u → s.Alive u) (hu : s'.current = some u) : s'.Alive u := by
  obtain ⟨tid, t, hcurrent, ht, hcases⟩ := step_cases h
  generalize s.preempts c = preempts at hcases
  cases hcases with
  | preempt f _ _ _ h =>
    have htid : tid < (s.modify tid f).threads.length := by
      rw [length_modify]
      exact (List.getElem?_eq_some_iff.mp ht).1
    exact (checkPreempt_spec htid h).next u hu
  | own h =>
    obtain ⟨hlt, hcomplete⟩ := hs u (h.current ▸ hu)
    exact ⟨hlt.trans_le h.length, (congrFun h.isComplete u).trans hcomplete⟩

theorem Reachable.alive {memory : Memory} (h : Reachable schedule memory s)
    (hu : s.current = some u) : s.Alive u := by
  induction h generalizing u with
  | start =>
    obtain rfl := Option.some.inj hu
    exact ⟨Nat.zero_lt_one, rfl⟩
  | step _ c hstep ih => exact step_alive hstep (fun _ => ih) hu

theorem run_finished {memory : Memory} {calls : List TSOCall} (h : Reachable schedule memory s)
    (hu : s.isComplete u = true) (hrun : s.run schedule calls = some s') : Bystander u s s' := by
  induction calls generalizing s with
  | nil =>
    obtain rfl := Option.some.inj hrun
    exact .of_same rfl rfl
  | cons c cs ih =>
    obtain ⟨s₁, hstep, hrun⟩ := Option.bind_eq_some_iff.mp hrun
    have hne : s.current ≠ some u := by
      intro hcurrent
      rw [(h.alive hcurrent).2] at hu
      cases hu
    have hone := step_bystander hstep hne
    exact hone.trans (ih (h.step c hstep) (hone.isComplete hu) hrun)

/-- A thread that goes on from a join finds the other thread finished: from then on the other one
makes no call, and only its pending stores are still committed. -/
theorem join_finished {schedule : Schedule} {memory : Memory} {s s₁ s₂ : TSOExecution}
    {c : TSOCall} {calls : List TSOCall} {tid target : Nat} {t t₁ : TSOThread}
    (h : Reachable schedule memory s) (hcurrent : s.current = some tid)
    (ht : s.threads[tid]? = some t) (hjoin : s.joins c = some target)
    (hstep : s.step schedule c = some s₁) (ht₁ : s₁.threads[tid]? = some t₁)
    (hpassed : t₁.execpoint ≠ t.execpoint) (hrun : s₁.run schedule calls = some s₂) :
    s₂.isComplete target = true ∧ Bystander target s₁ s₂ := by
  obtain ⟨tid', t', hcurrent', ht', hcases⟩ := step_cases hstep
  obtain rfl := Option.some.inj (hcurrent.symm.trans hcurrent')
  obtain rfl := Option.some.inj (ht.symm.trans ht')
  have hcomplete : s₁.isComplete target = true := by
    generalize hpreempts : s.preempts c = preempts at hcases
    cases hcases with
    | preempt f _ hpoint _ hpreempt =>
      have htid : tid < (s.modify tid f).threads.length := by
        rw [length_modify]
        exact (List.getElem?_eq_some_iff.mp ht).1
      have hmodify : (s.modify tid f).threads[tid]? = some (f t) := by
        rw [getElem?_modify, if_pos rfl, ht]
        rfl
      obtain ⟨n, hn⟩ := ((checkPreempt_spec htid hpreempt).bystander tid).thread _ hmodify
      obtain rfl := Option.some.inj (ht₁.symm.trans hn)
      exact absurd (hpoint t) hpassed
    | own hown =>
      rw [hown.isComplete]
      unfold preempts at hpreempts
      rw [hjoin] at hpreempts
      simpa using hpreempts
  have hbystander := run_finished (h.step c hstep) hcomplete hrun
  exact ⟨hbystander.isComplete hcomplete, hbystander⟩

/-- The main thread waits for a thread that finishes at once. -/
theorem join_finished_main : ∃ s s₁ s₂ : TSOExecution,
    (start fun _ => 0).run emptySchedule [.threadCreate, .threadJoin 1, .threadFinish] = some s ∧
    s.step emptySchedule .fence = some s₁ ∧
    s₁.run emptySchedule [.store 0 1 .one, .threadFinish] = some s₂ ∧
    s₂.isComplete 1 = true ∧ Bystander 1 s₁ s₂ := by
  obtain ⟨s, s₁, s₂, t, t₁, hrun, hstep, hrun', hcurrent, ht, ht₁, hjoin, hpassed⟩ :
      ∃ (s s₁ s₂ : TSOExecution) (t t₁ : TSOThread),
      (start fun _ => 0).run emptySchedule [.threadCreate, .threadJoin 1, .threadFinish] =
        some s ∧
      s.step emptySchedule .fence = some s₁ ∧
      s₁.run emptySchedule [.store 0 1 .one, .threadFinish] = some s₂ ∧ s.current = some 0 ∧
      s.threads[0]? = some t ∧ s₁.threads[0]? = some t₁ ∧ s.joins .fence = some 1 ∧
      t₁.execpoint ≠ t.execpoint :=
    ⟨_, _, _, _, _, rfl, rfl, rfl, rfl, rfl, rfl, rfl, by decide⟩
  exact ⟨s, s₁, s₂, hrun, hstep, hrun', join_finished (Reachable.start.run hrun) hcurrent ht hjoin
    hstep ht₁ hpassed hrun'⟩

/-! ## `check_preempt` returns -/

def Schedule.WaitsExist (schedule : Schedule) (numThreads : Nat) : Prop :=
  ∀ tid, ∀ wp ∈ schedule.waitset tid ++ schedule.storeset tid, wp.wait.tid < numThreads

theorem checkSet_returns {wps : List WaitPair}
    (hwait : ∀ wp ∈ wps, wp.wait.tid < s.threads.length) (current : ExecPoint) :
    ∃ result, s.checkSet schedule current wps = some result := by
  induction wps with
  | nil => exact ⟨_, rfl⟩
  | cons wp wps ih =>
    obtain ⟨rest, hrest⟩ := ih fun wp hwp => hwait wp (List.mem_cons_of_mem _ hwp)
    have ht := List.getElem?_eq_getElem (hwait wp List.mem_cons_self)
    rw [checkSet, hrest, ht]
    -- only a missing thread is an error
    simp only [Option.map_some]
    repeat' split
    all_goals exact ⟨_, rfl⟩

theorem mem_of_pairsAhead {set : List WaitPair} {setindex : Nat} {wp : WaitPair}
    (h : wp ∈ s.pairsAhead set setindex) : wp ∈ set := by
  unfold pairsAhead at h
  split_ifs at h
  · cases h
  · exact List.mem_of_mem_drop h

private theorem checkThread_returns (hwait : schedule.WaitsExist s.threads.length) (tid : Nat)
    (t : TSOThread) : ∃ passes s', s.checkThread schedule tid t = some (passes, s') := by
  obtain ⟨result, h⟩ : ∃ result, s.checkSet schedule t.execpoint
      (s.pairsAhead (schedule.waitset tid) (s.waitsetindex tid)) = some result :=
    checkSet_returns
      (fun wp hwp => hwait tid wp (List.mem_append_left _ (mem_of_pairsAhead hwp))) _
  exact ⟨_, _, congrArg (Option.map _) h⟩

private theorem checkStoreBuffer_returns (hwait : schedule.WaitsExist s.threads.length) (tid : Nat)
    (first : StoreValue) :
    ∃ passes s', s.checkStoreBuffer schedule tid first = some (passes, s') := by
  obtain ⟨result, h⟩ : ∃ result, s.checkSet schedule first.ep
      (s.pairsAhead (schedule.storeset tid) (s.storesetindex tid)) = some result :=
    checkSet_returns
      (fun wp hwp => hwait tid wp (List.mem_append_right _ (mem_of_pairsAhead hwp))) _
  exact ⟨_, _, congrArg (Option.map _) h⟩

theorem search_returns (hwait : schedule.WaitsExist s.threads.length)
    (htid : tid < s.threads.length) (n : Nat) (turn : Bool) :
    ∃ found s', s.search schedule n tid turn = some (found, s') := by
  induction n generalizing s tid turn with
  | zero => exact ⟨_, _, rfl⟩
  | succ n ih =>
    cases turn with
    | true =>
      have hnext : (tid + 1) % s.threads.length < s.threads.length :=
        Nat.mod_lt _ (Nat.zero_lt_of_lt htid)
      rw [search]
      cases s.storebuffer tid with
      | nil => exact ih hwait hnext false
      | cons first rest =>
        obtain ⟨passes, s₁, hcheck⟩ := checkStoreBuffer_returns hwait tid first
        simp only [hcheck]
        have hthreads := checkStoreBuffer_threads hcheck
        cases passes with
        | true => exact ⟨_, _, rfl⟩
        | false => exact ih (by rwa [hthreads]) (by rwa [hthreads]) false
    | false =>
      rw [search, List.getElem?_eq_getElem htid]
      simp only
      split_ifs
      · exact ih hwait htid true
      · obtain ⟨passes, s₁, hcheck⟩ := checkThread_returns hwait tid s.threads[tid]
        simp only [hcheck]
        have hthreads := checkThread_threads hcheck
        cases passes with
        | true => exact ⟨_, _, rfl⟩
        | false => exact ih (by rwa [hthreads]) (by rwa [hthreads]) true

private theorem sum_modify {α : Type*} {f : α → α} {g : α → Nat} {x : α} (hx : g (f x) + 1 = g x)
    {l : List α} {i : Nat} (h : l[i]? = some x) :
    ((l.modify i f).map g).sum + 1 = (l.map g).sum := by
  induction l generalizing i with
  | nil => cases h
  | cons y ys ih =>
    cases i with
    | zero =>
      obtain rfl := Option.some.inj h
      simp only [List.modify_zero_cons, List.map_cons, List.sum_cons]
      omega
    | succ i =>
      have hrest := ih h
      simp only [List.modify_succ_cons, List.map_cons, List.sum_cons]
      omega

theorem length_storebuffer_le (s : TSOExecution) (tid : Nat) :
    (s.storebuffer tid).length ≤ s.numStores := by
  unfold storebuffer numStores
  cases ht : s.threads[tid]? with
  | none => simp
  | some t =>
    have hmem : t.storebuffer.length ∈ s.threads.map fun t => t.storebuffer.length :=
      List.mem_map_of_mem (List.mem_of_getElem? ht)
    exact List.single_le_sum (fun _ _ => Nat.zero_le _) _ hmem

private theorem numStores_doStore (h : s.storebuffer tid ≠ []) :
    (s.doStore tid).numStores + 1 = s.numStores := by
  obtain ⟨epval, rest, hbuffer⟩ := List.exists_cons_of_ne_nil h
  obtain ⟨t, ht⟩ := exists_thread hbuffer
  unfold doStore
  simp only [hbuffer]
  rw [storebuffer_of_thread ht] at hbuffer
  exact sum_modify (by simp [hbuffer]) ht

/-- Every search that starts again has committed a store, so that there are enough of them. -/
private theorem checkPreempt_returns {n : Nat} (hwait : schedule.WaitsExist s.threads.length)
    (htid : tid < s.threads.length) (hn : s.numStores ≤ n) :
    ∃ s', s.checkPreempt schedule tid n = some s' := by
  induction n generalizing s with
  | zero =>
    obtain ⟨found, s₁, hsearch⟩ := search_returns hwait htid (2 * s.threads.length) true
    rw [checkPreempt, hsearch]
    cases found with
    | nothing => exact ⟨_, rfl⟩
    | thread next => exact ⟨_, rfl⟩
    | store from_ =>
      obtain ⟨hsame, hstore⟩ := search_spec hsearch
      have hnonempty := hstore from_ rfl
      have hlength := length_storebuffer_le s from_
      rw [hsame.storebuffer] at hnonempty
      have := List.length_pos_of_ne_nil hnonempty
      omega
  | succ n ih =>
    obtain ⟨found, s₁, hsearch⟩ := search_returns hwait htid (2 * s.threads.length) true
    rw [checkPreempt, hsearch]
    cases found with
    | nothing => exact ⟨_, rfl⟩
    | thread next => exact ⟨_, rfl⟩
    | store from_ =>
      have hthreads := (search_threads hsearch).1
      have hlength := (doStore_threads s₁ from_).1.trans (congrArg List.length hthreads)
      have hnum := numStores_doStore ((search_spec hsearch).2 from_ rfl)
      have hnum' : s₁.numStores = s.numStores := by
        unfold numStores
        rw [hthreads]
      exact ih (by rwa [hlength]) (by rwa [hlength]) (by omega)

theorem preempt_returns (hwait : schedule.WaitsExist s.threads.length)
    (htid : tid < s.threads.length) : ∃ s', s.preempt schedule tid = some s' :=
  checkPreempt_returns hwait htid le_rfl

private theorem park_returns (hwait : schedule.WaitsExist s.threads.length)
    (htid : tid < s.threads.length) (pending : Pending) :
    ∃ s', s.park schedule tid pending = some s' :=
  preempt_returns (by rwa [length_modify]) (by rwa [length_modify])

/-- An execution goes on until there is no thread to run: `check_preempt` always returns, with the
stores that it may commit one after the other, and hands over to a thread that has not finished. -/
theorem step_returns {schedule : Schedule} {memory : Memory} {s : TSOExecution}
    (h : Reachable schedule memory s) (hwait : schedule.WaitsExist s.threads.length)
    (hrunning : s.current ≠ none) (c : TSOCall) :
    ∃ s', s.step schedule c = some s' ∧ ∀ u, s'.current = some u → s'.Alive u := by
  obtain ⟨tid, hcurrent⟩ := Option.ne_none_iff_exists'.mp hrunning
  have htid := (h.alive hcurrent).1
  have ht := List.getElem?_eq_getElem htid
  obtain ⟨s', hstep⟩ : ∃ s', s.step schedule c = some s' := by
    unfold step
    simp only [hcurrent, ht]
    have hlength := length_modify s tid
    cases hpending : s.threads[tid].pending with
    | some pending =>
      cases pending with
      | load addr len => exact ⟨_, rfl⟩
      | rmw op addr len oldval valarg => exact ⟨_, rfl⟩
      | fence => exact ⟨_, rfl⟩
      | join target =>
        simp only [resume]
        split_ifs
        · exact ⟨_, rfl⟩
        · exact park_returns (by rwa [hlength]) (by rwa [hlength]) _
    | none =>
      cases c with
      | load addr len => exact park_returns hwait htid _
      | rmw op addr len oldval valarg => exact park_returns hwait htid _
      | fence => exact park_returns hwait htid _
      | store addr val len => exact ⟨_, rfl⟩
      | threadCreate => exact ⟨_, rfl⟩
      | threadJoin target =>
        simp only [call]
        split_ifs
        · exact ⟨_, rfl⟩
        · exact park_returns hwait htid _
      | threadFinish => exact preempt_returns (by rwa [hlength]) (by rwa [hlength])
      | annotate execpoint => exact ⟨_, rfl⟩
      | setNewFlag => exact ⟨_, rfl⟩
  exact ⟨s', hstep, fun u hu => step_alive hstep (fun _ => h.alive) hu⟩

/-- Both threads have stores that are held back. -/
theorem step_returns_buffering : ∃ s : TSOExecution,
    (start fun _ => 0).run bufferingSchedule (bufferingCalls.take 4) = some s ∧
    s.numStores = 2 ∧ ∃ s', s.step bufferingSchedule (.load 0 .one) = some s' ∧
      ∀ u, s'.current = some u → s'.Alive u := by
  obtain ⟨s, hrun, hnum, hlength, hcurrent⟩ : ∃ s : TSOExecution,
      (start fun _ => 0).run bufferingSchedule (bufferingCalls.take 4) = some s ∧
      s.numStores = 2 ∧ s.threads.length = 2 ∧ s.current ≠ none :=
    ⟨_, rfl, rfl, rfl, by decide⟩
  refine ⟨s, hrun, hnum, step_returns (Reachable.start.run hrun) ?_ hcurrent _⟩
  rw [hlength]
  intro tid wp hwp
  match tid with
  | 0 | 1 =>
    obtain rfl := List.mem_singleton.mp hwp
    decide
  | _ + 2 => cases hwp

end TSOExecution

end SatCheck
