import SatCheck.TSOExecution
/-!
# Stores under TSO

Whatever is scheduled, the stores of a thread reach the memory once and in their order.  Without
wait pairs every store has done so before another thread goes on.
-/

namespace SatCheck

namespace TSOExecution

open ByteMemory StoreBuffers

/-- The memory and the buffers as those of the general machine. -/
def semantics : Semantics Memory StoreValue ReadResult where
  apply memory epval := StoreBuffer.doStore memory epval.toBufferedStore
  reads memory buffer result := result.value =
    if result.atomic then StoreBuffer.readMemory memory result.addr result.len
    else StoreBuffer.load memory (buffer.map (·.toBufferedStore)) result.addr result.len

def buffers (s : TSOExecution) : State Memory Nat StoreValue := ⟨s.memory, s.storebuffer⟩

/-- The second execution goes on with the trace of the first one. -/
def Continues (allowed : State Memory Nat StoreValue → BufferEvent Nat StoreValue ReadResult → Prop)
    (s s' : TSOExecution) : Prop :=
  ∀ memory, Trace semantics allowed memory s.events s.buffers →
    Trace semantics allowed memory s'.events s'.buffers

variable {allowed : State Memory Nat StoreValue → BufferEvent Nat StoreValue ReadResult → Prop}
  {schedule : Schedule} {s s' s'' : TSOExecution} {tid : Nat} {t : TSOThread}

theorem Continues.trans (h : Continues allowed s s') (h' : Continues allowed s' s'') :
    Continues allowed s s'' :=
  fun memory htrace => h' memory (h memory htrace)

/-- The memory, the buffers and the events are the same. -/
structure SameStores (s s' : TSOExecution) : Prop where
  memory : s'.memory = s.memory
  storebuffer : s'.storebuffer = s.storebuffer
  events : s'.events = s.events

theorem SameStores.refl (s : TSOExecution) : SameStores s s := ⟨rfl, rfl, rfl⟩

theorem SameStores.trans (h : SameStores s s') (h' : SameStores s' s'') : SameStores s s'' :=
  ⟨h'.memory.trans h.memory, h'.storebuffer.trans h.storebuffer, h'.events.trans h.events⟩

theorem SameStores.continues (h : SameStores s s') : Continues allowed s s' := by
  intro memory htrace
  unfold buffers
  rw [h.memory, h.storebuffer, h.events]
  exact htrace

/-! ## The threads -/

theorem getElem?_modify (s : TSOExecution) (tid u : Nat) (f : TSOThread → TSOThread) :
    (s.modify tid f).threads[u]? = if tid = u then s.threads[u]?.map f else s.threads[u]? := by
  unfold modify
  rw [List.getElem?_modify]
  split_ifs with h <;> simp

theorem storebuffer_modify (s : TSOExecution) (tid : Nat) {f : TSOThread → TSOThread}
    (hf : ∀ t, (f t).storebuffer = t.storebuffer) : SameStores s (s.modify tid f) where
  memory := rfl
  storebuffer := by
    funext u
    unfold TSOExecution.storebuffer
    rw [getElem?_modify]
    split_ifs with h
    · cases s.threads[u]? with
      | none => rfl
      | some t => exact hf t
    · rfl
  events := rfl

theorem incrementTop_same (s : TSOExecution) (tid : Nat) : SameStores s (s.incrementTop tid) :=
  storebuffer_modify s tid fun _ => rfl

theorem storebuffer_update (s : TSOExecution) (ht : s.threads[tid]? = some t)
    {f : TSOThread → TSOThread} : (s.modify tid f).storebuffer =
      Function.update s.storebuffer tid (f t).storebuffer := by
  funext u
  unfold TSOExecution.storebuffer
  rw [getElem?_modify]
  by_cases hu : tid = u
  · subst hu
    simp [ht]
  · rw [if_neg hu, Function.update_of_ne (Ne.symm hu)]

theorem storebuffer_congr (h : s'.threads = s.threads) : s'.storebuffer = s.storebuffer := by
  funext u
  unfold storebuffer
  rw [h]

theorem storebuffer_of_thread (ht : s.threads[tid]? = some t) :
    s.storebuffer tid = t.storebuffer := by
  unfold storebuffer
  rw [ht]

theorem exists_thread {epval : StoreValue} {rest : List StoreValue}
    (h : s.storebuffer tid = epval :: rest) : ∃ t, s.threads[tid]? = some t := by
  unfold storebuffer at h
  cases ht : s.threads[tid]? with
  | none =>
    rw [ht] at h
    cases h
  | some t => exact ⟨t, rfl⟩

/-! ## Stores and loads -/

theorem storebuffer_doStore {epval : StoreValue} {rest : List StoreValue}
    (h : s.storebuffer tid = epval :: rest) :
    (s.doStore tid).storebuffer = Function.update s.storebuffer tid rest := by
  obtain ⟨t, ht⟩ := exists_thread h
  unfold doStore
  rw [h]
  exact (storebuffer_congr rfl).trans (storebuffer_update s ht)

theorem doStore_continues (hcommit : ∀ epval, allowed s.buffers (.commit tid epval)) :
    Continues allowed s (s.doStore tid) := by
  intro memory htrace
  cases hbuffer : s.storebuffer tid with
  | nil =>
    unfold doStore
    rwa [hbuffer]
  | cons epval rest =>
    have hstep := htrace.snoc (hcommit epval) (.commit tid epval rest hbuffer)
    unfold buffers
    rw [storebuffer_doStore hbuffer]
    unfold doStore
    rw [hbuffer]
    exact hstep

theorem doStores_continues (n : Nat)
    (hcommit : ∀ s epval, allowed s (.commit tid epval)) :
    Continues allowed s (s.doStores tid n) := by
  induction n generalizing s with
  | zero => exact fun _ htrace => htrace
  | succ n ih => exact (doStore_continues (hcommit _)).trans ih

theorem store_continues (ht : s.threads[tid]? = some t) (addr : Nat) (val : UInt64)
    (len : StoreBuffer.AccessLen) (hissue : ∀ epval, allowed s.buffers (.issue tid epval)) :
    Continues allowed s (s.store tid t addr val len) := by
  intro memory htrace
  have hstep := htrace.snoc (hissue ⟨.new addr val len, t.execpoint⟩) (.issue tid _)
  have hbuffer : (s.store tid t addr val len).storebuffer = Function.update s.storebuffer tid
      (s.storebuffer tid ++ [⟨.new addr val len, t.execpoint⟩]) := by
    rw [storebuffer_of_thread ht]
    exact (storebuffer_congr rfl).trans (storebuffer_update s ht)
  unfold buffers
  rw [hbuffer]
  exact hstep

theorem load_continues (addr : Nat) (len : StoreBuffer.AccessLen)
    (hread : ∀ result, allowed s.buffers (.read tid result)) :
    Continues allowed s (s.load tid addr len) := by
  intro memory htrace
  have hstep := htrace.snoc (hread ⟨addr, len, StoreBuffer.load s.memory
    ((s.storebuffer tid).map StoreValue.toBufferedStore) addr len, false⟩) (.read tid _ rfl)
  have hbuffer : (s.load tid addr len).storebuffer = s.storebuffer :=
    (storebuffer_congr rfl).trans (incrementTop_same s tid).storebuffer
  unfold buffers
  rw [hbuffer]
  exact hstep

theorem rmw_continues (op : AtomicOp) (addr : Nat) (len : StoreBuffer.AccessLen)
    (oldval valarg : UInt64) (hread : ∀ result, allowed s.buffers (.read tid result))
    (hupdate : ∀ epval, allowed s.buffers (.update tid epval)) :
    Continues allowed s (s.rmw tid t op addr len oldval valarg) := by
  intro memory htrace
  have hread' := htrace.snoc (hread ⟨addr, len, StoreBuffer.readMemory s.memory addr len, true⟩)
    (.read tid _ rfl)
  have hbuffer : (s.rmw tid t op addr len oldval valarg).storebuffer = s.storebuffer := by
    rw [← (incrementTop_same s tid).storebuffer]
    apply storebuffer_congr
    unfold rmw
    dsimp only
    split_ifs <;> rfl
  unfold buffers
  rw [hbuffer]
  unfold rmw
  dsimp only
  split_ifs
  · exact hread'
  · exact hread'.snoc (hupdate _) (.update tid _)

/-! ## Scheduling -/

theorem checkThread_same {passes : Bool} (h : s.checkThread schedule tid t = some (passes, s')) :
    SameStores s s' := by
  obtain ⟨⟨b, n⟩, -, heq⟩ := Option.map_eq_some_iff.mp h
  obtain ⟨-, rfl⟩ := Prod.mk.inj heq
  exact ⟨rfl, rfl, rfl⟩

theorem checkStoreBuffer_same {first : StoreValue} {passes : Bool}
    (h : s.checkStoreBuffer schedule tid first = some (passes, s')) : SameStores s s' := by
  obtain ⟨⟨b, n⟩, -, heq⟩ := Option.map_eq_some_iff.mp h
  obtain ⟨-, rfl⟩ := Prod.mk.inj heq
  exact ⟨rfl, rfl, rfl⟩

/-- The search only moves the indices, and a store that it finds is in its buffer. -/
theorem search_spec {n : Nat} {turn : Bool} {found : Found}
    (h : s.search schedule n tid turn = some (found, s')) : SameStores s s' ∧
      ∀ from_, found = .store from_ → s'.storebuffer from_ ≠ [] := by
  induction n generalizing s tid turn with
  | zero =>
    obtain ⟨rfl, rfl⟩ := Prod.mk.inj (Option.some.inj h)
    exact ⟨.refl s, fun _ hfound => by cases hfound⟩
  | succ n ih =>
    cases turn with
    | true =>
      rw [search] at h
      cases hbuffer : s.storebuffer tid with
      | nil =>
        rw [hbuffer] at h
        exact ih h
      | cons first rest =>
        simp only [hbuffer] at h
        split at h
        · cases h
        · rename_i s₁ hcheck
          obtain ⟨rfl, rfl⟩ := Prod.mk.inj (Option.some.inj h)
          have hsame := checkStoreBuffer_same hcheck
          refine ⟨hsame, fun from_ hfound => ?_⟩
          obtain rfl := Found.store.inj hfound
          rw [hsame.storebuffer, hbuffer]
          simp
        · rename_i s₁ hcheck
          obtain ⟨hsame, hfound⟩ := ih h
          exact ⟨(checkStoreBuffer_same hcheck).trans hsame, hfound⟩
    | false =>
      rw [search] at h
      split at h
      · cases h
      · rename_i t ht
        split at h
        · exact ih h
        · split at h
          · cases h
          · rename_i s₁ hcheck
            obtain ⟨rfl, rfl⟩ := Prod.mk.inj (Option.some.inj h)
            exact ⟨checkThread_same hcheck, fun _ hfound => by cases hfound⟩
          · rename_i s₁ hcheck
            obtain ⟨hsame, hfound⟩ := ih h
            exact ⟨(checkThread_same hcheck).trans hsame, hfound⟩

theorem checkPreempt_continues {n : Nat}
    (hcommit : ∀ s tid epval, allowed s (.commit tid epval))
    (h : s.checkPreempt schedule tid n = some s') : Continues allowed s s' := by
  induction n generalizing s with
  | zero =>
    rw [checkPreempt] at h
    split at h
    · cases h
    · rename_i s₁ hsearch
      obtain rfl := Option.some.inj h
      exact ((search_spec hsearch).1.trans ⟨rfl, rfl, rfl⟩).continues
    · rename_i next s₁ hsearch
      obtain rfl := Option.some.inj h
      exact ((search_spec hsearch).1.trans ⟨rfl, rfl, rfl⟩).continues
    · cases h
  | succ n ih =>
    rw [checkPreempt] at h
    split at h
    · cases h
    · rename_i s₁ hsearch
      obtain rfl := Option.some.inj h
      exact ((search_spec hsearch).1.trans ⟨rfl, rfl, rfl⟩).continues
    · rename_i next s₁ hsearch
      obtain rfl := Option.some.inj h
      exact ((search_spec hsearch).1.trans ⟨rfl, rfl, rfl⟩).continues
    · rename_i from_ s₁ hsearch
      have hsame : Continues allowed s s₁ := (search_spec hsearch).1.continues
      exact (hsame.trans (doStore_continues (hcommit _ _))).trans (ih h)

theorem park_continues {pending : Pending}
    (hcommit : ∀ s tid epval, allowed s (.commit tid epval))
    (h : s.park schedule tid pending = some s') : Continues allowed s s' := by
  have hsame : SameStores s (s.modify tid fun t => { t with pending := some pending }) :=
    storebuffer_modify s tid fun _ => rfl
  exact hsame.continues.trans (checkPreempt_continues hcommit h)

theorem threadCreate_same (s : TSOExecution) (t : TSOThread) (ht : t.storebuffer = []) :
    SameStores s { s with threads := s.threads ++ [t] } where
  memory := rfl
  storebuffer := by
    funext u
    unfold storebuffer
    simp only
    rcases lt_trichotomy u s.threads.length with hu | rfl | hu
    · rw [List.getElem?_append_left hu]
    · simp [ht]
    · rw [List.getElem?_eq_none (by simp; omega), List.getElem?_eq_none (by omega)]
  events := rfl

/-! ## Runs -/

/-- What the running thread may do: a thread that has been in `check_preempt` reads. -/
structure Allows
    (allowed : State Memory Nat StoreValue → BufferEvent Nat StoreValue ReadResult → Prop)
    (s : TSOExecution) : Prop where
  commit : ∀ b u epval, allowed b (.commit u epval)
  issue : ∀ u epval, s.current = some u → allowed s.buffers (.issue u epval)
  access : ∀ u t, s.current = some u → s.threads[u]? = some t → t.pending ≠ none →
    (∀ result, allowed s.buffers (.read u result)) ∧ ∀ epval, allowed s.buffers (.update u epval)

theorem resume_continues {pending : Pending} (hallows : Allows allowed s)
    (hcurrent : s.current = some tid) (ht : s.threads[tid]? = some t)
    (hpending : t.pending = some pending) (h : s.resume schedule tid t pending = some s') :
    Continues allowed s s' := by
  obtain ⟨hread, hupdate⟩ := hallows.access tid t hcurrent ht (by simp [hpending])
  have hsame : SameStores s (s.modify tid fun t => { t with pending := none }) :=
    storebuffer_modify s tid fun _ => rfl
  have hbuffers : (s.modify tid fun t => { t with pending := none }).buffers = s.buffers := by
    unfold buffers
    rw [hsame.memory, hsame.storebuffer]
  unfold resume at h
  apply hsame.continues.trans
  cases pending with
  | load addr len =>
    obtain rfl := Option.some.inj h
    exact load_continues addr len (by rwa [hbuffers])
  | rmw op addr len oldval valarg =>
    obtain rfl := Option.some.inj h
    exact rmw_continues op addr len oldval valarg (by rwa [hbuffers]) (by rwa [hbuffers])
  | fence =>
    obtain rfl := Option.some.inj h
    exact (incrementTop_same _ tid).continues.trans
      (doStores_continues _ fun b epval => hallows.commit b tid epval)
  | join target =>
    simp only at h
    split_ifs at h
    · obtain rfl := Option.some.inj h
      exact (incrementTop_same _ tid).continues
    · exact park_continues hallows.commit h

private theorem call_continues {c : TSOCall} (hallows : Allows allowed s)
    (hcurrent : s.current = some tid) (ht : s.threads[tid]? = some t)
    (h : s.call schedule tid t c = some s') : Continues allowed s s' := by
  cases c with
  | load addr len => exact park_continues hallows.commit h
  | rmw op addr len oldval valarg => exact park_continues hallows.commit h
  | fence => exact park_continues hallows.commit h
  | store addr val len =>
    obtain rfl := Option.some.inj h
    exact store_continues ht addr val len fun epval => hallows.issue tid epval hcurrent
  | threadCreate =>
    obtain rfl := Option.some.inj h
    exact (incrementTop_same s tid).continues.trans (threadCreate_same _ _ rfl).continues
  | threadJoin target =>
    unfold call at h
    simp only at h
    split_ifs at h
    · obtain rfl := Option.some.inj h
      exact (incrementTop_same s tid).continues
    · exact park_continues hallows.commit h
  | threadFinish =>
    have hsame : SameStores s (s.modify tid fun t => { t with complete := true }) :=
      storebuffer_modify s tid fun _ => rfl
    exact hsame.continues.trans (checkPreempt_continues hallows.commit h)
  | annotate execpoint =>
    obtain rfl := Option.some.inj h
    have hsame : SameStores s (s.modify tid fun t => { t with execpoint := execpoint }) :=
      storebuffer_modify s tid fun _ => rfl
    exact hsame.continues
  | setNewFlag =>
    obtain rfl := Option.some.inj h
    exact SameStores.continues ⟨rfl, rfl, rfl⟩

theorem step_continues {c : TSOCall} (hallows : Allows allowed s)
    (h : s.step schedule c = some s') : Continues allowed s s' := by
  unfold step at h
  split at h
  · cases h
  · rename_i u hcurrent
    split at h
    · cases h
    · rename_i thread ht
      split at h
      · rename_i pending hpending
        exact resume_continues hallows hcurrent ht hpending h
      · exact call_continues hallows hcurrent ht h

theorem buffers_start (memory : Memory) : (start memory).buffers = ⟨memory, fun _ => []⟩ := by
  unfold buffers
  congr 1
  funext u
  unfold storebuffer start
  cases u <;> rfl

/-- The events of an execution are a trace of the machine with buffers. -/
theorem Reachable.trace {memory : Memory} (h : Reachable schedule memory s) :
    Trace semantics (fun _ _ => True) memory s.events s.buffers := by
  induction h with
  | start =>
    rw [buffers_start]
    exact .nil
  | step _ c hstep ih =>
    apply step_continues _ hstep _ ih
    exact ⟨fun _ _ _ => trivial, fun _ _ _ => trivial, fun _ _ _ _ _ =>
      ⟨fun _ => trivial, fun _ => trivial⟩⟩

theorem Reachable.run {memory : Memory} {calls : List TSOCall} (h : Reachable schedule memory s)
    (hrun : s.run schedule calls = some s') : Reachable schedule memory s' := by
  induction calls generalizing s with
  | nil => exact Option.some.inj hrun ▸ h
  | cons c cs ih =>
    obtain ⟨s₁, hstep, hrun⟩ := Option.bind_eq_some_iff.mp hrun
    exact ih (h.step c hstep) hrun

open BufferEvent in
/-- In every execution under every schedule, the stores that a thread has issued are those that
have been committed and behind them those in its buffer, the memory is what the committed stores
and the updates make of it, and a thread reads from that memory and its pending stores. -/
theorem stores_fifo {schedule : Schedule} {memory : Memory} {s : TSOExecution}
    (h : Reachable schedule memory s) :
    (∀ tid, s.events.filterMap (issuedBy? tid) =
      s.events.filterMap (committedBy? tid) ++ s.storebuffer tid) ∧
    s.memory = (s.events.filterMap toMemory?).foldl semantics.apply memory ∧
    ∀ before tid result after, s.events = before ++ .read tid result :: after →
      ∃ buffer, before.filterMap (issuedBy? tid) =
        before.filterMap (committedBy? tid) ++ buffer ∧
        semantics.reads ((before.filterMap toMemory?).foldl semantics.apply memory) buffer
          result := by
  refine ⟨h.trace.fifo, h.trace.memory_eq, ?_⟩
  intro before tid result after hevents
  have htrace := h.trace
  rw [hevents] at htrace
  exact htrace.reads

/-- Two threads that store to one address and load from the other, with both stores held back
until both have loaded. -/
def bufferingSchedule : Schedule where
  waitset _ := []
  storeset
    | 0 => [⟨⟨0, [(.counter, 1)]⟩, ⟨1, [(.counter, 1)]⟩⟩]
    | 1 => [⟨⟨1, [(.counter, 0)]⟩, ⟨0, [(.counter, 2)]⟩⟩]
    | _ => []
  getType _ := some .load

def bufferingCalls : List TSOCall :=
  [.threadCreate, .store 0 1 .one, .load 1 .one, .store 1 1 .one, .load 0 .one, .load 1 .one,
    .threadFinish, .load 0 .one]

/-- Both loads read zero. -/
theorem stores_fifo_buffering : ∃ s,
    (start fun _ => 0).run bufferingSchedule bufferingCalls = some s ∧
    s.events.drop 2 = [.read 0 ⟨1, .one, 0, false⟩, .read 1 ⟨0, .one, 0, false⟩] ∧
    s.events.filterMap (BufferEvent.issuedBy? 0) =
      s.events.filterMap (BufferEvent.committedBy? 0) ++ s.storebuffer 0 := by
  obtain ⟨s, hrun, hevents⟩ : ∃ s,
      (start fun _ => 0).run bufferingSchedule bufferingCalls = some s ∧
      s.events.drop 2 = [.read 0 ⟨1, .one, 0, false⟩, .read 1 ⟨0, .one, 0, false⟩] :=
    ⟨_, rfl, by decide⟩
  exact ⟨s, hrun, hevents, (stores_fifo (Reachable.start.run hrun)).1 0⟩

end TSOExecution

end SatCheck
