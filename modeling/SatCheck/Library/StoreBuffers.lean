import Mathlib.Logic.Function.Basic
import Mathlib.Data.List.Basic
/-!
# Traces of store buffers

Threads issue stores into buffers of their own, from which they are committed to the memory one by
one.  When no thread reads or issues a store while another one has stores pending, the trace is
that of a machine without buffers.
-/

/-- `issue` and `commit` are the two ends of a buffered store; `update` goes to the memory at once.
-/
inductive BufferEvent (τ β δ : Type*) where
  | issue (thread : τ) (store : β)
  | commit (thread : τ) (store : β)
  | update (thread : τ) (store : β)
  | read (thread : τ) (result : δ)
  deriving DecidableEq, Repr

namespace BufferEvent

variable {τ β δ : Type*}

def thread : BufferEvent τ β δ → τ
  | issue t _ | commit t _ | update t _ | read t _ => t

variable [DecidableEq τ]

/-- The store that the event issues for a thread. -/
def issuedBy? (t : τ) : BufferEvent τ β δ → Option β
  | issue u b => if u = t then some b else none
  | _ => none

def committedBy? (t : τ) : BufferEvent τ β δ → Option β
  | commit u b => if u = t then some b else none
  | _ => none

/-- The store that reaches the memory. -/
def toMemory? : BufferEvent τ β δ → Option β
  | commit _ b | update _ b => some b
  | _ => none

end BufferEvent

namespace StoreBuffers

open BufferEvent

variable {μ τ β δ : Type*} [DecidableEq τ]

structure State (μ τ β : Type*) where
  memory : μ
  buffer : τ → List β

/-- What a store does to the memory, and what a thread can read with its buffer. -/
structure Semantics (μ β δ : Type*) where
  apply : μ → β → μ
  reads : μ → List β → δ → Prop

variable (sem : Semantics μ β δ)

inductive Step : State μ τ β → BufferEvent τ β δ → State μ τ β → Prop
  | issue {s : State μ τ β} (t : τ) (b : β) :
      Step s (.issue t b) ⟨s.memory, Function.update s.buffer t (s.buffer t ++ [b])⟩
  | commit {s : State μ τ β} (t : τ) (b : β) (rest : List β) (h : s.buffer t = b :: rest) :
      Step s (.commit t b) ⟨sem.apply s.memory b, Function.update s.buffer t rest⟩
  | update {s : State μ τ β} (t : τ) (b : β) :
      Step s (.update t b) ⟨sem.apply s.memory b, s.buffer⟩
  | read {s : State μ τ β} (t : τ) (d : δ) (h : sem.reads s.memory (s.buffer t) d) :
      Step s (.read t d) s

/-- Only the thread of the event may have stores pending, and none when it reads or updates. -/
def Exclusive (s : State μ τ β) : BufferEvent τ β δ → Prop
  | issue t _ => ∀ u, u ≠ t → s.buffer u = []
  | commit _ _ => True
  | .update _ _ | .read _ _ => ∀ u, s.buffer u = []

/-- A trace from empty buffers; the allowed steps may be restricted. -/
inductive Trace (allowed : State μ τ β → BufferEvent τ β δ → Prop) (memory : μ) :
    List (BufferEvent τ β δ) → State μ τ β → Prop
  | nil : Trace allowed memory [] ⟨memory, fun _ => []⟩
  | snoc {events : List (BufferEvent τ β δ)} {s s' : State μ τ β} {event : BufferEvent τ β δ}
      (h : Trace allowed memory events s) (hallowed : allowed s event)
      (hstep : Step sem s event s') : Trace allowed memory (events ++ [event]) s'

/-- The machine without buffers: a store is done where it is issued. -/
inductive Sequential (memory : μ) : List (BufferEvent τ β δ) → μ → Prop
  | nil : Sequential memory [] memory
  | issue {events : List (BufferEvent τ β δ)} {m : μ} (h : Sequential memory events m) (t : τ)
      (b : β) : Sequential memory (events ++ [.issue t b]) (sem.apply m b)
  | commit {events : List (BufferEvent τ β δ)} {m : μ} (h : Sequential memory events m) (t : τ)
      (b : β) : Sequential memory (events ++ [.commit t b]) m
  | update {events : List (BufferEvent τ β δ)} {m : μ} (h : Sequential memory events m) (t : τ)
      (b : β) : Sequential memory (events ++ [.update t b]) (sem.apply m b)
  | read {events : List (BufferEvent τ β δ)} {m : μ} (h : Sequential memory events m) (t : τ)
      (d : δ) (hreads : sem.reads m [] d) : Sequential memory (events ++ [.read t d]) m

variable {sem} {allowed : State μ τ β → BufferEvent τ β δ → Prop} {memory : μ}
  {events : List (BufferEvent τ β δ)} {s s' : State μ τ β} {event : BufferEvent τ β δ}

/-- The issued stores of a thread are committed in their order, and the others are pending. -/
theorem Trace.fifo (h : Trace sem allowed memory events s) (t : τ) :
    events.filterMap (issuedBy? t) = events.filterMap (committedBy? t) ++ s.buffer t := by
  induction h with
  | nil => rfl
  | snoc _ _ hstep ih =>
    rw [List.filterMap_append, List.filterMap_append, ih]
    cases hstep with
    | issue u b =>
      by_cases hu : u = t
      · subst hu
        simp [issuedBy?, committedBy?]
      · simp [issuedBy?, committedBy?, hu, Function.update_of_ne (Ne.symm hu)]
    | commit u b rest hbuffer =>
      by_cases hu : u = t
      · subst hu
        simp [issuedBy?, committedBy?, hbuffer]
      · simp [issuedBy?, committedBy?, hu, Function.update_of_ne (Ne.symm hu)]
    | update u b => simp [List.filterMap_cons, issuedBy?, committedBy?]
    | read u d => simp [List.filterMap_cons, issuedBy?, committedBy?]

/-- The memory is what the stores that have reached it make of it. -/
theorem Trace.memory_eq (h : Trace sem allowed memory events s) :
    s.memory = (events.filterMap toMemory?).foldl sem.apply memory := by
  induction h with
  | nil => rfl
  | snoc _ _ hstep ih =>
    rw [List.filterMap_append, List.foldl_append, ← ih]
    cases hstep <;> rfl

/-- Every event of a trace is a step behind the events before it. -/
theorem Trace.split {before after : List (BufferEvent τ β δ)}
    (h : Trace sem allowed memory (before ++ event :: after) s) :
    ∃ s₁ s₂, Trace sem allowed memory before s₁ ∧ Step sem s₁ event s₂ := by
  generalize hevents : before ++ event :: after = events at h
  induction h generalizing after with
  | nil => simp at hevents
  | @snoc events s₁ s₂ last htrace _ hstep ih =>
    rcases List.eq_nil_or_concat after with rfl | ⟨after, last', rfl⟩
    · obtain ⟨rfl, hlast⟩ := List.append_inj' hevents rfl
      obtain rfl := (List.cons.inj hlast).1
      exact ⟨s₁, s₂, htrace, hstep⟩
    · rw [List.concat_eq_append, ← List.cons_append, ← List.append_assoc] at hevents
      exact ih (List.append_inj' hevents rfl).1

/-- A thread reads from the memory that the events before have left, and from its stores that are
pending behind them. -/
theorem Trace.reads {before after : List (BufferEvent τ β δ)} {t : τ} {d : δ}
    (h : Trace sem allowed memory (before ++ .read t d :: after) s) :
    ∃ buffer, before.filterMap (issuedBy? t) = before.filterMap (committedBy? t) ++ buffer ∧
      sem.reads ((before.filterMap toMemory?).foldl sem.apply memory) buffer d := by
  obtain ⟨s₁, _, htrace, hstep⟩ := h.split
  cases hstep with
  | read _ _ hreads => exact ⟨s₁.buffer t, htrace.fifo t, htrace.memory_eq ▸ hreads⟩

/-- What the memory becomes with the pending stores of a thread that is the only one to have
some. -/
def Drains (s : State μ τ β) (sem : Semantics μ β δ) (m : μ) : Prop :=
  ∃ t, (∀ u, u ≠ t → s.buffer u = []) ∧ m = (s.buffer t).foldl sem.apply s.memory

/-- A trace in which no other thread has stores pending is one of the machine without buffers. -/
theorem Trace.sequential [Inhabited τ] (h : Trace sem Exclusive memory events s) :
    ∃ m, Sequential sem memory events m ∧ Drains s sem m := by
  induction h with
  | nil => exact ⟨memory, .nil, default, fun _ _ => rfl, rfl⟩
  | @snoc events s s' event _ hallowed hstep ih =>
    obtain ⟨m, hseq, owner, hothers, hm⟩ := ih
    cases hstep with
    | issue t b =>
      refine ⟨_, hseq.issue t b, t, ?_, ?_⟩
      · intro u hu
        exact (Function.update_of_ne hu _ _).trans (hallowed u hu)
      · have hsame : m = (s.buffer t).foldl sem.apply s.memory := by
          by_cases ht : t = owner
          · rw [ht, hm]
          · rw [hm, hothers t ht, hallowed owner (Ne.symm ht)]
        simp [hsame]
    | commit t b rest hbuffer =>
      refine ⟨m, hseq.commit t b, owner, ?_, ?_⟩
      · intro u hu
        by_cases ht : u = t
        · subst ht
          rw [hothers u hu] at hbuffer
          cases hbuffer
        · exact (Function.update_of_ne ht _ _).trans (hothers u hu)
      · have ht : t = owner := by
          by_contra ht
          rw [hothers t ht] at hbuffer
          cases hbuffer
        subst ht
        simp [hm, hbuffer]
    | update t b =>
      refine ⟨_, hseq.update t b, owner, hothers, ?_⟩
      rw [hm, hallowed owner]
      rfl
    | read t d hreads =>
      have hempty := hallowed
      rw [hempty owner] at hm
      rw [hempty t] at hreads
      exact ⟨m, hseq.read t d (by rw [hm]; exact hreads), owner, hothers, by rw [hempty owner, hm]⟩

end StoreBuffers
