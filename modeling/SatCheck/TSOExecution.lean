import SatCheck.StoreBuffer
import SatCheck.Schedule
import SatCheck.EventRecorder
import SatCheck.Library.StoreBuffers
/-!
# Executions with store buffers

`MCExecution` and `MCScheduler` of the TSO build, with the memory, the threads and their store
buffers.  A thread that runs makes calls until one of them calls `check_preempt`, which commits
stores and picks the thread that goes on.
-/

namespace SatCheck

open ByteMemory StoreBuffer

/-- What a thread does when `check_preempt` returns to it. -/
inductive Pending where
  | load (addr : Nat) (len : AccessLen)
  | rmw (op : AtomicOp) (addr : Nat) (len : AccessLen) (oldval valarg : UInt64)
  | fence
  | join (target : Nat)
  deriving DecidableEq, Repr

/-- An `EPValue` of a store buffer. -/
structure StoreValue extends BufferedStore where
  ep : ExecPoint
  deriving DecidableEq, Repr

/-- What `load` returns, or what an RMW has read. -/
structure ReadResult where
  addr : Nat
  len : AccessLen
  value : UInt64
  atomic : Bool
  deriving DecidableEq, Repr

structure TSOThread where
  execpoint : ExecPoint
  storebuffer : List StoreValue
  pending : Option Pending
  complete : Bool
  deriving DecidableEq, Repr

/-- `current` is `none` in the system context.  `events` only remembers what has been done. -/
structure TSOExecution where
  memory : Memory
  threads : List TSOThread
  current : Option Nat
  waitsetindex : Nat → Nat
  storesetindex : Nat → Nat
  newbehavior : Bool
  events : List (BufferEvent Nat StoreValue ReadResult)

/-- A call of the running thread.  `annotate` stands for the calls that only move its point, and
`setNewFlag` for a branch in a new direction. -/
inductive TSOCall where
  | load (addr : Nat) (len : AccessLen)
  | store (addr : Nat) (val : UInt64) (len : AccessLen)
  | rmw (op : AtomicOp) (addr : Nat) (len : AccessLen) (oldval valarg : UInt64)
  | fence
  | threadCreate
  | threadJoin (target : Nat)
  | threadFinish
  | annotate (execpoint : ExecPoint)
  | setNewFlag
  deriving DecidableEq, Repr

namespace TSOExecution

/-- The pairs of `addWaitPair`, and the types of the recorded events. -/
structure Schedule where
  waitset : Nat → List WaitPair
  storeset : Nat → List WaitPair
  getType : ExecPoint → Option EventType

def emptySchedule : Schedule := ⟨fun _ => [], fun _ => [], fun _ => none⟩

variable (schedule : Schedule)

def start (memory : Memory) : TSOExecution where
  memory := memory
  threads := [⟨.start 0, [], none, false⟩]
  current := some 0
  waitsetindex _ := 0
  storesetindex _ := 0
  newbehavior := false
  events := []

def modify (s : TSOExecution) (tid : Nat) (f : TSOThread → TSOThread) : TSOExecution :=
  { s with threads := s.threads.modify tid f }

def incrementTop (s : TSOExecution) (tid : Nat) : TSOExecution :=
  s.modify tid fun t => { t with execpoint := t.execpoint.incrementTop }

def storebuffer (s : TSOExecution) (tid : Nat) : List StoreValue :=
  match s.threads[tid]? with
  | some t => t.storebuffer
  | none => []

def isComplete (s : TSOExecution) (tid : Nat) : Bool :=
  match s.threads[tid]? with
  | some t => t.complete
  | none => false

/-! ## Memory -/

/-- `doStore(tid)`: the front of the buffer goes to the memory. -/
def doStore (s : TSOExecution) (tid : Nat) : TSOExecution :=
  match s.storebuffer tid with
  | [] => s
  | epval :: rest =>
      { s.modify tid fun t => { t with storebuffer := rest } with
        memory := StoreBuffer.doStore s.memory epval.toBufferedStore
        events := s.events ++ [.commit tid epval] }

/-- `doStore` until the buffer is empty. -/
def doStores (tid : Nat) : Nat → TSOExecution → TSOExecution
  | 0, s => s
  | n + 1, s => doStores tid n (s.doStore tid)

def store (s : TSOExecution) (tid : Nat) (t : TSOThread) (addr : Nat) (val : UInt64)
    (len : AccessLen) : TSOExecution :=
  let epval : StoreValue := ⟨.new addr val len, t.execpoint⟩
  { s.modify tid fun t => { t with
      storebuffer := t.storebuffer ++ [epval]
      execpoint := t.execpoint.incrementTop } with
    events := s.events ++ [.issue tid epval] }

def load (s : TSOExecution) (tid : Nat) (addr : Nat) (len : AccessLen) : TSOExecution :=
  let val := StoreBuffer.load s.memory ((s.storebuffer tid).map (·.toBufferedStore)) addr len
  { s.incrementTop tid with events := s.events ++ [.read tid ⟨addr, len, val, false⟩] }

/-- `rmw_8` to `rmw_64` read the memory, and `dormwaction` writes to it unless a CAS fails. -/
def rmw (s : TSOExecution) (tid : Nat) (t : TSOThread) (op : AtomicOp) (addr : Nat)
    (len : AccessLen) (oldval valarg : UInt64) : TSOExecution :=
  let currval := readMemory s.memory addr len
  let newval : StoreValue :=
    ⟨.new addr (PlannerState.dormwaction op len.bytes currval oldval valarg) len, t.execpoint⟩
  let s' := { s.incrementTop tid with
    events := s.events ++ [.read tid ⟨addr, len, currval, true⟩] }
  if op = .cas ∧ currval ≠ oldval then s'
  else
    { s' with
      memory := StoreBuffer.doStore s.memory newval.toBufferedStore
      events := s'.events ++ [.update tid newval] }

/-! ## Scheduling -/

/-- The loop of `checkSet` from the pair at the thread's index on, with the number of pairs it
passes; `none` when a pair waits for a thread that does not exist. -/
def checkSet (s : TSOExecution) (current : ExecPoint) : List WaitPair → Option (Bool × Nat)
  | [] => some (true, 0)
  | wp :: wps =>
      let continueLoop := (s.checkSet current wps).map fun (passes, n) => (passes, n + 1)
      match wp.stop.compare current with
      | .equals =>
          match s.threads[wp.wait.tid]? with
          | none => none
          | some waitthread =>
              match waitthread.execpoint.compare wp.wait with
              | .before | .incomparable =>
                  if schedule.getType wp.wait = some .store then
                    match waitthread.storebuffer with
                    | [] => continueLoop
                    | first_store :: _ =>
                        match first_store.ep.compare wp.wait with
                        | .before | .incomparable => continueLoop
                        | _ => some (false, 0)
                  else continueLoop
              | _ =>
                  if waitthread.storebuffer ≠ [] then some (false, 0)
                  else if waitthread.complete then continueLoop
                  else some (false, 0)
      | _ => some (true, 0)

/-- The pairs of the set from the index on, unless there is new behavior. -/
def pairsAhead (s : TSOExecution) (set : List WaitPair) (setindex : Nat) : List WaitPair :=
  if s.newbehavior then [] else set.drop setindex

def checkThread (s : TSOExecution) (tid : Nat) (t : TSOThread) : Option (Bool × TSOExecution) :=
  (s.checkSet schedule t.execpoint
    (s.pairsAhead (schedule.waitset tid) (s.waitsetindex tid))).map fun (passes, n) =>
      (passes, { s with
        waitsetindex := Function.update s.waitsetindex tid (s.waitsetindex tid + n) })

def checkStoreBuffer (s : TSOExecution) (tid : Nat) (first : StoreValue) :
    Option (Bool × TSOExecution) :=
  (s.checkSet schedule first.ep
    (s.pairsAhead (schedule.storeset tid) (s.storesetindex tid))).map fun (passes, n) =>
      (passes, { s with
        storesetindex := Function.update s.storesetindex tid (s.storesetindex tid + n) })

/-- What the loop of `check_preempt` stops at. -/
inductive Found where
  | store (tid : Nat)
  | thread (tid : Nat)
  | nothing
  deriving DecidableEq, Repr

/-- The loop of `check_preempt` with so many iterations to go: the buffers and the threads take
turns, `storebuffer` tells whose turn it is. -/
def search : Nat → Nat → Bool → TSOExecution → Option (Found × TSOExecution)
  | 0, _, _, s => some (.nothing, s)
  | n + 1, tid, true, s =>
      let next := (tid + 1) % s.threads.length
      match s.storebuffer tid with
      | [] => search n next false s
      | first :: _ =>
          match s.checkStoreBuffer schedule tid first with
          | none => none
          | some (true, s) => some (.store tid, s)
          | some (false, s) => search n next false s
  | n + 1, tid, false, s =>
      match s.threads[tid]? with
      | none => none
      | some t =>
          if t.complete then search n tid true s
          else
            match s.checkThread schedule tid t with
            | none => none
            | some (true, s) => some (.thread tid, s)
            | some (false, s) => search n tid true s

/-- `check_preempt` called by `tid`, which searches again after every store; `stores` bounds how
often. -/
def checkPreempt (tid : Nat) : Nat → TSOExecution → Option TSOExecution
  | stores, s =>
      match s.search schedule (2 * s.threads.length) tid true with
      | none => none
      | some (.nothing, s) => some { s with current := if s.isComplete tid then none else some tid }
      | some (.thread next, s) => some { s with current := some next }
      | some (.store from_, s) =>
          match stores with
          | 0 => none
          | stores + 1 => checkPreempt tid stores (s.doStore from_)

def numStores (s : TSOExecution) : Nat := (s.threads.map fun t => t.storebuffer.length).sum

/-- `check_preempt` with enough searches for all stores. -/
def preempt (s : TSOExecution) (tid : Nat) : Option TSOExecution :=
  s.checkPreempt schedule tid s.numStores

/-- The thread calls `check_preempt` and goes on with `pending` when it runs again. -/
def park (s : TSOExecution) (tid : Nat) (pending : Pending) : Option TSOExecution :=
  (s.modify tid fun t => { t with pending := some pending }).preempt schedule tid

/-! ## Calls -/

/-- The thread goes on with what it has called `check_preempt` for. -/
def resume (s : TSOExecution) (tid : Nat) (t : TSOThread) (pending : Pending) :
    Option TSOExecution :=
  let s := s.modify tid fun t => { t with pending := none }
  match pending with
  | .load addr len => some (s.load tid addr len)
  | .rmw op addr len oldval valarg => some (s.rmw tid t op addr len oldval valarg)
  | .fence => some ((s.incrementTop tid).doStores tid t.storebuffer.length)
  | .join target =>
      if s.isComplete target then some (s.incrementTop tid)
      else s.park schedule tid (.join target)

def call (s : TSOExecution) (tid : Nat) (t : TSOThread) : TSOCall → Option TSOExecution
  | .load addr len => s.park schedule tid (.load addr len)
  | .store addr val len => some (s.store tid t addr val len)
  | .rmw op addr len oldval valarg => s.park schedule tid (.rmw op addr len oldval valarg)
  | .fence => s.park schedule tid .fence
  | .threadCreate =>
      let s := s.incrementTop tid
      some { s with threads := s.threads ++ [⟨.start s.threads.length, [], none, false⟩] }
  | .threadJoin target =>
      if s.isComplete target then some (s.incrementTop tid)
      else s.park schedule tid (.join target)
  | .threadFinish => (s.modify tid fun t => { t with complete := true }).preempt schedule tid
  | .annotate execpoint => some (s.modify tid fun t => { t with execpoint := execpoint })
  | .setNewFlag => some { s with newbehavior := true }

/-- The running thread goes on with what it is at, or makes the given call. -/
def step (s : TSOExecution) (c : TSOCall) : Option TSOExecution :=
  match s.current with
  | none => none
  | some tid =>
      match s.threads[tid]? with
      | none => none
      | some t =>
          match t.pending with
          | some pending => s.resume schedule tid t pending
          | none => s.call schedule tid t c

/-- The calls are made one after the other; what is called while a thread goes on is not looked
at. -/
def run (s : TSOExecution) : List TSOCall → Option TSOExecution
  | [] => some s
  | c :: cs => (s.step schedule c).bind fun s => run s cs

/-- The executions of all programs from a memory. -/
inductive Reachable (memory : Memory) : TSOExecution → Prop
  | start : Reachable memory (start memory)
  | step {s s' : TSOExecution} (h : Reachable memory s) (c : TSOCall)
      (hstep : s.step schedule c = some s') : Reachable memory s'

end TSOExecution

end SatCheck
