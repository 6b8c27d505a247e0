import SatCheck.Schedule
/-!
# Replaying a schedule

`MCScheduler` with the threads it switches between (SC build), for threads that
follow their recorded paths and without new behaviour.  A thread calls
`check_preempt` before a memory action, while it waits in a join, and when it ends.
`none` stands for a replay outside this: a thread gets another id than recorded, or
a wait consults a thread that does not exist yet.
-/

namespace SatCheck

/-- `parked` tells that the thread has called `check_preempt` at its position. -/
structure ReplayThread where
  pos : Nat
  complete : Bool
  parked : Bool
  deriving DecidableEq, Repr

structure Replay where
  threads : List ReplayThread
  waitsetindex : Nat → Nat
  executed : List ExecPoint

namespace Replay

variable (paths : RecordedPaths) (pairs : List WaitPair)

def start : Replay := ⟨[⟨0, false, false⟩], fun _ => 0, []⟩

/-- `addWaitPair` files a pair under the thread of its stop point. -/
def waitset (tid : Nat) : List WaitPair := pairs.filter fun wp => wp.stop.tid = tid

def isComplete (s : Replay) (tid : Nat) : Bool :=
  match s.threads[tid]? with
  | some t => t.complete
  | none => false

def position (s : Replay) (tid : Nat) : Nat :=
  match s.threads[tid]? with
  | some t => t.pos
  | none => 0

/-- `get_execpoint`.  Behind the last event only completion is asked for. -/
def execpoint (s : Replay) (tid : Nat) : ExecPoint :=
  match (paths.path tid)[s.position tid]? with
  | some event => event.ep
  | none => ⟨tid, []⟩

/-- The loop of `checkSet` from the pair at the thread's index on, with the number of
pairs it passes. -/
def checkSet (s : Replay) (current : ExecPoint) : List WaitPair → Option (Bool × Nat)
  | [] => some (true, 0)
  | wp :: wps =>
      match wp.stop.compare current with
      | .equals =>
          if s.threads.length ≤ wp.wait.tid then none
          else
            match (s.execpoint paths wp.wait.tid).compare wp.wait with
            | .before | .incomparable =>
                (s.checkSet current wps).map fun (passes, n) => (passes, n + 1)
            | _ =>
                if s.isComplete wp.wait.tid then
                  (s.checkSet current wps).map fun (passes, n) => (passes, n + 1)
                else some (false, 0)
      | _ => some (true, 0)

def checkThread (s : Replay) (tid : Nat) : Option (Bool × Replay) :=
  (s.checkSet paths (s.execpoint paths tid) ((waitset pairs tid).drop (s.waitsetindex tid))).map
    fun (passes, n) => (passes, { s with
      waitsetindex := fun t => if t = tid then s.waitsetindex t + n else s.waitsetindex t })

/-- The loop of `check_preempt` over the thread ids: the first incomplete thread that
passes, if there is one. -/
def findThread (s : Replay) : List Nat → Option (Option Nat × Replay)
  | [] => some (none, s)
  | tid :: tids =>
      if s.isComplete tid then s.findThread tids
      else
        match s.checkThread paths pairs tid with
        | none => none
        | some (true, s) => some (some tid, s)
        | some (false, s) => s.findThread tids

/-- All thread ids, from the one after `tid` around to `tid`. -/
def candidates (s : Replay) (tid : Nat) : List Nat :=
  (List.range s.threads.length).map fun i => (tid + 1 + i) % s.threads.length

/-- `check_preempt` called by `tid`: the thread that goes on, `none` for the system
context. -/
def checkPreempt (s : Replay) (tid : Nat) : Option (Option Nat × Replay) :=
  match s.findThread paths pairs (s.candidates tid) with
  | none => none
  | some (some next, s) => some (some next, s)
  | some (none, s) =>
      let next := (tid + 1) % s.threads.length
      some (if s.isComplete next then none else some next, s)

/-! ## Running a thread -/

def setThread (s : Replay) (tid : Nat) (thread : ReplayThread) : Replay :=
  { s with threads := s.threads.set tid thread }

def addThread (s : Replay) : Replay :=
  { s with threads := s.threads ++ [⟨0, false, false⟩] }

/-- Runs `tid` from position `pos`, with `rest` before it, to its next call of
`check_preempt`. -/
def runOn (s : Replay) (tid pos : Nat) : List PathEvent → Option Replay
  | [] => some (s.setThread tid ⟨pos, true, true⟩)
  | .memory _ :: _ => some (s.setThread tid ⟨pos, false, true⟩)
  | .threadCreate _ child :: rest =>
      if child = s.threads.length then
        runOn s.addThread tid (pos + 1) rest
      else none
  | .threadJoin _ target :: rest =>
      if s.isComplete target then runOn s tid (pos + 1) rest
      else some (s.setThread tid ⟨pos, false, true⟩)
  | .other _ :: rest => runOn s tid (pos + 1) rest

/-- A thread that goes on performs the action it is parked at, if it is at one. -/
def resume (s : Replay) (tid : Nat) : Option Replay :=
  match s.threads[tid]? with
  | none => none
  | some thread =>
      let rest := (paths.path tid).drop thread.pos
      match thread.parked, rest with
      | true, .memory ep :: rest =>
          runOn { s with executed := s.executed ++ [ep] } tid (thread.pos + 1) rest
      | _, rest => runOn s tid thread.pos rest

/-- The replay up to its `n`-th scheduling point, which the given thread has reached. -/
def schedulingPoint : Nat → Option (Nat × Replay)
  | 0 => (start.resume paths 0).map fun s => (0, s)
  | n + 1 =>
      match schedulingPoint n with
      | none => none
      | some (tid, s) =>
          match s.checkPreempt paths pairs tid with
          | some (some next, s) => (s.resume paths next).map fun s => (next, s)
          | _ => none

end Replay

end SatCheck
