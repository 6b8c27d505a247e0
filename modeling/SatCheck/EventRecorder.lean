import SatCheck.ExecPoint
import SatCheck.EventRecord
import Mathlib.Logic.Function.Basic
/-!
# Recording an execution

`MCExecution` where it builds the event graph: the execution point and the branch of a
thread, the records with their links, and the annotation calls.  A record is named by
its execution point.
-/

namespace SatCheck

structure EPValue where
  record : ExecPoint
  value : Nat
  deriving DecidableEq, Repr

/-- `valuevector` lists the directions of a branch record. -/
structure EPRecord where
  event : EventType
  branch : Option EPValue
  numinputs : Nat
  nextRecord : Option ExecPoint
  childRecord : Option ExecPoint
  valuevector : List Nat
  deriving DecidableEq, Repr

/-- The arguments of a call of `getOrCreateCurrRecord`. -/
structure Request where
  ep : ExecPoint
  event : EventType
  numinputs : Nat
  deriving DecidableEq, Repr

/-- `epvalues` are the branch values of each thread in the order of their MCIDs, so that an
MCID is a position.  `requests` only remembers the calls of `getOrCreateCurrRecord`. -/
structure Recorder where
  records : ExecPoint → Option EPRecord
  firstrecord : EPValue → Option ExecPoint
  lastrecord : EPValue → Option ExecPoint
  alwaysexecuted : Nat → Option ExecPoint
  execpoint : Nat → ExecPoint
  currbranch : Nat → Option EPValue
  epvalues : Nat → List EPValue
  requests : List Request

/-- The annotation calls of a thread that touch the event graph. -/
inductive Annotation where
  | event (event : EventType) (numinputs : Nat)
  | branchDir (direction : Nat)
  | merge (mcid : Nat)
  | enterLoop
  | exitLoop
  | loopIterate
  | threadCreate
  | threadStart (parent : Option ExecPoint)
  deriving DecidableEq, Repr

/-- The point of a thread that `add_thread` registers. -/
def ExecPoint.start (tid : Nat) : ExecPoint := ⟨tid, [(.counter, 0)]⟩

namespace Recorder

def setNextRecord (s : Recorder) (record next : ExecPoint) : Recorder :=
  { s with
    records := Function.update s.records record
      ((s.records record).map fun r => { r with nextRecord := some next }) }

def setChildRecord (s : Recorder) (record child : ExecPoint) : Recorder :=
  { s with
    records := Function.update s.records record
      ((s.records record).map fun r => { r with childRecord := some child }) }

/-- The `nextRecord` of the last record, if there is one. -/
def link (s : Recorder) (last : Option ExecPoint) (record : ExecPoint) : Recorder :=
  match last with
  | none => s
  | some last => s.setNextRecord last record

def getBranch (s : Recorder) (record : ExecPoint) : Option EPValue :=
  (s.records record).bind EPRecord.branch

def setExecPoint (s : Recorder) (tid : Nat) (ep : ExecPoint) : Recorder :=
  { s with execpoint := Function.update s.execpoint tid ep }

def incrementTop (s : Recorder) (tid : Nat) : Recorder :=
  s.setExecPoint tid (s.execpoint tid).incrementTop

def createRecord (s : Recorder) (tid : Nat) (et : EventType) (numinputs : Nat) : Recorder :=
  match s.records (s.execpoint tid) with
  | some _ => s
  | none =>
      { s with
        records := Function.update s.records (s.execpoint tid)
          (some ⟨et, s.currbranch tid, numinputs, none, none, []⟩) }

def getOrCreateCurrRecord (s : Recorder) (tid : Nat) (et : EventType) (numinputs : Nat) :
    Recorder :=
  let record := s.execpoint tid
  let s := s.createRecord tid et numinputs
  let s := { s with requests := s.requests ++ [Request.mk record et numinputs] }
  let linked := et ≠ .label ∧ et ≠ .loopstart
  match s.currbranch tid with
  | none =>
      let s := if linked then s.link (s.alwaysexecuted tid) record else s
      { s with alwaysexecuted := Function.update s.alwaysexecuted tid (some record) }
  | some branch =>
      let s := if s.firstrecord branch = none then
          { s with firstrecord := Function.update s.firstrecord branch (some record) }
        else s
      let s := if linked then s.link (s.lastrecord branch) record else s
      { s with lastrecord := Function.update s.lastrecord branch (some record) }

def addEPValue (s : Recorder) (record : ExecPoint) (value : Nat) : Recorder :=
  { s with
    records := Function.update s.records record
      ((s.records record).map fun r => { r with valuevector := HashSet.add r.valuevector value }) }

def branchDir (s : Recorder) (tid direction : Nat) : Recorder :=
  let record := s.execpoint tid
  let s := s.getOrCreateCurrRecord tid .branchdir 1
  let s := s.addEPValue record direction
  let s := { s with
    currbranch := Function.update s.currbranch tid (some ⟨record, direction⟩)
    lastrecord := Function.update s.lastrecord ⟨record, direction⟩ none
    epvalues := Function.update s.epvalues tid (s.epvalues tid ++ [EPValue.mk record direction]) }
  s.setExecPoint tid ((record.push .branch direction).push .counter 0)

def merge (s : Recorder) (tid mcid : Nat) : Recorder :=
  match (s.epvalues tid)[mcid]? with
  | none => s
  | some value =>
      let s := { s with
        currbranch := Function.update s.currbranch tid (s.getBranch value.record) }
      let s := s.setExecPoint tid ((s.execpoint tid).rollback value.record.getSize)
      let s := s.incrementTop tid
      let s := s.getOrCreateCurrRecord tid .merge 0
      s.incrementTop tid

def enterLoop (s : Recorder) (tid : Nat) : Recorder :=
  let record := s.execpoint tid
  let s := s.getOrCreateCurrRecord tid .loopenter 0
  let lpstart := (record.push .loop 0).push .counter 0
  let s := s.setExecPoint tid lpstart
  let s := s.getOrCreateCurrRecord tid .loopstart 0
  let s := s.setChildRecord record lpstart
  s.incrementTop tid

/-- The loop of `exitLoop` that pops to the loop, one entry an iteration. -/
def popLoop (tid : Nat) : Nat → Recorder → Recorder
  | 0, s => s
  | n + 1, s =>
      let type := (s.execpoint tid).getType
      let s := s.setExecPoint tid (s.execpoint tid).pop
      let s := if type = some .branch then
          { s with
            currbranch := Function.update s.currbranch tid
              ((s.currbranch tid).bind fun branch => s.getBranch branch.record) }
        else s
      if type = some .loop then s else popLoop tid n s

/-- The first half of `exitLoop`, which records the exit and pops to the loop. -/
def breakLoop (s : Recorder) (tid : Nat) : Recorder :=
  let s := s.getOrCreateCurrRecord tid
    (if (s.execpoint tid).directInLoop then .loopexit else .nonlocaltrans) 0
  let s := s.incrementTop tid
  popLoop tid (s.execpoint tid).getSize s

/-- The second half of `exitLoop`, behind the exit recorded at `breakstate`. -/
def labelLoop (s : Recorder) (tid : Nat) (breakstate : ExecPoint) : Recorder :=
  let loopenter := s.execpoint tid
  let s := s.incrementTop tid
  let label := s.execpoint tid
  let s := s.getOrCreateCurrRecord tid .label 0
  let s := if (s.records loopenter).bind EPRecord.nextRecord = none then
      s.setNextRecord loopenter label
    else s
  let s := s.setNextRecord breakstate label
  s.incrementTop tid

def exitLoop (s : Recorder) (tid : Nat) : Recorder :=
  (s.breakLoop tid).labelLoop tid (s.execpoint tid)

def loopIterate (s : Recorder) (tid : Nat) : Recorder :=
  s.setExecPoint tid ((s.execpoint tid).pop.incrementTop.push .counter 0)

/-- The thread that is added gets a new id, and the point of this id is at its start. -/
def threadCreate (s : Recorder) (tid : Nat) : Recorder :=
  (s.getOrCreateCurrRecord tid .threadcreate 0).incrementTop tid

def threadStart (s : Recorder) (tid : Nat) (parent : Option ExecPoint) : Recorder :=
  let threadstart := s.execpoint tid
  let s := s.getOrCreateCurrRecord tid .threadbegin 0
  let s := match parent with
    | none => s
    | some parent => s.setChildRecord parent threadstart
  s.incrementTop tid

def exec (s : Recorder) (tid : Nat) : Annotation → Recorder
  | .event et numinputs => (s.getOrCreateCurrRecord tid et numinputs).incrementTop tid
  | .branchDir direction => s.branchDir tid direction
  | .merge mcid => s.merge tid mcid
  | .enterLoop => s.enterLoop tid
  | .exitLoop => s.exitLoop tid
  | .loopIterate => s.loopIterate tid
  | .threadCreate => s.threadCreate tid
  | .threadStart parent => s.threadStart tid parent

def empty : Recorder :=
  { records := fun _ => none
    firstrecord := fun _ => none
    lastrecord := fun _ => none
    alwaysexecuted := fun _ => none
    execpoint := ExecPoint.start
    currbranch := fun _ => none
    epvalues := fun _ => []
    requests := [] }

/-- The start of the next run: the graph stays, `reset` and the snapshot take back the rest. -/
def reset (s : Recorder) : Recorder :=
  { s with
    alwaysexecuted := fun _ => none
    execpoint := ExecPoint.start
    currbranch := fun _ => none
    epvalues := fun _ => []
    requests := [] }

/-- One run: the calls of its threads in the order in which they are made. -/
def run (s : Recorder) (calls : List (Nat × Annotation)) : Recorder :=
  calls.foldl (fun s call => s.exec call.1 call.2) s.reset

end Recorder

end SatCheck
