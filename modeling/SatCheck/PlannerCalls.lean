import SatCheck.Planner
/-!
# The calls that feed the planner

The annotation calls of a run, as far as they touch value sets, tables and
dependences.  An MCID stands for the record it names, `none` for `MCID_NODEP`; the
record of a call is the one at the current execution point.
-/

namespace SatCheck

namespace PlannerState

variable {R : Type} [DecidableEq R] (info : R → RecordInfo)

def keepbytes (val : UInt64) (len : Nat) : UInt64 :=
  let shift := UInt64.ofNat (8 - len)
  (val <<< shift) >>> shift

def getmask (len : Nat) : UInt64 := 0xffffffffffffffff >>> UInt64.ofNat (64 - len * 8)

theorem getLsbD_getmask {len : Nat} (hpos : 1 ≤ len) (hle : len ≤ 8) (i : Nat) :
    (getmask len).toBitVec.getLsbD i = decide (i < 8 * len) := by
  have hshift : (64 - len * 8) % 64 = 64 - len * 8 := by omega
  have hones : ∀ j, (0xffffffffffffffff#64).getLsbD j = decide (j < 64) :=
    fun j => BitVec.getLsbD_allOnes
  have hlt : (64 - len * 8 + i < 64) ↔ i < 8 * len := by omega
  simp [getmask, hshift, hones, hlt]

theorem toNat_and_getmask {len : Nat} (hpos : 1 ≤ len) (hle : len ≤ 8) (v : UInt64) :
    (v &&& getmask len).toNat = v.toNat % 2 ^ (8 * len) := by
  apply Nat.eq_of_testBit_eq
  intro i
  have hmask := getLsbD_getmask hpos hle i
  rw [Nat.testBit_mod_two_pow]
  simp only [BitVec.getLsbD, UInt64.toNat_toBitVec] at hmask
  rw [UInt64.toNat_and, Nat.testBit_and, hmask, Bool.and_comm]

def dormwaction (op : AtomicOp) (len : Nat) (currval oldval valarg : UInt64) : UInt64 :=
  let memval := match op with
    | .add => currval + valarg
    | .cas => if currval = oldval then valarg else currval
    | .exc => valarg
  memval &&& getmask len

def getOrCreateCurrRecord (s : PlannerState R) (record : R) : PlannerState R :=
  { s with eptable := HashSet.add s.eptable record }

/-- The part of `getEPValue` that `hasValue` reads: the value joins the record's list. -/
def addEPValue (s : PlannerState R) (record : R) (val : UInt64) : PlannerState R :=
  { s with
    values := fun r => if r = record then HashSet.add (s.values r) val else s.values r }

def addDependence (s : PlannerState R) (id : Option R) (currrecord : R) (index : Nat) :
    PlannerState R :=
  match id with
  | some record => s.addRecordDepTable record currrecord index
  | none => s

def recordContext (s : PlannerState R) (currrecord : R) (rf addr : Option R)
    (mcids : List (Option R)) : PlannerState R :=
  let s := mcids.zipIdx.foldl
    (fun s p => s.addDependence p.1 currrecord (vcBaseIndex + p.2)) s
  let s := s.addDependence rf currrecord vcRfIndex
  s.addDependence addr currrecord vcAddrIndex

/-! ## Memory actions -/

def loadChanges (s : PlannerState R) (record : R) (addr : UInt64) : PlannerState R :=
  let s := s.getOrCreateCurrRecord record
  let s := s.recordLoadChange record addr
  s.addLoadTable addr record

def load (s : PlannerState R) (record : R) (addr : UInt64) (rf idAddr : Option R) :
    PlannerState R :=
  (s.loadChanges record addr).recordContext record rf idAddr []

def storeChanges (s : PlannerState R) (record : R) (addr val : UInt64) (len : Nat) :
    PlannerState R :=
  let s := s.getOrCreateCurrRecord record
  let s := s.recordStoreChange record addr val
  let s := s.addStoreTable addr record
  s.addEPValue record (keepbytes val len)

def store (s : PlannerState R) (record : R) (addr val : UInt64) (len : Nat)
    (idAddr idValue : Option R) : PlannerState R :=
  (s.storeChanges record addr val len).recordContext record none idAddr [idValue]

def rmwChanges (s : PlannerState R) (record : R) (addr : UInt64) (len : Nat)
    (currval oldval valarg : UInt64) : PlannerState R :=
  let newval := dormwaction (info record).op len currval oldval valarg
  let s := s.getOrCreateCurrRecord record
  let s := s.recordRMWChange info record addr valarg oldval newval
  let s := s.addLoadTable addr record
  s.addStoreTable addr record

def rmwOperands (record : R) (idValue idOldvalue : Option R) : List (Option R) :=
  if (info record).op = .add then [idValue] else [idValue, idOldvalue]

def rmw (s : PlannerState R) (record : R) (addr : UInt64) (len : Nat)
    (currval oldval valarg : UInt64) (rf idAddr idValue idOldvalue : Option R) :
    PlannerState R :=
  (s.rmwChanges info record addr len currval oldval valarg).recordContext record rf idAddr
    (rmwOperands info record idValue idOldvalue)

/-! ## Functions -/

def getReturnValueSet (s : PlannerState R) (record : R) : List UInt64 :=
  match (info record).returnValueIndex? with
  | some index => s.sets record index
  | none => []

/-- A new record of a shared function starts with the values its inputs return. -/
def copyInputs (s : PlannerState R) (record : R) (inputs : List R) : PlannerState R :=
  inputs.zipIdx.foldl (fun s p =>
    (s.getReturnValueSet info p.1).foldl
      (fun s val => s.addValue record (vcBaseIndex + p.2) val) s) s

def addSharedFunction (s : PlannerState R) (record : R) : PlannerState R :=
  { s with
    sharedfuncrecords := fun id =>
      if id = (info record).functionId then HashSet.add (s.sharedfuncrecords id) record
      else s.sharedfuncrecords id }

def addGoal (s : PlannerState R) (record : R) (goal : CGoal) : PlannerState R :=
  if (info record).isSharedGoals then
    { s with
      sharedgoals := fun id =>
        if id = (info record).functionId then s.sharedgoals id ++ [goal]
        else s.sharedgoals id }
  else
    { s with goals := fun r => if r = record then s.goals r ++ [goal] else s.goals r }

def functionChanges (s : PlannerState R) (record : R) (inputs : List R) : PlannerState R :=
  let isNew := record ∉ s.eptable
  let s := s.getOrCreateCurrRecord record
  if isNew ∧ (info record).isSharedGoals then
    let s := s.addSharedFunction info record
    let s := s.copyInputs info record inputs
    (s.completedGoalSet info record).foldl (fun s goal => s.evalGoal record goal) s
  else s

/-- A goal reached for the first time gives its output to every function that shares it. -/
def functionOutput (s : PlannerState R) (record : R) (goal : CGoal) : PlannerState R :=
  if (s.completedGoalSet info record).any fun g => g.inputs == goal.inputs then s
  else
    let s := s.addGoal info record goal
    let s := s.recordFunctionChange record goal.output
    if (info record).isSharedGoals then
      (s.sharedfuncrecords (info record).functionId).foldl
        (fun s func => if func = record then s else s.evalGoal func goal) s
    else s

def function (s : PlannerState R) (record : R) (inputs : List (R × UInt64)) (len : Nat)
    (val : UInt64) : PlannerState R :=
  let s := s.functionChanges info record (inputs.map Prod.fst)
  let s := s.recordContext record none none (inputs.map fun p => some p.1)
  s.functionOutput info record ⟨inputs.map Prod.snd, val &&& getmask len⟩

def phi (s : PlannerState R) (record input : R) : PlannerState R :=
  (s.getOrCreateCurrRecord record).recordContext record none none [some input]

/-- Both outcomes are outputs of a new comparison; operands without MCID are constants. -/
def equalsOutput (s : PlannerState R) (isNew : Bool) (record : R) (op1 op2 : Option R)
    (val1 val2 : UInt64) : PlannerState R :=
  let s := if isNew then (s.recordFunctionChange record 0).recordFunctionChange record 1 else s
  let s := if op1 = none then s.addValue record vcBaseIndex val1 else s
  if op2 = none then s.addValue record (vcBaseIndex + 1) val2 else s

def equals (s : PlannerState R) (record : R) (op1 op2 : Option R) (val1 val2 : UInt64) :
    PlannerState R :=
  let isNew := record ∉ s.eptable
  let s := s.getOrCreateCurrRecord record
  let s := s.recordContext record none none [op1, op2]
  s.equalsOutput isNew record op1 op2 val1 val2

def branchDir (s : PlannerState R) (record : R) (dirid : Option R) : PlannerState R :=
  (s.getOrCreateCurrRecord record).recordContext record none none [dirid]

end PlannerState

inductive Call (R : Type) where
  | load (record : R) (addr : UInt64) (rf idAddr : Option R)
  | store (record : R) (addr val : UInt64) (len : Nat) (idAddr idValue : Option R)
  | rmw (record : R) (addr : UInt64) (len : Nat) (currval oldval valarg : UInt64)
      (rf idAddr idValue idOldvalue : Option R)
  | function (record : R) (inputs : List (R × UInt64)) (len : Nat) (val : UInt64)
  | phi (record input : R)
  | equals (record : R) (op1 op2 : Option R) (val1 val2 : UInt64)
  | branchDir (record : R) (dirid : Option R)

namespace Call

variable {R : Type} [DecidableEq R] (info : R → RecordInfo)

/-- The record at the execution point is one of the call's own kind. -/
def OnOwnRecord : Call R → Prop
  | load record .. => (info record).event = .load
  | store record .. => (info record).event = .store
  | rmw record .. => (info record).event = .rmw
  | function record .. => (info record).event = .function ∧ (info record).phi = false
  | phi record _ => (info record).event = .function ∧ (info record).phi = true
  | equals record .. => (info record).event = .equals
  | branchDir record _ => (info record).event = .branchdir

def exec (s : PlannerState R) : Call R → PlannerState R
  | load record addr rf idAddr => s.load record addr rf idAddr
  | store record addr val len idAddr idValue => s.store record addr val len idAddr idValue
  | rmw record addr len currval oldval valarg rf idAddr idValue idOldvalue =>
      s.rmw info record addr len currval oldval valarg rf idAddr idValue idOldvalue
  | function record inputs len val => s.function info record inputs len val
  | phi record input => s.phi record input
  | equals record op1 op2 val1 val2 => s.equals record op1 op2 val1 val2
  | branchDir record dirid => s.branchDir record dirid

end Call

/-- The states after any calls of any runs, with `processChanges` run to its end in
between. -/
inductive PlannerReachable {R : Type} [DecidableEq R] (info : R → RecordInfo) :
    PlannerState R → Prop
  | empty : PlannerReachable info .empty
  | call {s : PlannerState R} (h : PlannerReachable info s) (call : Call R)
      (hown : call.OnOwnRecord info) : PlannerReachable info (call.exec info s)
  | processChanges {s s' : PlannerState R} (h : PlannerReachable info s) (fuel : Nat)
      (hrun : s.processChanges info fuel = some s') : PlannerReachable info s'

end SatCheck
