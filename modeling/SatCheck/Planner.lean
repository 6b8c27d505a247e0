import SatCheck.EventRecord
/-!
# The planner

Value sets, dependences and the worklist of `Planner`, with the calls of
`MCExecution` that feed it.  A record stands for the `EPRecord` found at an
execution point; `info` gives the fields fixed at its creation.  Iterators read a
snapshot here: no loop below changes the set it runs over.
-/

namespace SatCheck

structure MCChange (R : Type) where
  record : R
  value : UInt64
  index : Nat
  deriving DecidableEq, Repr

instance {R : Type} [DecidableEq R] : LawfulBEq (MCChange R) := inferInstance

/-- A goal of a function: its inputs with the output seen for them.  `CGoalEquals`
compares the inputs only. -/
structure CGoal where
  inputs : List UInt64
  output : UInt64
  deriving DecidableEq, Repr

/-- `CGoal::getValue`; the slots below `VC_BASEINDEX` are 0. -/
def CGoal.getValue (goal : CGoal) (index : Nat) : UInt64 :=
  if index < vcBaseIndex then 0 else goal.inputs.getD (index - vcBaseIndex) 0

structure PlannerState (R : Type) where
  eptable : List R
  sets : R → Nat → List UInt64
  values : R → List UInt64
  loadtable : UInt64 → List R
  storetable : UInt64 → List R
  eprecorddep : R → List (R × Nat)
  goals : R → List CGoal
  sharedgoals : Nat → List CGoal
  sharedfuncrecords : Nat → List R
  changeset : List (MCChange R)
  completedset : List (MCChange R)

namespace PlannerState

variable {R : Type} [DecidableEq R] (info : R → RecordInfo)

def empty : PlannerState R where
  eptable := []
  sets _ _ := []
  values _ := []
  loadtable _ := []
  storetable _ := []
  eprecorddep _ := []
  goals _ := []
  sharedgoals _ := []
  sharedfuncrecords _ := []
  changeset := []
  completedset := []

/-! ## Sets and tables -/

def addValue (s : PlannerState R) (record : R) (index : Nat) (val : UInt64) : PlannerState R :=
  { s with
    sets := fun r i =>
      if r = record ∧ i = index then HashSet.add (s.sets r i) val else s.sets r i }

def addLoadTable (s : PlannerState R) (addr : UInt64) (record : R) : PlannerState R :=
  { s with
    loadtable := fun a =>
      if a = addr then HashSet.add (s.loadtable a) record else s.loadtable a }

def addStoreTable (s : PlannerState R) (addr : UInt64) (record : R) : PlannerState R :=
  { s with
    storetable := fun a =>
      if a = addr then HashSet.add (s.storetable a) record else s.storetable a }

def addRecordDepTable (s : PlannerState R) (record deprecord : R) (index : Nat) :
    PlannerState R :=
  { s with
    eprecorddep := fun r =>
      if r = record then HashSet.add (s.eprecorddep r) (deprecord, index)
      else s.eprecorddep r }

def addChange (s : PlannerState R) (change : MCChange R) : PlannerState R :=
  { s with changeset := HashSet.add s.changeset change }

def compatibleStoreLoad (store load : R) : Bool := store ≠ load

def getStoreSet (s : PlannerState R) (record : R) : List UInt64 :=
  s.sets record (info record).storeIndex

def completedGoalSet (s : PlannerState R) (record : R) : List CGoal :=
  if (info record).isSharedGoals then s.sharedgoals (info record).functionId
  else s.goals record

/-! ## Changes recorded by running code -/

/-- A value running code adds to a slot, with its change when it is new. -/
def recordNewValue (s : PlannerState R) (record : R) (index : Nat) (val : UInt64) :
    PlannerState R :=
  if val ∈ s.sets record index then s
  else (s.addValue record index val).addChange ⟨record, val, index⟩

def recordFunctionChange (s : PlannerState R) (function : R) (val : UInt64) : PlannerState R :=
  s.recordNewValue function vcFuncoutIndex val

def recordLoadChange (s : PlannerState R) (load : R) (addr : UInt64) : PlannerState R :=
  s.recordNewValue load vcAddrIndex addr

/-- `hasValue` looks at the recorded `EPValue`s, not at the value set. -/
def recordStoreChange (s : PlannerState R) (store : R) (addr val : UInt64) : PlannerState R :=
  let s := s.recordNewValue store vcAddrIndex addr
  if val ∈ s.values store then s
  else (s.addValue store vcBaseIndex val).addChange ⟨store, val, vcBaseIndex⟩

def recordRMWChange (s : PlannerState R) (rmw : R) (addr valarg oldval newval : UInt64) :
    PlannerState R :=
  let s := s.recordNewValue rmw vcAddrIndex addr
  let s := s.addValue rmw vcBaseIndex valarg
  let s := if (info rmw).op = .cas then s.addValue rmw vcOldvalcasIndex oldval else s
  s.recordNewValue rmw vcRmwoutIndex newval

/-- `evalGoal`: with all inputs of the goal known the output is propagated. -/
def evalGoal (s : PlannerState R) (record : R) (goal : CGoal) : PlannerState R :=
  if goal.inputs.zipIdx.all fun p => p.1 ∈ s.sets record (vcBaseIndex + p.2) then
    s.recordFunctionChange record goal.output
  else s

/-! ## Registering values -/

def registerBranchValue (s : PlannerState R) (record : R) (val : UInt64) (index : Nat) :
    PlannerState R :=
  s.addValue record index val

def shiftAddress (record : R) (val : UInt64) (index : Nat) : UInt64 :=
  if index = vcAddrIndex then val + (info record).offset else val

def registerLoadValue (s : PlannerState R) (record : R) (val : UInt64) (index : Nat) :
    PlannerState R :=
  let val := shiftAddress info record val index
  if val ∈ s.sets record index then s
  else
    let s := s.addValue record index val
    match index with
    | vcAddrIndex => (s.addLoadTable val record).addChange ⟨record, val, vcAddrIndex⟩
    | vcRfIndex => s.addChange ⟨record, val, vcValoutIndex⟩
    | _ => s

def doRMWRFChange (s : PlannerState R) (record : R) (readval : UInt64) : PlannerState R :=
  let s := s.addChange ⟨record, readval, vcValoutIndex⟩
  if (info record).op = .cas then
    if readval ∈ s.getStoreSet info record then s
    else (s.addValue record (info record).storeIndex readval).addChange
      ⟨record, readval, vcRmwoutIndex⟩
  else s

def doRMWBaseChange (s : PlannerState R) (record : R) (baseval : UInt64) : PlannerState R :=
  if (info record).op = .cas then
    if baseval ∈ s.getStoreSet info record then s
    else (s.addValue record (info record).storeIndex baseval).addChange
      ⟨record, baseval, vcRmwoutIndex⟩
  else s

/-- `registerRMWValue` at `VC_RFINDEX`, where `doRMWNewAddrChange` calls it. -/
def registerRMWRead (s : PlannerState R) (record : R) (val : UInt64) : PlannerState R :=
  if val ∈ s.sets record vcRfIndex then s
  else (s.addValue record vcRfIndex val).doRMWRFChange info record val

def doRMWNewAddrChange (s : PlannerState R) (record : R) (val : UInt64) : PlannerState R :=
  let s := (s.addLoadTable val record).addStoreTable val record
  let s := s.addChange ⟨record, val, vcAddrIndex⟩
  (s.storetable val).foldl (fun s store =>
    if compatibleStoreLoad store record then
      (s.getStoreSet info store).foldl (fun s stval => s.registerRMWRead info record stval) s
    else s) s

def registerRMWValue (s : PlannerState R) (record : R) (val : UInt64) (index : Nat) :
    PlannerState R :=
  let val := shiftAddress info record val index
  if val ∈ s.sets record index then s
  else
    let s := s.addValue record index val
    match index with
    | vcAddrIndex => s.doRMWNewAddrChange info record val
    | vcRfIndex => s.doRMWRFChange info record val
    | vcBaseIndex => s.doRMWBaseChange info record val
    | _ => s

def registerStoreValue (s : PlannerState R) (record : R) (val : UInt64) (index : Nat) :
    PlannerState R :=
  let val := shiftAddress info record val index
  let isNew := val ∉ s.sets record index
  let s := s.addValue record index val
  match index with
  | vcAddrIndex =>
      let s := if isNew then s.addStoreTable val record else s
      s.addChange ⟨record, val, index⟩
  | vcBaseIndex => s.addChange ⟨record, val, index⟩
  | _ => s

def registerEqualsValue (s : PlannerState R) (record : R) (val : UInt64) (index : Nat) :
    PlannerState R :=
  s.addValue record index val

def registerFunctionValue (s : PlannerState R) (record : R) (val : UInt64) (index : Nat) :
    PlannerState R :=
  let newval := val ∉ s.sets record index
  let s := s.addValue record index val
  if (info record).phi then s.addChange ⟨record, val, vcFuncoutIndex⟩
  else if newval ∧ (info record).isSharedGoals then
    (s.completedGoalSet info record).foldl
      (fun s goal => if goal.getValue index = val then s.evalGoal record goal else s) s
  else s

def registerValue (s : PlannerState R) (record : R) (val : UInt64) (index : Nat) :
    PlannerState R :=
  match (info record).event with
  | .load => s.registerLoadValue info record val index
  | .rmw => s.registerRMWValue info record val index
  | .store => s.registerStoreValue info record val index
  | .function => s.registerFunctionValue info record val index
  | .equals => s.registerEqualsValue record val index
  | .branchdir => s.registerBranchValue record val index
  | _ => s

/-! ## Processing changes -/

def processNewReturnValue (s : PlannerState R) (change : MCChange R) : PlannerState R :=
  (s.eprecorddep change.record).foldl
    (fun s dep => s.registerValue info dep.1 change.value dep.2) s

def processNewLoadAddress (s : PlannerState R) (change : MCChange R) : PlannerState R :=
  (s.storetable change.value).foldl (fun s store =>
    if compatibleStoreLoad store change.record then
      (s.getStoreSet info store).foldl
        (fun s stval => s.registerValue info change.record stval vcRfIndex) s
    else s) s

def processNewStoreAddress (s : PlannerState R) (change : MCChange R) : PlannerState R :=
  (s.loadtable change.value).foldl (fun s load =>
    if compatibleStoreLoad change.record load then
      (s.getStoreSet info change.record).foldl
        (fun s val => s.registerValue info load val vcRfIndex) s
    else s) s

def processNewStoreValue (s : PlannerState R) (change : MCChange R) : PlannerState R :=
  (s.sets change.record vcAddrIndex).foldl (fun s addr =>
    (s.loadtable addr).foldl (fun s load =>
      if compatibleStoreLoad change.record load then
        s.registerValue info load change.value vcRfIndex
      else s) s) s

def processRMW (s : PlannerState R) (change : MCChange R) : PlannerState R :=
  match change.index with
  | vcAddrIndex => s.processNewStoreAddress info change
  | vcRmwoutIndex => s.processNewStoreValue info change
  | vcValoutIndex => s.processNewReturnValue info change
  | _ => s

def processLoad (s : PlannerState R) (change : MCChange R) : PlannerState R :=
  match change.index with
  | vcAddrIndex => s.processNewLoadAddress info change
  | vcValoutIndex => s.processNewReturnValue info change
  | _ => s

def processStore (s : PlannerState R) (change : MCChange R) : PlannerState R :=
  match change.index with
  | vcAddrIndex => s.processNewStoreAddress info change
  | vcBaseIndex => s.processNewStoreValue info change
  | _ => s

/-- The dispatch in the body of `processChanges`. -/
def processChange (s : PlannerState R) (change : MCChange R) : PlannerState R :=
  match (info change.record).event with
  | .function => s.processNewReturnValue info change
  | .equals => s.processNewReturnValue info change
  | .load => s.processLoad info change
  | .rmw => s.processRMW info change
  | .store => s.processStore info change
  | _ => s

def processNext (s : PlannerState R) (change : MCChange R) : PlannerState R :=
  let s := { s with changeset := s.changeset.erase change }
  if change ∈ s.completedset then s
  else
    let s := s.processChange info change
    { s with completedset := HashSet.add s.completedset change }

/-- `processChanges`, for at most `fuel` iterations. -/
def processChanges (s : PlannerState R) : Nat → Option (PlannerState R)
  | 0 => none
  | fuel + 1 =>
      match s.changeset with
      | [] => some { s with completedset := [] }
      | change :: _ => processChanges (s.processNext info change) fuel

end PlannerState

end SatCheck
