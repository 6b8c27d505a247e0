import Mathlib.Data.List.Basic
/-!
# Execution points

`ExecPoint` of `execpoint.h`: the thread and the stack of (type, value) pairs,
bottom first, that number an event of the thread.  The array capacity and the
cached hash are left out.  A value is an `unsigned int` in the source and a `Nat` here:
no thread takes 2^32 steps in one body of a loop or goes round a loop as often.  The
words of 32 bits are those of `PointHash`.
-/

namespace SatCheck

inductive ExecPointType where
  | branch
  | counter
  | loop
  deriving DecidableEq, Repr

inductive CompareResult where
  | before
  | after
  | equals
  | incomparable
  deriving DecidableEq, Repr

structure ExecPoint where
  tid : Nat
  pairs : List (ExecPointType × Nat)
  deriving DecidableEq, Repr

namespace ExecPoint

/-- The loop of `ExecPoint::compare`, from the bottom of both stacks. -/
def comparePairs : List (ExecPointType × Nat) → List (ExecPointType × Nat) → CompareResult
  | [], [] => .equals
  | [], _ :: _ => .after
  | _ :: _, [] => .before
  | (type, value) :: ps, (_, value') :: qs =>
      if value ≠ value' then
        if type = .branch then .incomparable
        else if value < value' then .after
        else .before
      else comparePairs ps qs

/-- `CR_AFTER` says that `ep` occurs after `this`.  The threads are not compared. -/
def compare (this ep : ExecPoint) : CompareResult :=
  comparePairs this.pairs ep.pairs

def push (ep : ExecPoint) (type : ExecPointType) (value : Nat) : ExecPoint :=
  { ep with pairs := ep.pairs ++ [(type, value)] }

def pop (ep : ExecPoint) : ExecPoint :=
  { ep with pairs := ep.pairs.dropLast }

def incrementTop (ep : ExecPoint) : ExecPoint :=
  { ep with
    pairs := match ep.pairs.getLast? with
      | none => []
      | some (type, value) => ep.pairs.dropLast ++ [(type, value + 1)] }

def getSize (ep : ExecPoint) : Nat := ep.pairs.length

/-- Pops until `size` entries are left. -/
def rollback (ep : ExecPoint) (size : Nat) : ExecPoint :=
  { ep with pairs := ep.pairs.take size }

def getType (ep : ExecPoint) : Option ExecPointType :=
  ep.pairs.getLast?.map Prod.fst

def directInLoop (ep : ExecPoint) : Bool :=
  ep.pop.getType == some .loop

@[simp] theorem push_tid (ep : ExecPoint) (type : ExecPointType) (value : Nat) :
    (ep.push type value).tid = ep.tid := rfl

@[simp] theorem push_pairs (ep : ExecPoint) (type : ExecPointType) (value : Nat) :
    (ep.push type value).pairs = ep.pairs ++ [(type, value)] := rfl

@[simp] theorem pop_tid (ep : ExecPoint) : ep.pop.tid = ep.tid := rfl

@[simp] theorem pop_push (ep : ExecPoint) (type : ExecPointType) (value : Nat) :
    (ep.push type value).pop = ep := by
  simp [pop, push]

@[simp] theorem getType_push (ep : ExecPoint) (type : ExecPointType) (value : Nat) :
    (ep.push type value).getType = some type := by
  simp [getType]

@[simp] theorem incrementTop_push (ep : ExecPoint) (type : ExecPointType) (value : Nat) :
    (ep.push type value).incrementTop = ep.push type (value + 1) := by
  simp [incrementTop, push]

@[simp] theorem incrementTop_tid (ep : ExecPoint) : ep.incrementTop.tid = ep.tid := rfl

@[simp] theorem comparePairs_self (ps : List (ExecPointType × Nat)) :
    comparePairs ps ps = .equals := by
  induction ps with
  | nil => rfl
  | cons p ps ih => simp [comparePairs, ih]

@[simp] theorem compare_self (ep : ExecPoint) : ep.compare ep = .equals :=
  comparePairs_self ep.pairs

end ExecPoint

end SatCheck
