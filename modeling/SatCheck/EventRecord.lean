import Mathlib.Algebra.GroupWithZero.Nat
import Mathlib.Data.List.Basic
/-!
# Event records

The kinds of events and the fields of `EPRecord` that are fixed when a record is
created.  `setarray` has one slot per `VC_*` index.
-/

namespace SatCheck

/-! The records of a small run are numbered by `Fin n`. -/

namespace FewRecords

scoped instance neZeroTwo : NeZero 2 := ⟨by decide⟩

scoped instance neZeroThree : NeZero 3 := ⟨by decide⟩

scoped instance neZeroFour : NeZero 4 := ⟨by decide⟩

scoped instance neZeroFive : NeZero 5 := ⟨by decide⟩

end FewRecords

inductive EventType where
  | load | store | rmw | branchdir | merge | function | threadcreate | threadbegin
  | nonlocaltrans | loopexit | label | yield | threadjoin | loopenter | loopstart | alloc
  | equals | fence
  deriving DecidableEq, Repr

inductive AtomicOp where
  | add
  | cas
  | exc
  deriving DecidableEq, Repr

@[match_pattern] abbrev vcAddrIndex : Nat := 0
@[match_pattern] abbrev vcRfIndex : Nat := 1
@[match_pattern] abbrev vcBaseIndex : Nat := 2
@[match_pattern] abbrev vcOldvalcasIndex : Nat := 3
@[match_pattern] abbrev vcRmwoutIndex : Nat := 4
@[match_pattern] abbrev vcValoutIndex : Nat := 5
@[match_pattern] abbrev vcFuncoutIndex : Nat := 1

/-- `functionId` is the identifier of an uninterpreted function; two records of one
nonzero identifier share their goals. -/
structure RecordInfo where
  event : EventType
  offset : UInt64
  op : AtomicOp
  phi : Bool
  functionId : Nat
  deriving DecidableEq, Repr

namespace RecordInfo

def isSharedGoals (info : RecordInfo) : Bool := info.functionId != 0

/-- The index of `getStoreSet`. -/
def storeIndex (info : RecordInfo) : Nat :=
  if info.event = .rmw then vcRmwoutIndex else vcBaseIndex

theorem storeIndex_ne (info : RecordInfo) {index : Nat} (hbase : index ≠ vcBaseIndex)
    (hrmw : index ≠ vcRmwoutIndex) : index ≠ info.storeIndex := by
  unfold storeIndex
  split_ifs
  · exact hrmw
  · exact hbase

/-- The index of `getReturnValueSet`, asserted to exist. -/
def returnValueIndex? (info : RecordInfo) : Option Nat :=
  match info.event with
  | .function | .equals => some vcFuncoutIndex
  | .rmw => some vcRmwoutIndex
  | .load => some vcRfIndex
  | _ => none

end RecordInfo

/-! ## Hash sets

`HashSet` keeps its keys in the order of insertion. -/

namespace HashSet

variable {α : Type*} [DecidableEq α]

/-- `HashSet::add`, without the returned flag `key ∉ set`. -/
def add (set : List α) (key : α) : List α :=
  if key ∈ set then set else set ++ [key]

@[simp] theorem mem_add {set : List α} {key x : α} : x ∈ add set key ↔ x ∈ set ∨ x = key := by
  unfold add
  split_ifs with h
  · constructor
    · exact .inl
    · rintro (hx | rfl)
      · exact hx
      · exact h
  · simp

theorem add_of_mem {set : List α} {key : α} (h : key ∈ set) : add set key = set := if_pos h

theorem mem_foldl_add {β : Type*} (f : β → α) (xs : List β) (set : List α) (x : α) :
    x ∈ xs.foldl (fun set y => add set (f y)) set ↔ x ∈ set ∨ ∃ y ∈ xs, f y = x := by
  induction xs generalizing set with
  | nil => simp
  | cons y xs ih =>
    rw [List.foldl_cons, ih, mem_add, List.exists_mem_cons_iff, or_assoc, eq_comm (a := x)]

end HashSet

end SatCheck
