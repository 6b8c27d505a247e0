import SatCheck.ProcessMemory
/-!
# What memory actions do

The operands of a memory action are constants or what other records return, and they say where it
acts and what it writes.  The constraints look the operands up in the recorded sets.  They say the
same where the sets have the operands and no value is taken for another one.
-/

namespace SatCheck

open Constraint

namespace EncodingTables

variable {R : Type} (t : EncodingTables R) (returns : R → UInt64 → Prop)

/-- The encodings that hold when the records return these values. -/
def TakesOf (src : R) (w : UInt64) : Prop := ∃ v, returns src v ∧ (w = v ∨ t.TakenFor src w v)

/-- Every record returns one value at most, and one that it can encode. -/
structure Returning : Prop where
  unique : ∀ src v w, returns src v → returns src w → v = w
  encodable : ∀ src v, returns src v → t.Encodable src v

/-- No value of the set is taken for another one that the source returns. -/
def Untaken (src : R) (set : List UInt64) : Prop :=
  ∀ v, returns src v → ∀ w ∈ set, ¬ t.TakenFor src w v

/-- The set has what the source returns, and no other value of it is taken for that. -/
def Registers (src : R) (set : List UInt64) : Prop :=
  (∀ v, returns src v → v ∈ set) ∧ t.Untaken returns src set

/-- The value of an operand: the constant, or what its source returns. -/
def OperandIs (record : R) (index : Nat) (consts : List UInt64) (val : UInt64) : Prop :=
  match t.getRevDependences record index with
  | none => consts.head? = some val
  | some src => returns src val

variable {t returns} {record src : R} {set consts : List UInt64} {index : Nat} {v w : UInt64}

theorem OperandIs.unique (h : t.Returning returns) (hv : t.OperandIs returns record index consts v)
    (hw : t.OperandIs returns record index consts w) : v = w := by
  unfold OperandIs at hv hw
  split at hv
  next hdep =>
    rw [hdep] at hw
    exact Option.some.inj (hv.symm.trans hw)
  next src hdep =>
    rw [hdep] at hw
    exact h.unique src v w hv hw

end EncodingTables

namespace MemoryTables

variable {R : Type} (t : MemoryTables R) (returns : R → UInt64 → Prop)

def AddressIs (record : R) (addr : UInt64) : Prop :=
  match t.getRevDependences record vcAddrIndex with
  | none => t.getAddr record = addr
  | some src => ∃ v, returns src v ∧ addr = v + (t.info record).offset

def OldIs (record : R) (old : UInt64) : Prop :=
  t.OperandIs returns record vcOldvalcasIndex (t.getSet record vcOldvalcasIndex) old

/-- Only a CAS that does not read its old operand leaves the other one aside. -/
def UsesOperand (record : R) (m : UInt64) : Prop :=
  (t.info record).op = .cas → t.OldIs returns record m

/-- An action that reads `m` writes `n`: a store its operand, and an RMW what `dormwaction` makes
of it where that is known. -/
def Written (record : R) (m n : UInt64) : Prop :=
  match (t.info record).event with
  | .store => ∀ val, t.OperandIs returns record vcBaseIndex (t.valuevector record) val → n = val
  | .rmw => ∀ old val, ((t.info record).op = .cas → t.OldIs returns record old) →
      (t.UsesOperand returns record m →
        t.OperandIs returns record vcBaseIndex (t.getSet record vcBaseIndex) val) →
      PlannerState.dormwaction (t.info record).op (t.getLen record) m old val ∈
          t.getValues (t.getStoreLoadSet record) →
        n = PlannerState.dormwaction (t.info record).op (t.getLen record) m old val
  | _ => True

/-- No sum that a fetch-and-add can write is known. -/
def SumUnknown (record : R) (m : UInt64) : Prop :=
  ∀ val, t.OperandIs returns record vcBaseIndex (t.getSet record vcBaseIndex) val →
    t.sum record m val ∉ t.getValues (t.getStoreLoadSet record)

/-- The value has no more bytes than the record. -/
def Fits (record : R) (val : UInt64) : Prop :=
  val &&& PlannerState.getmask (t.getLen record) = val

variable {t returns} {record src : R} {m n o : UInt64} {addr val : UInt64} {consts : List UInt64}

end MemoryTables

end SatCheck
