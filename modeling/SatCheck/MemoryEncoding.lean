import SatCheck.ReadsFrom
import SatCheck.MemoryMeaning
import SatCheck.ThreadOrder
/-!
# The encoding of all memory actions

The second traversal generates the constraints of one memory action after the other, each with new
variables of its own.  Where no action meets a slip of the constraints, they can be met exactly if
every action does what the memory and its operands say: a load reads the latest store, and a store
writes its operand.
-/

namespace SatCheck

open Constraint MemoryTables

namespace ReadTables

variable (t : ReadTables) {ι : Type*} [LinearOrder ι]

/-- The latest of the executed stores to the address of the load that precede it. -/
structure Latest (executed : ExecPoint → Prop) (place : ExecPoint → ι)
    (addrOf : ExecPoint → UInt64) (load store : ExecPoint) : Prop where
  memory : t.IsMemory store
  isStore : (t.info store).isStore
  isExecuted : executed store
  address : addrOf store = addrOf load
  before : place store < place load
  latest : ∀ other, t.IsMemory other → (t.info other).isStore → executed other →
    addrOf other = addrOf load → place other < place load → place other ≤ place store

/-- The action does what its constraints say. -/
structure EncodedAction (executed : ExecPoint → Prop) (takes : ExecPoint → UInt64 → Prop)
    (place : ExecPoint → ι) (addrOf readOf writeOf : ExecPoint → UInt64) (record : ExecPoint) :
    Prop where
  address : ∀ addr, t.EncodedAddress takes record addr → addrOf record = addr
  reads : (t.info record).isLoad → executed record →
    ∃ store, t.Latest executed place addrOf record store ∧ writeOf store = readOf record
  writes : t.EncodedWrite takes record (readOf record) (writeOf record)

/-- The action does what the memory and its operands say. -/
structure Performs (executed : ExecPoint → Prop) (returns : ExecPoint → UInt64 → Prop)
    (place : ExecPoint → ι) (addrOf readOf writeOf : ExecPoint → UInt64) (record : ExecPoint) :
    Prop where
  address : ∀ addr, t.AddressIs returns record addr → addrOf record = addr
  reads : (t.info record).isLoad → executed record →
    ∃ store, t.Latest executed place addrOf record store ∧ writeOf store = readOf record
  writes : t.Written returns record (readOf record) (writeOf record)

def SumUnencoded (takes : ExecPoint → UInt64 → Prop) (record : ExecPoint) (m : UInt64) : Prop :=
  ∀ val, t.EncodedOperand takes record (t.getSet record vcBaseIndex) val →
    t.sum record m val ∉ t.getValues (t.getStoreLoadSet record)

/-- A memory action of the graph whose values are recorded. -/
structure RecordedAction (record : ExecPoint) : Prop where
  memory : t.IsMemory record
  recorded : t.Recorded record
  mayRead : (t.info record).isLoad → t.getMayReadFromSet record ≠ []

variable {t} {ρ ρ' : Nat → Bool} {record load store : ExecPoint} {place : ExecPoint → ι}
  {addrOf readOf writeOf : ExecPoint → UInt64} {addr : UInt64}

/-! ## One action -/

theorem RecordedAction.cases (h : t.RecordedAction record) : (t.info record).event = .load ∨
    (t.info record).event = .store ∨ (t.info record).event = .rmw := by
  rcases h.memory.kind with (h | h) | h | h
  · exact .inl h
  · exact .inr (.inr h)
  · exact .inr (.inl h)
  · exact .inr (.inr h)

theorem SubsumptionSound.congr (hsound : t.SubsumptionSound ρ)
    (hagree : ∀ v, decide (v < t.varindex) = true → ρ v = ρ' v) : t.SubsumptionSound ρ' :=
  fun k c hk hc =>
    (executed_congr hagree k).mp (hsound k c hk ((executed_congr hagree c).mpr hc))

private theorem executed_eq (hagree : ∀ v, decide (v < t.varindex) = true → ρ v = ρ' v) :
    t.Executed ρ = t.Executed ρ' := by
  ext record
  exact executed_congr hagree record

theorem EncodedAction.congr
    (h : t.EncodedAction (t.Executed ρ) (t.Takes ρ) place addrOf readOf writeOf record)
    (hagree : ∀ v, decide (v < t.varindex) = true → ρ v = ρ' v) :
    t.EncodedAction (t.Executed ρ') (t.Takes ρ') place addrOf readOf writeOf record := by
  rwa [← executed_eq hagree, ← t.taken.takes_eq hagree]

private theorem lt_of_taken {n : Nat} (h : t.varindex ≤ n) (v : Nat)
    (hv : decide (v < t.varindex) = true) : decide (v < n) = true :=
  decide_eq_true ((of_decide_eq_true hv).trans_le h)

/-- The tables when all variables below `n` are taken. -/
def withTaken (t : ReadTables) {n : Nat} (h : t.varindex ≤ n) : ReadTables :=
  { t with
    varindex := n
    taken :=
      { equals := fun r => lt_of_taken h _ (t.taken.equals r)
        functions := fun r v hv => lt_of_taken h v (t.taken.functions r v hv)
        values := fun r v hv => lt_of_taken h v (t.taken.values r v hv)
        reads := fun r v hv => lt_of_taken h v (t.taken.reads r v hv)
        branches := fun r v hv => lt_of_taken h v (t.taken.branches r v hv)
        addresses := fun r v hv => lt_of_taken h v (t.taken.addresses r v hv)
        order := fun first second =>
          varsAll_mono (lt_of_taken h) _ (t.taken.order first second) } }

section

variable {n : Nat} (hle : t.varindex ≤ n)

include hle

theorem isMemory_withTaken : (t.withTaken hle).IsMemory record ↔ t.IsMemory record :=
  ⟨fun h => ⟨h.kind, h.recorded⟩, fun h => ⟨h.kind, h.recorded⟩⟩

theorem RecordedAction.withTaken (h : t.RecordedAction record) :
    (t.withTaken hle).RecordedAction record where
  memory := (isMemory_withTaken hle).mpr h.memory
  recorded := ⟨h.recorded.addresses, h.recorded.addr, h.recorded.stored, h.recorded.value,
    h.recorded.operand, h.recorded.old⟩
  mayRead := h.mayRead

theorem Chosen.withTaken (h : t.Chosen ρ place addrOf readOf writeOf) :
    (t.withTaken hle).Chosen ρ place addrOf readOf writeOf where
  order a b ha hb := h.order a b ((isMemory_withTaken hle).mp ha) ((isMemory_withTaken hle).mp hb)
  strict a b ha hb :=
    h.strict a b ((isMemory_withTaken hle).mp ha) ((isMemory_withTaken hle).mp hb)
  recorded r hr := h.recorded r ((isMemory_withTaken hle).mp hr)
  address r hr := h.address r ((isMemory_withTaken hle).mp hr)
  written r hr := h.written r ((isMemory_withTaken hle).mp hr)
  read r hr := h.read r ((isMemory_withTaken hle).mp hr)

end

/-! ## The second traversal -/

variable {visits : List OrderTable.Visit} {n : Nat}

open ConstGen (inOrder lastCount)

section

variable {executed : ExecPoint → Prop} {returns : ExecPoint → UInt64 → Prop} {r : ExecPoint}

end

end ReadTables

end SatCheck
