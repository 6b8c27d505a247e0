import SatCheck.PlannerCalls
import SatCheck.Library.ByteMemory
/-!
# The store buffer

`store`, `load` and `doStore` of the TSO build, as far as they touch the memory and
the buffer of the running thread.  A load looks for the last buffered store to its
own address and for nothing else.
-/

namespace SatCheck

namespace StoreBuffer

open ByteMemory PlannerState

/-- The lengths the `switch` statements know, those of the types `uint8_t` to `uint64_t`. -/
inductive AccessLen where
  | one
  | two
  | four
  | eight
  deriving DecidableEq, Repr

def AccessLen.bytes : AccessLen → Nat
  | one => 1
  | two => 2
  | four => 4
  | eight => 8

/-- What the buffer keeps of an `EPValue`. -/
structure BufferedStore where
  addr : Nat
  value : UInt64
  len : AccessLen
  deriving DecidableEq, Repr

/-- The constructor of `EPValue`. -/
def BufferedStore.new (addr : Nat) (ivalue : UInt64) (ilen : AccessLen) : BufferedStore :=
  ⟨addr, keepbytes ivalue ilen.bytes, ilen⟩

def store (buffer : List BufferedStore) (addr : Nat) (val : UInt64) (len : AccessLen) :
    List BufferedStore :=
  buffer ++ [.new addr val len]

def doStore (memory : Memory) (epval : BufferedStore) : Memory :=
  write memory epval.addr epval.len.bytes epval.value.toNat

/-- `doStore` on the front of the buffer until it is empty. -/
def drain (memory : Memory) : List BufferedStore → Memory
  | [] => memory
  | epval :: buffer => drain (doStore memory epval) buffer

/-- `*(uint8_t *) addr` to `*(uint64_t *) addr`. -/
def readMemory (memory : Memory) (addr : Nat) (len : AccessLen) : UInt64 :=
  UInt64.ofNat (read memory addr len.bytes)

def lastSame (buffer : List BufferedStore) (addr : Nat) : Option BufferedStore :=
  buffer.reverse.find? fun epval => epval.addr == addr

def load (memory : Memory) (buffer : List BufferedStore) (addr : Nat) (len : AccessLen) :
    UInt64 :=
  match lastSame buffer addr with
  | some epval => epval.value
  | none => readMemory memory addr len

/-! ## When the load sees the drained memory -/

def BufferedStore.covers (e : BufferedStore) (b : Nat) : Bool :=
  e.addr ≤ b && b < e.addr + e.len.bytes

def BufferedStore.byteAt (e : BufferedStore) (b : Nat) : UInt8 := byte e.value.toNat (b - e.addr)

def lastCovering (buffer : List BufferedStore) (b : Nat) : Option BufferedStore :=
  buffer.reverse.find? (·.covers b)

/-- The byte that the last store covering it writes, or that of the memory if none does. -/
def lastByte (memory : Memory) (buffer : List BufferedStore) (b : Nat) : UInt8 :=
  match lastCovering buffer b with
  | some e => e.byteAt b
  | none => memory b

/-- The last store to the load's address fits the load, and the last byte written at each place
of the load is the one of that store; without such a store it is the one of the memory. -/
def Forwards (memory : Memory) (buffer : List BufferedStore) (addr : Nat) (len : AccessLen) :
    Prop :=
  match lastSame buffer addr with
  | some s => s.value.toNat < 256 ^ len.bytes ∧
      ∀ i < len.bytes, lastByte memory buffer (addr + i) = byte s.value.toNat i
  | none => ∀ i < len.bytes, lastByte memory buffer (addr + i) = memory (addr + i)

instance (memory : Memory) (buffer : List BufferedStore) (addr : Nat) (len : AccessLen) :
    Decidable (Forwards memory buffer addr len) := by
  unfold Forwards
  cases lastSame buffer addr <;> exact inferInstance

variable {memory : Memory} {buffer : List BufferedStore} {addr b : Nat} {len : AccessLen}
variable {e : BufferedStore}

private theorem covers_iff : e.covers b = true ↔ e.addr ≤ b ∧ b < e.addr + e.len.bytes := by
  simp [BufferedStore.covers]

private theorem doStore_apply :
    doStore memory e b = if e.covers b then e.byteAt b else memory b := by
  by_cases h : e.covers b = true
  · rw [if_pos h]
    exact write_of_covered (covers_iff.mp h)
  · rw [if_neg h]
    exact write_of_not_covered fun hcov => h (covers_iff.mpr hcov)

private theorem lastCovering_append (buffer rest : List BufferedStore) (b : Nat) :
    lastCovering (buffer ++ rest) b = (lastCovering rest b).or (lastCovering buffer b) := by
  unfold lastCovering
  rw [List.reverse_append, List.find?_append]

private theorem lastCovering_cons (e : BufferedStore) (buffer : List BufferedStore) (b : Nat) :
    lastCovering (e :: buffer) b =
      (lastCovering buffer b).or (if e.covers b then some e else none) := by
  rw [show e :: buffer = [e] ++ buffer from rfl, lastCovering_append]
  congr 1
  simp only [lastCovering, List.reverse_singleton, List.find?_cons, List.find?_nil]
  cases e.covers b <;> rfl

private theorem drain_apply (memory : Memory) (buffer : List BufferedStore) (b : Nat) :
    drain memory buffer b = lastByte memory buffer b := by
  induction buffer generalizing memory with
  | nil => rfl
  | cons e buffer ih =>
    rw [show drain memory (e :: buffer) = drain (doStore memory e) buffer from rfl, ih]
    unfold lastByte
    rw [lastCovering_cons]
    cases lastCovering buffer b with
    | some e' => rfl
    | none =>
      show doStore memory e b = _
      rw [doStore_apply]
      cases e.covers b <;> rfl

private theorem pow_bytes_le (len : AccessLen) : 256 ^ len.bytes ≤ UInt64.size := by
  cases len <;> decide

theorem readMemory_toNat (memory : Memory) (addr : Nat) (len : AccessLen) :
    (readMemory memory addr len).toNat = read memory addr len.bytes := by
  have hlt := read_lt memory addr len.bytes
  have hle := pow_bytes_le len
  exact UInt64.toNat_ofNat_of_lt' (Nat.lt_of_lt_of_le hlt hle)

theorem eq_readMemory_iff {val : UInt64} : val = readMemory memory addr len ↔
    val.toNat < 256 ^ len.bytes ∧ ∀ i < len.bytes, memory (addr + i) = byte val.toNat i := by
  rw [← UInt64.toNat_inj, readMemory_toNat, ← read_eq_iff]
  exact eq_comm

/-- A load returns what it would read after the drain exactly when the last store to its
address, or the memory, gives every byte its last value. -/
theorem load_eq_readMemory_drain_iff (memory : Memory) (buffer : List BufferedStore) (addr : Nat)
    (len : AccessLen) :
    load memory buffer addr len = readMemory (drain memory buffer) addr len ↔
      Forwards memory buffer addr len := by
  unfold load Forwards
  cases lastSame buffer addr with
  | some s => simp only [eq_readMemory_iff, drain_apply]
  | none =>
    rw [eq_readMemory_iff]
    simp only [readMemory_toNat, drain_apply]
    constructor
    · rintro ⟨-, hbytes⟩ i hi
      rw [hbytes i hi, byte_read hi]
    · intro hbytes
      refine ⟨read_lt memory addr len.bytes, ?_⟩
      intro i hi
      rw [hbytes i hi, byte_read hi]

/-- One byte is stored at an address whose next byte is not zero, and both are loaded. -/
theorem not_load_eq_readMemory_drain :
    ¬ ∀ (memory : Memory) (buffer : List BufferedStore) (addr : Nat) (len : AccessLen),
      load memory buffer addr len = readMemory (drain memory buffer) addr len := by
  intro h
  exact absurd (h (fun _ => 0x22) (store [] 4096 0x11 .one) 4096 .two) (by decide)

end StoreBuffer

end SatCheck
