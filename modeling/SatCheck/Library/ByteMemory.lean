import Mathlib.Data.Nat.Basic
import Mathlib.Tactic.Ring
/-!
# Byte memories

Little-endian words in a memory of bytes: reading `len` bytes as a number, and
writing the lowest `len` bytes of a number.
-/

namespace ByteMemory

abbrev Memory := Nat → UInt8

/-- Byte `i` of a number, the lowest one first. -/
def byte (val i : Nat) : UInt8 := UInt8.ofNat (val / 256 ^ i)

def read (memory : Memory) (addr : Nat) : Nat → Nat
  | 0 => 0
  | len + 1 => (memory addr).toNat + 256 * read memory (addr + 1) len

def write (memory : Memory) (addr len val : Nat) : Memory := fun b =>
  if addr ≤ b ∧ b < addr + len then byte val (b - addr) else memory b

variable {memory : Memory} {addr len val : Nat}

theorem toNat_byte (val i : Nat) : (byte val i).toNat = val / 256 ^ i % 256 := by
  simp [byte]

theorem byte_zero_eq_iff {b : UInt8} : b = byte val 0 ↔ b.toNat = val % 256 := by
  rw [← UInt8.toNat_inj, toNat_byte, Nat.pow_zero, Nat.div_one]

theorem byte_succ (val i : Nat) : byte val (i + 1) = byte (val / 256) i := by
  unfold byte
  rw [Nat.pow_succ', Nat.div_div_eq_div_mul]

theorem write_of_covered {b : Nat} (h : addr ≤ b ∧ b < addr + len) :
    write memory addr len val b = byte val (b - addr) :=
  if_pos h

theorem write_of_not_covered {b : Nat} (h : ¬ (addr ≤ b ∧ b < addr + len)) :
    write memory addr len val b = memory b :=
  if_neg h

theorem read_lt (memory : Memory) (addr len : Nat) : read memory addr len < 256 ^ len := by
  induction len generalizing addr with
  | zero => simp [read]
  | succ len ih =>
    have hbyte := (memory addr).toNat_lt
    have hrest := ih (addr + 1)
    calc
      read memory addr (len + 1) = (memory addr).toNat + 256 * read memory (addr + 1) len := rfl
      _ < 256 * (read memory (addr + 1) len + 1) := by omega
      _ ≤ 256 * 256 ^ len := Nat.mul_le_mul_left 256 hrest
      _ = 256 ^ (len + 1) := by ring

/-- A word is determined by its bytes. -/
theorem read_eq_iff : read memory addr len = val ↔
    val < 256 ^ len ∧ ∀ i < len, memory (addr + i) = byte val i := by
  induction len generalizing addr val with
  | zero =>
    constructor
    · intro h
      exact ⟨by rw [← h]; simp [read], by simp⟩
    · intro h
      have := h.1
      simp only [Nat.pow_zero] at this
      simp only [read]
      omega
  | succ len ih =>
    have hbyte := (memory addr).toNat_lt
    have hsplit : read memory addr (len + 1) = val ↔
        memory addr = byte val 0 ∧ read memory (addr + 1) len = val / 256 := by
      rw [byte_zero_eq_iff]
      simp only [read]
      omega
    have hbound : val / 256 < 256 ^ len ↔ val < 256 ^ (len + 1) := by
      rw [Nat.div_lt_iff_lt_mul (by omega), Nat.pow_succ]
    rw [hsplit, ih, hbound]
    constructor
    · rintro ⟨hzero, hlt, hrest⟩
      refine ⟨hlt, ?_⟩
      intro i hi
      cases i with
      | zero => exact hzero
      | succ i =>
        rw [byte_succ, show addr + (i + 1) = addr + 1 + i by omega]
        exact hrest i (by omega)
    · rintro ⟨hlt, hall⟩
      refine ⟨hall 0 (by omega), hlt, ?_⟩
      intro i hi
      rw [← byte_succ, show addr + 1 + i = addr + (i + 1) by omega]
      exact hall (i + 1) (by omega)

theorem byte_read {i : Nat} (hi : i < len) : byte (read memory addr len) i = memory (addr + i) :=
  ((read_eq_iff.mp rfl).2 i hi).symm

end ByteMemory
