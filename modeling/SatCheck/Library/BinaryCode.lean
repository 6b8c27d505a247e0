import Mathlib.Data.Nat.Bitwise
import Mathlib.Data.Nat.Digits.Defs
/-!
# Numbers in a row of bits

The number that a row of bits holds, lowest bit first, and when the bits of one number
cover those of another.
-/

namespace BinaryCode

def value (bits : List Bool) : Nat := Nat.ofDigits 2 (bits.map Bool.toNat)

@[simp] theorem value_nil : value [] = 0 := rfl

@[simp] theorem value_cons (b : Bool) (bits : List Bool) :
    value (b :: bits) = b.toNat + 2 * value bits := by
  simp [value, Nat.ofDigits_cons]

theorem value_lt (bits : List Bool) : value bits < 2 ^ bits.length := by
  have hdigit : ∀ d ∈ bits.map Bool.toNat, d < 2 := by
    intro d hd
    obtain ⟨b, _, rfl⟩ := List.mem_map.mp hd
    exact b.toNat_lt
  have hlt := Nat.ofDigits_lt_base_pow_length Nat.one_lt_two hdigit
  rwa [List.length_map] at hlt

theorem value_injective {as bs : List Bool} (hlen : as.length = bs.length)
    (h : value as = value bs) : as = bs := by
  induction as generalizing bs with
  | nil => exact (List.length_eq_zero_iff.mp hlen.symm).symm
  | cons a as ih =>
    cases bs with
    | nil => simp at hlen
    | cons b bs =>
      simp only [value_cons] at h
      have ha := a.toNat_le
      have hb := b.toNat_le
      have hhead : a.toNat = b.toNat := by omega
      have htail : value as = value bs := by omega
      have hab : a = b := by cases a <;> cases b <;> simp_all
      rw [hab, ih (by simpa using hlen) htail]

/-- The bits of `value` at the places of the row. -/
theorem value_cons_eq_mod_iff (b : Bool) (bits : List Bool) (v : Nat) :
    value (b :: bits) = v % 2 ^ (b :: bits).length ↔
      b.toNat = v % 2 ∧ value bits = v / 2 % 2 ^ bits.length := by
  have hb := b.toNat_le
  have hmod : v % 2 ^ (bits.length + 1) = v % 2 + 2 * (v / 2 % 2 ^ bits.length) := by
    rw [Nat.pow_succ, Nat.mul_comm, Nat.mod_mul]
  simp only [value_cons, List.length_cons, hmod]
  omega

theorem value_eq_zero_iff (bits : List Bool) : value bits = 0 ↔ ∀ b ∈ bits, b = false := by
  induction bits with
  | nil => simp
  | cons b bits ih =>
    rw [value_cons, List.forall_mem_cons, ← ih]
    cases b <;> simp

/-- The largest number of the row has all bits set. -/
theorem value_succ_eq_iff (bits : List Bool) :
    value bits + 1 = 2 ^ bits.length ↔ ∀ b ∈ bits, b = true := by
  induction bits with
  | nil => simp
  | cons b bits ih =>
    rw [value_cons, List.forall_mem_cons, ← ih, List.length_cons, Nat.pow_succ]
    cases b <;> simp <;> omega

/-! ## Covering -/

/-- Every bit of `v` is one of `x`. -/
def Covers (v x : Nat) : Prop := ∀ j, v.testBit j = true → x.testBit j = true

@[simp] theorem covers_zero (x : Nat) : Covers 0 x := by simp [Covers]

theorem covers_iff_half (v x : Nat) :
    Covers v x ↔ (v % 2 = 1 → x % 2 = 1) ∧ Covers (v / 2) (x / 2) := by
  constructor
  · intro h
    constructor
    · simpa [Nat.testBit_zero] using h 0
    · intro j
      simpa [Nat.testBit_succ] using h (j + 1)
  · rintro ⟨h0, h⟩ j
    cases j with
    | zero => simpa [Nat.testBit_zero] using h0
    | succ j => simpa [Nat.testBit_succ] using h j

theorem Covers.le {v x : Nat} (h : Covers v x) : v ≤ x := by
  have heq : v &&& x = v := by
    apply Nat.eq_of_testBit_eq
    intro j
    rw [Nat.testBit_and]
    cases hv : v.testBit j with
    | false => rfl
    | true => simp [h j hv]
  rw [← heq]
  exact Nat.and_le_right

/-- A number between a multiple of `2 ^ k` and the next one has all bits of the multiple. -/
theorem covers_of_lt {v x k : Nat} (hdvd : 2 ^ k ∣ v) (hle : v ≤ x) (hlt : x < v + 2 ^ k) :
    Covers v x := by
  obtain ⟨m, rfl⟩ := hdvd
  have hdiv : x / 2 ^ k = m := by
    apply Nat.div_eq_of_lt_le
    · rw [Nat.mul_comm]
      exact hle
    · calc x < 2 ^ k * m + 2 ^ k := hlt
        _ = (m + 1) * 2 ^ k := by ring
  intro j hj
  rw [Nat.testBit_two_pow_mul] at hj
  simp only [ge_iff_le, Bool.and_eq_true, decide_eq_true_eq] at hj
  obtain ⟨hkj, hbit⟩ := hj
  rw [← hdiv, Nat.testBit_div_two_pow] at hbit
  rwa [Nat.sub_add_cancel hkj] at hbit

/-- To be below `v` is to be below the next number with fewer trailing bits, without covering
`v` itself. -/
theorem lt_iff_not_covers {v x k : Nat} (hdvd : 2 ^ k ∣ v) :
    x < v ↔ ¬ Covers v x ∧ x < v + 2 ^ k := by
  constructor
  · intro h
    constructor
    · intro hcovers
      exact absurd hcovers.le (by omega)
    · omega
  · rintro ⟨hnot, hlt⟩
    by_contra hge
    exact hnot (covers_of_lt hdvd (by omega) hlt)

end BinaryCode
