import SatCheck.PlannerCalls
import SatCheck.PointHash
import Mathlib.Algebra.Group.Nat.Defs
/-!
# The truncation of recorded values

`keepbytes` shifts by the number of missing bytes, not by their bits.  Between the stored bytes
and the bits that this shift drops, bits of a value stay in its `EPValue`.
-/

namespace SatCheck

open PlannerState

variable {len : Nat}

/-- The shift leaves `56 + len` bits, for one byte all but the top seven. -/
theorem getLsbD_keepbytes (hpos : 1 ≤ len) (hle : len ≤ 8) (v : UInt64) (i : Nat) :
    (keepbytes v len).toBitVec.getLsbD i = (decide (i < 56 + len) && v.toBitVec.getLsbD i) := by
  have hshift : (8 - len) % 18446744073709551616 % 64 = 8 - len := by omega
  have hlt : (8 - len + i < 64) ↔ i < 56 + len := by omega
  have hge : ¬ 8 - len + i < 8 - len := by omega
  simp [keepbytes, hshift, hlt, hge]

/-- The bits above the stored bytes that `keepbytes` leaves in a value. -/
def Stray (len i : Nat) : Prop := 8 * len ≤ i ∧ i < 56 + len

theorem keepbytes_eq_and_getmask_iff (hpos : 1 ≤ len) (hle : len ≤ 8) (v : UInt64) :
    keepbytes v len = v &&& getmask len ↔ ∀ i, Stray len i → v.toBitVec.getLsbD i = false := by
  have hmask : ∀ i, (v &&& getmask len).toBitVec.getLsbD i =
      (v.toBitVec.getLsbD i && decide (i < 8 * len)) := by
    intro i
    rw [UInt64.toBitVec_and, BitVec.getLsbD_and, getLsbD_getmask hpos hle]
  constructor
  · rintro heq i ⟨hlow, hhigh⟩
    have hbit := hmask i
    rw [← heq, getLsbD_keepbytes hpos hle, decide_eq_true hhigh, Bool.true_and,
      decide_eq_false (Nat.not_lt.mpr hlow), Bool.and_false] at hbit
    exact hbit
  · intro hclear
    rw [← UInt64.toBitVec_inj]
    apply BitVec.eq_of_getLsbD_eq
    intro i hi
    rw [getLsbD_keepbytes hpos hle, hmask, Bool.and_comm]
    by_cases hlow : i < 8 * len
    · simp [hlow, show i < 56 + len by omega]
    · by_cases hhigh : i < 56 + len
      · simp [hclear i ⟨by omega, hhigh⟩]
      · simp [hlow, hhigh]

/-- Values with the same stored bytes keep the same bits if they agree in the bits above. -/
theorem keepbytes_eq_keepbytes_iff (hpos : 1 ≤ len) (hle : len ≤ 8) {v w : UInt64}
    (hstored : v &&& getmask len = w &&& getmask len) :
    keepbytes v len = keepbytes w len ↔
      ∀ i, Stray len i → v.toBitVec.getLsbD i = w.toBitVec.getLsbD i := by
  have hlow : ∀ i, i < 8 * len → v.toBitVec.getLsbD i = w.toBitVec.getLsbD i := by
    intro i hi
    have hbit := congrArg (fun x : UInt64 => x.toBitVec.getLsbD i) hstored
    simpa [getLsbD_getmask hpos hle, hi] using hbit
  constructor
  · rintro heq i ⟨-, hhigh⟩
    have hbit := congrArg (fun x : UInt64 => x.toBitVec.getLsbD i) heq
    simpa [getLsbD_keepbytes hpos hle, hhigh] using hbit
  · intro hagree
    rw [← UInt64.toBitVec_inj]
    apply BitVec.eq_of_getLsbD_eq
    intro i hi
    rw [getLsbD_keepbytes hpos hle, getLsbD_keepbytes hpos hle]
    by_cases hhigh : i < 56 + len
    · by_cases hstray : i < 8 * len
      · rw [hlow i hstray]
      · rw [hagree i ⟨by omega, hhigh⟩]
    · simp [hhigh]

/-! ## The identity of a recorded value -/

namespace EPValue

open ExecPoint

/-- The members of the class that its comparison reads. -/
structure Object where
  execpoint : ExecPoint.Object
  addr : UInt64
  value : UInt64
  len : Nat

def Object.construct (ep : ExecPoint.Object) (_addr ivalue : UInt64) (ilen : Nat) : Object where
  execpoint := ep
  addr := _addr
  value := keepbytes ivalue ilen
  len := ilen

/-- As for `ExecPointEquals`, a null pointer is `none`. -/
def epValueEquals : Option Object → Option Object → Option Bool
  | none, ep2 => some ep2.isNone
  | some _, none => none
  | some ep1, some ep2 =>
      if ep1.addr ≠ ep2.addr ∨ ep1.len ≠ ep2.len ∨ ep1.value ≠ ep2.value then some false
      else execPointEquals (some ep1.execpoint) (some ep2.execpoint)

private theorem epValueEquals_construct {ep ep' : ExecPoint.Object} (h : ep.Obtained)
    (h' : ep'.Obtained) (addr addr' v v' : UInt64) (len len' : Nat) :
    epValueEquals (some (.construct ep addr v len)) (some (.construct ep' addr' v' len')) =
      some (decide (addr = addr' ∧ len = len' ∧ keepbytes v len = keepbytes v' len' ∧
        ep.tid = ep'.tid ∧ ep.pairs = ep'.pairs)) := by
  simp only [epValueEquals, Object.construct, h.execPointEquals_eq h']
  split_ifs with hdiff
  · rw [Option.some_inj, eq_comm, decide_eq_false_iff_not]
    tauto
  · simp only [ne_eq, not_or, Decidable.not_not] at hdiff
    obtain ⟨rfl, rfl, hvalue⟩ := hdiff
    simp [hvalue]

/-- The two truncations agree, and equal stored bytes give one identity, up to the stray bits. -/
theorem keepbytes_eq_getmask_iff {len : Nat} (hpos : 1 ≤ len) (hle : len ≤ 8) (v : UInt64) :
    (v &&& getmask len).toNat = v.toNat % 256 ^ len ∧
    (keepbytes v len = v &&& getmask len ↔
      ∀ i, Stray len i → v.toBitVec.getLsbD i = false) ∧
    ∀ w ep addr, ep.Obtained → v.toNat % 256 ^ len = w.toNat % 256 ^ len →
      (epValueEquals (some (.construct ep addr v len)) (some (.construct ep addr w len)) =
          some true ↔
        ∀ i, Stray len i → v.toBitVec.getLsbD i = w.toBitVec.getLsbD i) := by
  have hbytes : ∀ v : UInt64, (v &&& getmask len).toNat = v.toNat % 256 ^ len := by
    intro v
    rw [toNat_and_getmask hpos hle, show 256 = 2 ^ 8 from rfl, ← Nat.pow_mul]
  refine ⟨hbytes v, keepbytes_eq_and_getmask_iff hpos hle v, ?_⟩
  intro w ep addr h hstored
  rw [epValueEquals_construct h h]
  rw [← hbytes, ← hbytes, UInt64.toNat_inj] at hstored
  simp [keepbytes_eq_keepbytes_iff hpos hle hstored]

theorem keepbytes_eq_getmask_short : keepbytes 0x1234 2 = 0x1234 &&& getmask 2 := by
  rw [(keepbytes_eq_getmask_iff (by decide) (by decide) 0x1234).2.1]
  rintro i ⟨hlow, -⟩
  have hlt : 0x1234 < 2 ^ i :=
    calc
      0x1234 < 2 ^ (8 * 2) := by decide
      _ ≤ 2 ^ i := Nat.pow_le_pow_right (by decide) hlow
  exact Nat.testBit_lt_two_pow hlt

/-- One byte of `0x100` is stored, and the value keeps the bit above it. -/
theorem keepbytes_ne_getmask :
    keepbytes 0x100 1 = 0x100 ∧ (0x100 : UInt64) &&& getmask 1 = 0 ∧
      epValueEquals (some (.construct (.construct (fun _ => 0) 4 0) 0x1000 0x100 1))
        (some (.construct (.construct (fun _ => 0) 4 0) 0x1000 0 1)) = some false := by
  decide

end EPValue

end SatCheck
