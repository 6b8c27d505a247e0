import SatCheck.ProcessBranch
import SatCheck.ValueRecord
/-!
# Codes of a branch

The codes that `insertBranch` has bits for: 0 for a branch that is not executed, one for each
known direction and, when directions are missing, the largest code for a new one.
-/

namespace SatCheck.BranchTables

open Constraint

variable {R : Type} (t : BranchTables R)

/-- `BranchRecord::getNewBranch`. -/
def getNewBranch (record : R) : Constraint := .and ((t.branchtable record).map .var)

/-- The loop of `BranchRecord::getBranchValue` with its `uint`. -/
def branchWord (ρ : Nat → Bool) (record : R) : Int32 :=
  let value := readBits ρ (t.branchtable record)
  (if t.isAlwaysExecuted record then value else value - 1).toInt32

/-- A branch with at least one known direction.  `getEPValue` adds a direction once, and the number
of directions is an `int`. -/
structure KnownDirections (record : R) : Prop where
  event : (t.info record).event = .branchdir
  known : 1 ≤ (t.valuevector record).length
  distinct : (t.valuevector record).Nodup
  directions : (t.valuevector record).length ≤ t.getLen record
  len : t.getLen record < 2 ^ 31

variable {t} {record : R} {ρ : Nat → Bool}

private theorem le_two_pow_numBits (n : Nat) : n ≤ 2 ^ numBits n := by
  cases n with
  | zero => exact Nat.zero_le _
  | succ n => exact EncodingTables.lt_two_pow_numBits (Nat.lt_succ_self n)

namespace KnownDirections

theorem codes_le (h : t.KnownDirections record) :
    (t.valuevector record).length +
      (if (t.valuevector record).length < t.getLen record then 1 else 0) +
      (if t.isAlwaysExecuted record then 0 else 1) ≤ 2 ^ (t.branchtable record).length := by
  have hcodes := le_two_pow_numBits (branchCodes (t.valuevector record).length (t.getLen record)
    (t.isAlwaysExecuted record))
  rw [t.inserted record h.event]
  rwa [branchCodes_eq] at hcodes ⊢

theorem length_branchtable_le (h : t.KnownDirections record) :
    (t.branchtable record).length ≤ 31 := by
  have hknown := h.known
  have hdirections := h.directions
  have hlen := h.len
  rw [t.inserted record h.event, branchCodes_eq, numBits, if_neg (by omega)]
  apply Nat.size_le.mpr
  split_ifs <;> omega

theorem getBranchValue_eq (h : t.KnownDirections record) (ρ : Nat → Bool) :
    t.getBranchValue ρ record = if t.isAlwaysExecuted record then
      (code ρ (t.branchtable record) : Int) else code ρ (t.branchtable record) - 1 := by
  have hcode := code_lt ρ (t.branchtable record)
  have hbits : 2 ^ (t.branchtable record).length ≤ 2 ^ 31 :=
    Nat.pow_le_pow_right (by omega) h.length_branchtable_le
  unfold getBranchValue
  apply Int.bmod_eq_of_le <;> split_ifs <;> omega

theorem toInt_branchWord (h : t.KnownDirections record) (ρ : Nat → Bool) :
    (t.branchWord ρ record).toInt = t.getBranchValue ρ record := by
  have hcode := code_lt ρ (t.branchtable record)
  have hbits : 2 ^ (t.branchtable record).length ≤ 2 ^ 31 :=
    Nat.pow_le_pow_right (by omega) h.length_branchtable_le
  have hread := toNat_readBits_of_le ρ (h.length_branchtable_le.trans (by decide))
  have hword (value : UInt32) : value.toInt32.toInt = Int.bmod value.toNat (2 ^ 32) :=
    BitVec.toInt_eq_toNat_bmod value.toBitVec
  rw [branchWord, hword, h.getBranchValue_eq]
  split_ifs
  · rw [hread]
    apply Int.bmod_eq_of_le <;> omega
  · have hsub : (readBits ρ (t.branchtable record) - 1).toNat =
        (2 ^ 32 - 1 + code ρ (t.branchtable record)) % 2 ^ 32 := by
      rw [UInt32.toNat_sub, hread]
      rfl
    rw [hsub]
    rcases Nat.eq_zero_or_pos (code ρ (t.branchtable record)) with hzero | hpos
    · rw [hzero]
      rfl
    · have hmod : (2 ^ 32 - 1 + code ρ (t.branchtable record)) % 2 ^ 32 =
          code ρ (t.branchtable record) - 1 := by omega
      rw [hmod]
      push_cast [hpos]
      apply Int.bmod_eq_of_le <;> omega

private theorem getBranch_iff (h : t.KnownDirections record) {i : Nat}
    (hi : i < (t.valuevector record).length) :
    ∃ c, t.getBranch (record, (t.valuevector record)[i]) = some c ∧
      ∀ ρ, eval ρ c = true ↔ t.getBranchValue ρ record = i := by
  have hmem := List.getElem_mem hi
  have hidx := h.distinct.idxOf_getElem i hi
  refine ⟨_, if_pos hmem, ?_⟩
  intro ρ
  rw [eval_generateConstraint (directionCode_lt h.event hmem), h.getBranchValue_eq, directionCode,
    hidx]
  split_ifs <;> omega

private theorem getAnyBranch_eq_false_iff (h : t.KnownDirections record)
    (halways : t.isAlwaysExecuted record = false) (ρ : Nat → Bool) :
    eval ρ (t.getAnyBranch record) = false ↔ t.getBranchValue ρ record = -1 := by
  rw [getAnyBranch, h.getBranchValue_eq, halways, if_neg Bool.false_ne_true,
    if_neg Bool.false_ne_true, eval_or_vars]
  omega

private theorem le_getBranchValue_of_new (h : t.KnownDirections record)
    (hnew : (t.valuevector record).length < t.getLen record)
    (heval : eval ρ (t.getNewBranch record) = true) :
    ((t.valuevector record).length : Int) ≤ t.getBranchValue ρ record := by
  have hcodes := h.codes_le
  have hlargest := (eval_and_vars ρ (t.branchtable record)).mp heval
  rw [if_pos hnew] at hcodes
  rw [h.getBranchValue_eq]
  split_ifs at hcodes ⊢ <;> omega

end KnownDirections

/-- Each known direction, no execution and a new direction have codes of their own. -/
theorem branch_codes (h : t.KnownDirections record) (ρ : Nat → Bool) :
    (∀ i (hi : i < (t.valuevector record).length), ∃ c,
      t.getBranch (record, (t.valuevector record)[i]) = some c ∧
        (eval ρ c = true ↔ (t.branchWord ρ record).toInt = i)) ∧
    (t.isAlwaysExecuted record = false →
      (eval ρ (t.getAnyBranch record) = false ↔ (t.branchWord ρ record).toInt = -1)) ∧
    ((t.valuevector record).length < t.getLen record → eval ρ (t.getNewBranch record) = true →
      ((t.valuevector record).length : Int) ≤ (t.branchWord ρ record).toInt) := by
  rw [h.toInt_branchWord]
  refine ⟨?_, fun halways => h.getAnyBranch_eq_false_iff halways ρ, h.le_getBranchValue_of_new⟩
  intro i hi
  obtain ⟨c, hc, heval⟩ := h.getBranch_iff hi
  exact ⟨c, hc, heval ρ⟩

/-- A branch that has gone in one of two directions. -/
theorem branch_codes_branchOnEquals :
    (∀ i (hi : i < (branchOnEquals.valuevector 1).length), ∃ c,
      branchOnEquals.getBranch (1, (branchOnEquals.valuevector 1)[i]) = some c ∧
        (eval (fun v => v = 34) c = true ↔
          (branchOnEquals.branchWord (fun v => v = 34) 1).toInt = i)) ∧
    (branchOnEquals.isAlwaysExecuted 1 = false →
      (eval (fun v => v = 34) (branchOnEquals.getAnyBranch 1) = false ↔
        (branchOnEquals.branchWord (fun v => v = 34) 1).toInt = -1)) ∧
    ((branchOnEquals.valuevector 1).length < branchOnEquals.getLen 1 →
      eval (fun v => v = 34) (branchOnEquals.getNewBranch 1) = true →
        ((branchOnEquals.valuevector 1).length : Int) ≤
          (branchOnEquals.branchWord (fun v => v = 34) 1).toInt) :=
  branch_codes ⟨rfl, by decide, by decide, by decide, by decide⟩ _

end SatCheck.BranchTables
