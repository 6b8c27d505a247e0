import SatCheck.ProcessEquals
/-!
# Values and their codes

`ValueRecord` numbers the values of a set in the order of its iterator.  The encoder builds the
constraint of a number from the lowest bit up and the decoder reads the number from the highest
bit down.
-/

namespace SatCheck

open Constraint

/-- The loop of `getValue` over the bits, where the last variable is read first. -/
def readBits (satsolution : Nat → Bool) : List Nat → UInt32
  | [] => 0
  | v :: vars =>
      let value := readBits satsolution vars <<< 1
      if satsolution v then value ||| 1 else value

/-- The values are those of an `IntHashSet` in the order of its iterator, with no more of them than
`getSize` counts. -/
structure ValueRecord where
  set : List UInt64
  nonempty : set ≠ []
  nodup : set.Nodup
  fits : set.length < 2 ^ 32

namespace ValueRecord

def getNumVars (r : ValueRecord) : Nat := numBits r.set.length

/-- The loop of `getValue` over the set. -/
def valueLoop (numvars : Nat) (value : UInt32) : List UInt64 → UInt32 → UInt64
  | [], _ => 111111111
  | val :: rest, i =>
      if numvars = 0 then val
      else if i = value then val
      else valueLoop numvars value rest (i + 1)

def getValue (r : ValueRecord) (vars : List Nat) (satsolution : Nat → Bool) : UInt64 :=
  valueLoop r.getNumVars (readBits satsolution vars) r.set 0

/-- The loop of `getValueEncoding`; `none` stands for `NULL`. -/
def encodingLoop (numvars : Nat) (vars : List Nat) (value : UInt64) :
    List UInt64 → UInt32 → Option Constraint
  | [], _ => none
  | val :: rest, i =>
      if val = value then
        some (if numvars = 0 then .ctrue else generateConstraint vars i.toNat)
      else encodingLoop numvars vars value rest (i + 1)

def getValueEncoding (r : ValueRecord) (vars : List Nat) (value : UInt64) : Option Constraint :=
  encodingLoop r.getNumVars vars value r.set 0

end ValueRecord

/-! ## The bits -/

theorem toNat_shiftLeft_one (value : UInt32) : (value <<< 1).toNat = 2 * value.toNat % 2 ^ 32 := by
  rw [UInt32.toNat_shiftLeft]
  show value.toNat <<< 1 % 2 ^ 32 = _
  rw [Nat.shiftLeft_eq, Nat.pow_one, Nat.mul_comm]

private theorem toNat_shiftLeft_or_one (value : UInt32) :
    (value <<< 1 ||| 1).toNat = (2 * value.toNat + 1) % 2 ^ 32 := by
  have heven : (value <<< 1).toNat = 2 ^ 1 * ((value <<< 1).toNat / 2) := by
    rw [toNat_shiftLeft_one]
    omega
  rw [UInt32.toNat_or]
  show (value <<< 1).toNat ||| 1 = _
  rw [heven, ← Nat.two_pow_add_eq_or_of_lt (by decide), ← heven, toNat_shiftLeft_one]
  omega

private theorem toNat_readBits (ρ : Nat → Bool) (vars : List Nat) :
    (readBits ρ vars).toNat = code ρ vars % 2 ^ 32 := by
  induction vars with
  | nil => rfl
  | cons v vars ih =>
    have hcode : code ρ (v :: vars) = (ρ v).toNat + 2 * code ρ vars := by simp [code]
    rw [readBits, hcode]
    cases hv : ρ v with
    | false =>
      simp only [Bool.false_eq_true, if_false, toNat_shiftLeft_one, ih, Bool.toNat_false]
      omega
    | true =>
      simp only [if_true, toNat_shiftLeft_or_one, ih, Bool.toNat_true]
      omega

theorem toNat_readBits_of_le (ρ : Nat → Bool) {vars : List Nat} (h : vars.length ≤ 32) :
    (readBits ρ vars).toNat = code ρ vars := by
  rw [toNat_readBits]
  exact Nat.mod_eq_of_lt ((code_lt ρ vars).trans_le (Nat.pow_le_pow_right (by omega) h))

theorem toNat_add_one {i : UInt32} {n : Nat} (h : i.toNat + (n + 1) < 2 ^ 32) :
    (i + 1).toNat = i.toNat + 1 := by
  rw [UInt32.toNat_add]
  show (i.toNat + 1) % 2 ^ 32 = _
  exact Nat.mod_eq_of_lt (by omega)

namespace ValueRecord

/-! ## The loops over the set -/

variable {r : ValueRecord} {vars : List Nat} {ρ : Nat → Bool} {value : UInt64} {c : Constraint}

theorem valueLoop_eq {numvars : Nat} (hnumvars : numvars ≠ 0) (code i : UInt32)
    (set : List UInt64) (hfits : i.toNat + set.length < 2 ^ 32) (hle : i.toNat ≤ code.toNat) :
    valueLoop numvars code set i = (set[code.toNat - i.toNat]?).getD 111111111 := by
  induction set generalizing i with
  | nil => rfl
  | cons val rest ih =>
    rw [List.length_cons] at hfits
    have hnext := toNat_add_one hfits
    rw [valueLoop, if_neg hnumvars]
    split_ifs with heq
    · rw [heq, Nat.sub_self]
      rfl
    · have hne : i.toNat ≠ code.toNat := fun h => heq (UInt32.toNat_inj.mp h)
      have hindex : code.toNat - i.toNat = code.toNat - (i + 1).toNat + 1 := by omega
      rw [ih (i + 1) (by omega) (by omega), hindex, List.getElem?_cons_succ]

private theorem encodingLoop_eq {numvars : Nat} {i : UInt32} {set : List UInt64}
    (hfits : i.toNat + set.length < 2 ^ 32) :
    encodingLoop numvars vars value set i =
      if value ∈ set then
        some (if numvars = 0 then .ctrue
          else generateConstraint vars (i.toNat + set.idxOf value))
      else none := by
  induction set generalizing i with
  | nil => rfl
  | cons val rest ih =>
    rw [List.length_cons] at hfits
    have hnext := toNat_add_one hfits
    rw [encodingLoop]
    by_cases heq : val = value
    · have hmem : value ∈ val :: rest := heq ▸ List.mem_cons_self
      rw [if_pos heq, if_pos hmem, heq, List.idxOf_cons_self, Nat.add_zero]
    · have hmem : value ∈ val :: rest ↔ value ∈ rest := by simp [Ne.symm heq]
      rw [if_neg heq, ih (by omega), List.idxOf_cons_ne _ heq, hnext]
      simp only [hmem, Nat.add_assoc, Nat.add_comm 1]

theorem getValueEncoding_eq (r : ValueRecord) (vars : List Nat) (value : UInt64) :
    r.getValueEncoding vars value = EncodingTables.valueEncoding r.set vars value := by
  have hfits := r.fits
  rw [getValueEncoding, encodingLoop_eq (by simpa using hfits)]
  show (if value ∈ r.set then some (if numBits r.set.length = 0 then Constraint.ctrue
    else generateConstraint vars (0 + r.set.idxOf value)) else none) = _
  rw [Nat.zero_add]
  rfl

/-- The encoding of a member says that the variables hold its number. -/
theorem eval_getValueEncoding (hvars : vars.length = r.getNumVars) (hmem : value ∈ r.set) :
    ∃ c, r.getValueEncoding vars value = some c ∧
      ∀ ρ, eval ρ c = true ↔ code ρ vars = r.set.idxOf value := by
  obtain ⟨c, hc, -, heval⟩ := EncodingTables.eval_valueEncoding hvars hmem
  exact ⟨c, (r.getValueEncoding_eq vars value).trans hc, heval⟩

theorem getValueEncoding_eq_none_iff : r.getValueEncoding vars value = none ↔ value ∉ r.set := by
  rw [getValueEncoding_eq, EncodingTables.valueEncoding]
  split_ifs with hmem <;> simp [hmem]

theorem getNumVars_le (r : ValueRecord) : r.getNumVars ≤ 32 := by
  have hne : r.set.length ≠ 0 := fun h => r.nonempty (List.length_eq_zero_iff.mp h)
  have hfits := r.fits
  rw [getNumVars, numBits, if_neg hne]
  exact Nat.size_le.mpr (by omega)

private theorem length_eq_one (h : r.getNumVars = 0) : r.set.length = 1 := by
  have hne : r.set.length ≠ 0 := fun h => r.nonempty (List.length_eq_zero_iff.mp h)
  rw [getNumVars, numBits, if_neg hne, Nat.size_eq_zero] at h
  omega

/-- The decoder returns the value with the number that the variables hold. -/
theorem getValue_eq (hvars : vars.length = r.getNumVars) (hlt : code ρ vars < r.set.length) :
    r.getValue vars ρ = r.set[code ρ vars] := by
  have hfits := r.fits
  have hread := toNat_readBits_of_le ρ (hvars.trans_le r.getNumVars_le)
  by_cases hzero : r.getNumVars = 0
  · have hone := length_eq_one hzero
    have hcode : code ρ vars = 0 := by omega
    obtain ⟨val, hset⟩ := List.length_eq_one_iff.mp hone
    simp only [getValue, hzero, hset, valueLoop, if_true, hcode, List.getElem_cons_zero]
  · have hloop := valueLoop_eq hzero (readBits ρ vars) 0 r.set (by simpa using hfits)
      (Nat.zero_le _)
    rw [getValue, hloop, hread]
    show (r.set[code ρ vars - 0]?).getD 111111111 = _
    rw [Nat.sub_zero, List.getElem?_eq_getElem hlt, Option.getD_some]

/-- Encoder and decoder agree. -/
theorem getValue_of_getValueEncoding (hvars : vars.length = r.getNumVars)
    (hc : r.getValueEncoding vars value = some c) (heval : eval ρ c = true) :
    r.getValue vars ρ = value := by
  have hmem : value ∈ r.set := by
    by_contra hnot
    rw [getValueEncoding_eq_none_iff.mpr hnot] at hc
    exact absurd hc (by simp)
  obtain ⟨d, hd, hcode⟩ := eval_getValueEncoding hvars hmem
  obtain rfl := Option.some.inj (hd.symm.trans hc)
  have hnumber := (hcode ρ).mp heval
  have hlt := List.idxOf_lt_length_iff.mpr hmem
  rw [getValue_eq hvars (by omega)]
  simp only [hnumber, List.getElem_idxOf]

private theorem existsUnique_getValueEncoding (hvars : vars.length = r.getNumVars)
    (hlt : code ρ vars < r.set.length) :
    ∃! value, ∃ c, r.getValueEncoding vars value = some c ∧ eval ρ c = true := by
  refine ⟨r.set[code ρ vars], ?_, ?_⟩
  · obtain ⟨c, hc, hcode⟩ := eval_getValueEncoding hvars (List.getElem_mem hlt)
    refine ⟨c, hc, (hcode ρ).mpr ?_⟩
    exact (r.nodup.idxOf_getElem _ hlt).symm
  · rintro value ⟨c, hc, heval⟩
    rw [← getValue_of_getValueEncoding hvars hc heval, getValue_eq hvars hlt]

/-- The round trip through the variables of a value. -/
theorem encodes_values (r : ValueRecord) {vars : List Nat} (hvars : vars.length = r.getNumVars)
    (ρ : Nat → Bool) :
    (∀ value c, r.getValueEncoding vars value = some c → eval ρ c = true →
      r.getValue vars ρ = value) ∧
    (∀ value value' c c', value ≠ value' → r.getValueEncoding vars value = some c →
      r.getValueEncoding vars value' = some c' → ¬ (eval ρ c = true ∧ eval ρ c' = true)) ∧
    ((readBits ρ vars).toNat < r.set.length →
      ∃! value, ∃ c, r.getValueEncoding vars value = some c ∧ eval ρ c = true) ∧
    ∀ value, r.getValueEncoding vars value = none ↔ value ∉ r.set := by
  refine ⟨?_, ?_, ?_, ?_⟩
  · exact fun _ _ hc heval => getValue_of_getValueEncoding hvars hc heval
  · rintro value value' c c' hne hc hc' ⟨heval, heval'⟩
    apply hne
    rw [← getValue_of_getValueEncoding hvars hc heval,
      getValue_of_getValueEncoding hvars hc' heval']
  · intro hlt
    rw [toNat_readBits_of_le ρ (hvars.trans_le r.getNumVars_le)] at hlt
    exact existsUnique_getValueEncoding hvars hlt
  · exact fun _ => getValueEncoding_eq_none_iff

/-- Three values in two variables. -/
theorem encodes_values_three :
    let r : ValueRecord := ⟨[5, 0, 7], by decide, by decide, by decide⟩
    (∀ value c, r.getValueEncoding [0, 1] value = some c → eval (fun v => v = 1) c = true →
      r.getValue [0, 1] (fun v => v = 1) = value) ∧
    (∀ value value' c c', value ≠ value' → r.getValueEncoding [0, 1] value = some c →
      r.getValueEncoding [0, 1] value' = some c' →
        ¬ (eval (fun v => v = 1) c = true ∧ eval (fun v => v = 1) c' = true)) ∧
    ((readBits (fun v => v = 1) [0, 1]).toNat < r.set.length →
      ∃! value, ∃ c, r.getValueEncoding [0, 1] value = some c ∧
        eval (fun v => v = 1) c = true) ∧
    ∀ value, r.getValueEncoding [0, 1] value = none ↔ value ∉ r.set :=
  encodes_values _ (by decide) _

end ValueRecord

end SatCheck
