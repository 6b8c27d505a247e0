import SatCheck.Encoding
/-!
# The loop of `generateLTConstraint`

The loop on `uint` values, with `andarray` as the array of `numvars` entries that it is.  Its
values stay at most `2 ^ numvars`, so nothing wraps below 32 variables, and each value has more
trailing zeros than the last, so that the array has an entry for each clause.
-/

namespace SatCheck.Constraint

/-- The inner loop on a `uint`. -/
def orWords : List Nat → UInt32 → List Constraint
  | [], _ => []
  | v :: vars, val =>
      if val &&& 1 = 1 then (Constraint.var v).negate :: orWords vars (val >>> 1)
      else orWords vars (val >>> 1)

/-- The outer loop for at most `fuel` iterations, with the clauses that are in `andarray`.
`none` is a loop that goes on or a write past the end of an array. -/
def ltLoop (vars : List Nat) : Nat → UInt32 → List Constraint → Option Constraint
  | 0, _, _ => none
  | fuel + 1, value, andarray =>
      let orarray := orWords vars value
      if orarray.isEmpty then some (.and andarray)
      else if orarray.length ≤ vars.length ∧ andarray.length < vars.length then
        ltLoop vars fuel (value + 1 <<< UInt32.ofNat (ctz value.toNat)) (andarray ++ [.or orarray])
      else none

variable {vars : List Nat}

theorem orWords_eq_orArray (vars : List Nat) (val : UInt32) :
    orWords vars val = orArray vars val.toNat := by
  induction vars generalizing val with
  | nil => rfl
  | cons v vars ih =>
    have hbit : val &&& 1 = 1 ↔ val.toNat % 2 = 1 := by
      rw [← UInt32.toNat_inj, UInt32.toNat_and]
      show val.toNat &&& 1 = 1 ↔ _
      rw [Nat.and_one_is_mod]
    have hshift : (val >>> 1).toNat = val.toNat / 2 := by
      rw [UInt32.toNat_shiftRight]
      exact Nat.shiftRight_eq_div_pow _ _
    simp only [orWords, orArray, hbit, ih, hshift]

theorem length_orArray_le (vars : List Nat) (n : Nat) :
    (orArray vars n).length ≤ vars.length := by
  induction vars generalizing n with
  | nil => exact le_rfl
  | cons v vars ih =>
    have hrest := ih (n / 2)
    unfold orArray
    split_ifs
    · exact Nat.succ_le_succ hrest
    · exact Nat.le_succ_of_le hrest

theorem ctz_lt_length {n : Nat} (hpos : 0 < n) (h : orArray vars n ≠ []) :
    ctz n < vars.length := by
  by_contra hge
  apply h
  apply orArray_eq_nil_iff.mpr
  exact (Nat.pow_dvd_pow 2 (by omega)).trans (two_pow_ctz_dvd hpos)

theorem add_two_pow_ctz_le {n : Nat} (hpos : 0 < n) (hn : n ≤ 2 ^ vars.length)
    (h : orArray vars n ≠ []) : n + 2 ^ ctz n ≤ 2 ^ vars.length := by
  have hne : n ≠ 2 ^ vars.length := by
    rintro rfl
    exact h (orArray_eq_nil_iff.mpr dvd_rfl)
  have hdvd := two_pow_ctz_dvd hpos
  have hbound := ctz_lt_length hpos h
  exact Nat.le_of_lt_add_of_dvd (by omega) (Nat.dvd_add hdvd dvd_rfl) (Nat.pow_dvd_pow 2 hbound.le)

theorem length_andArray_le (vars : List Nat) {fuel k n : Nat} (hdvd : 2 ^ k ∣ n) (hpos : 0 < n) :
    (andArray vars fuel n).length ≤ vars.length - k := by
  induction fuel generalizing k n with
  | zero => exact Nat.zero_le _
  | succ fuel ih =>
    unfold andArray
    split_ifs with hnil
    · exact Nat.zero_le _
    · have hk := le_ctz hpos hdvd
      have hbound := ctz_lt_length hpos hnil
      have hrest := ih (two_pow_succ_ctz_dvd hpos) (Nat.add_pos_left hpos (2 ^ ctz n))
      rw [List.length_cons]
      omega

private theorem toNat_add_shiftLeft (value : UInt32) {k : Nat} (hk : k < 32)
    (h : value.toNat + 2 ^ k < 2 ^ 32) :
    (value + 1 <<< UInt32.ofNat k).toNat = value.toNat + 2 ^ k := by
  have hpow : 2 ^ k < 2 ^ 32 := Nat.pow_lt_pow_right (by omega) hk
  have hshift : ((1 : UInt32) <<< UInt32.ofNat k).toNat = 2 ^ k := by
    rw [UInt32.toNat_shiftLeft, UInt32.toNat_ofNat_of_lt' (Nat.lt_trans hk (by decide)),
      Nat.mod_eq_of_lt hk]
    show 1 <<< k % 2 ^ 32 = 2 ^ k
    rw [Nat.one_shiftLeft, Nat.mod_eq_of_lt hpow]
  rw [UInt32.toNat_add, hshift, Nat.mod_eq_of_lt h]

theorem ltLoop_eq_some (hw : vars.length ≤ 31) {fuel k : Nat} {value : UInt32}
    {andarray : List Constraint} (hfuel : vars.length < fuel + k) (hdvd : 2 ^ k ∣ value.toNat)
    (hpos : 0 < value.toNat) (hle : value.toNat ≤ 2 ^ vars.length) (hroom : andarray.length ≤ k) :
    ltLoop vars fuel value andarray =
      some (.and (andarray ++ andArray vars fuel value.toNat)) := by
  induction fuel generalizing k value andarray with
  | zero =>
    have hpow := (Nat.le_of_dvd hpos hdvd).trans hle
    have hk := (Nat.pow_le_pow_iff_right Nat.one_lt_two).mp hpow
    omega
  | succ fuel ih =>
    unfold ltLoop andArray
    simp only [orWords_eq_orArray, List.isEmpty_iff]
    split_ifs with hnil hroom'
    · rw [List.append_nil]
    · have hk := le_ctz hpos hdvd
      have hbound := ctz_lt_length hpos hnil
      have hnext := add_two_pow_ctz_le hpos hle hnil
      have hmax : 2 ^ vars.length ≤ 2 ^ 31 := Nat.pow_le_pow_right (by omega) hw
      have hadd := toNat_add_shiftLeft value (k := ctz value.toNat) (by omega) (by omega)
      rw [ih (k := ctz value.toNat + 1) (by omega) _ _ _ _, hadd, List.append_assoc,
        List.singleton_append]
      · rw [hadd]
        exact two_pow_succ_ctz_dvd hpos
      · rw [hadd]
        exact Nat.add_pos_left hpos _
      · rw [hadd]
        exact hnext
      · rw [List.length_append, List.length_singleton]
        omega
    · have hk := le_ctz hpos hdvd
      have hbound := ctz_lt_length hpos hnil
      exact absurd ⟨length_orArray_le vars value.toNat, by omega⟩ hroom'

/-- The loop ends inside its array with clauses that hold exactly of the codes below the
value. -/
theorem ltLoop_exact {value : UInt32} (hw : vars.length ≤ 31) (hpos : 1 ≤ value.toNat)
    (hle : value.toNat ≤ 2 ^ vars.length) :
    ∃ andarray : List Constraint,
      (∀ fuel, vars.length < fuel → ltLoop vars fuel value [] = some (.and andarray)) ∧
      andarray.length ≤ vars.length ∧
      ∀ ρ, eval ρ (.and andarray) = true ↔ code ρ vars < value.toNat := by
  refine ⟨andArray vars (vars.length + 1) value.toNat, ?_, ?_, ?_⟩
  · intro fuel hfuel
    obtain ⟨m, rfl⟩ := Nat.exists_eq_add_of_le (Nat.succ_le_of_lt hfuel)
    have hmore : andArray vars (vars.length + 1 + m) value.toNat =
        andArray vars (vars.length + 1) value.toNat :=
      andArray_add vars (k := 0) m (by omega) (one_dvd value.toNat) hpos
    rw [ltLoop_eq_some hw (k := 0) (by omega) (one_dvd _) hpos hle le_rfl,
      List.nil_append, hmore]
  · exact length_andArray_le vars (k := 0) (one_dvd _) hpos
  · intro ρ
    exact eval_generateLTConstraint ρ hpos hle

theorem ltLoop_exact_three :
    ∃ andarray : List Constraint,
      (∀ fuel, [0, 1].length < fuel → ltLoop [0, 1] fuel 3 [] = some (.and andarray)) ∧
      andarray.length ≤ [0, 1].length ∧
      ∀ ρ, eval ρ (.and andarray) = true ↔ code ρ [0, 1] < (3 : UInt32).toNat :=
  ltLoop_exact (by decide) (by decide) (by decide)

end SatCheck.Constraint
