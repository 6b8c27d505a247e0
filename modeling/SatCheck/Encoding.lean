import SatCheck.Constraint
import SatCheck.Library.BinaryCode
import Mathlib.Data.Nat.Size
/-!
# Constraints on codes

`generateConstraint`, `generateLTConstraint` and `generateEquivConstraint` of
`constraint.cc`.  An array of variables is the list of their indices, lowest bit first.
-/

namespace SatCheck

open BinaryCode

namespace Constraint

def code (ρ : Nat → Bool) (vars : List Nat) : Nat := value (vars.map ρ)

/-- `carray` of `generateConstraint`. -/
def bitArray : List Nat → Nat → List Constraint
  | [], _ => []
  | v :: vars, value =>
      (if value % 2 = 1 then .var v else (Constraint.var v).negate) :: bitArray vars (value / 2)

def generateConstraint (vars : List Nat) (value : Nat) : Constraint :=
  .and (bitArray vars value)

/-- `orarray` of `generateLTConstraint`: the variables of the ones, negated. -/
def orArray : List Nat → Nat → List Constraint
  | [], _ => []
  | v :: vars, value =>
      if value % 2 = 1 then (Constraint.var v).negate :: orArray vars (value / 2)
      else orArray vars (value / 2)

/-- `__builtin_ctz`. -/
def ctz (value : Nat) : Nat := ((List.range value.size).find? value.testBit).getD 0

/-- The `while` loop of `generateLTConstraint` for at most `fuel` iterations. -/
def andArray (vars : List Nat) : Nat → Nat → List Constraint
  | 0, _ => []
  | fuel + 1, value =>
      if orArray vars value = [] then []
      else .or (orArray vars value) :: andArray vars fuel (value + 2 ^ ctz value)

/-- Each iteration of the loop clears a low bit, so that `vars.length + 1` are enough. -/
def generateLTConstraint (vars : List Nat) (value : Nat) : Constraint :=
  .and (andArray vars (vars.length + 1) value)

/-- `array` of `generateEquivConstraint`. -/
def equivArray : List Nat → List Nat → List Constraint
  | v :: var1, w :: var2 =>
      .or [(Constraint.var v).negate, .var w] :: .or [.var v, (Constraint.var w).negate] ::
        equivArray var1 var2
  | _, _ => []

/-- `numvars` is the length of both arrays. -/
def generateEquivConstraint (var1 var2 : List Nat) : Constraint :=
  if var1.length = 0 then .ctrue else .and (equivArray var1 var2)

/-! ## No implications -/

@[simp] theorem implicationFree_var (v : Nat) : (Constraint.var v).implicationFree = true := rfl

@[simp] theorem implicationFree_negate_var (v : Nat) :
    (Constraint.var v).negate.implicationFree = true := rfl

@[simp] theorem eval_negate_var (ρ : Nat → Bool) (v : Nat) :
    eval ρ (Constraint.var v).negate = !ρ v := by
  simp [negate]

private theorem implicationFree_of_mem_bitArray {vars : List Nat} {value : Nat} {c : Constraint}
    (h : c ∈ bitArray vars value) : c.implicationFree = true := by
  induction vars generalizing value with
  | nil => simp [bitArray] at h
  | cons v vars ih =>
    rcases List.mem_cons.mp h with rfl | h
    · split_ifs <;> rfl
    · exact ih h

@[simp] theorem implicationFree_generateConstraint (vars : List Nat) (value : Nat) :
    (generateConstraint vars value).implicationFree = true := by
  simp only [generateConstraint, implicationFree_and, List.all_eq_true]
  exact fun _ => implicationFree_of_mem_bitArray

private theorem implicationFree_of_mem_orArray {vars : List Nat} {value : Nat} {c : Constraint}
    (h : c ∈ orArray vars value) : c.implicationFree = true := by
  induction vars generalizing value with
  | nil => simp [orArray] at h
  | cons v vars ih =>
    unfold orArray at h
    split_ifs at h
    · rcases List.mem_cons.mp h with rfl | h
      · rfl
      · exact ih h
    · exact ih h

private theorem implicationFree_of_mem_andArray {vars : List Nat} {fuel value : Nat}
    {c : Constraint} (h : c ∈ andArray vars fuel value) : c.implicationFree = true := by
  induction fuel generalizing value with
  | zero => simp [andArray] at h
  | succ fuel ih =>
    unfold andArray at h
    split_ifs at h
    · simp at h
    · rcases List.mem_cons.mp h with rfl | h
      · simp only [implicationFree_or, List.all_eq_true]
        exact fun _ => implicationFree_of_mem_orArray
      · exact ih h

@[simp] theorem implicationFree_generateLTConstraint (vars : List Nat) (value : Nat) :
    (generateLTConstraint vars value).implicationFree = true := by
  simp only [generateLTConstraint, implicationFree_and, List.all_eq_true]
  exact fun _ => implicationFree_of_mem_andArray

private theorem implicationFree_of_mem_equivArray {var1 var2 : List Nat} {c : Constraint}
    (h : c ∈ equivArray var1 var2) : c.implicationFree = true := by
  induction var1 generalizing var2 with
  | nil => simp [equivArray] at h
  | cons v var1 ih =>
    cases var2 with
    | nil => simp [equivArray] at h
    | cons w var2 =>
      simp only [equivArray, List.mem_cons] at h
      rcases h with rfl | rfl | h
      · rfl
      · rfl
      · exact ih h

@[simp] theorem implicationFree_generateEquivConstraint (var1 var2 : List Nat) :
    (generateEquivConstraint var1 var2).implicationFree = true := by
  unfold generateEquivConstraint
  split_ifs
  · rfl
  · simp only [implicationFree_and, List.all_eq_true]
    exact fun _ => implicationFree_of_mem_equivArray

/-! ## What they say about the codes -/

theorem code_lt (ρ : Nat → Bool) (vars : List Nat) : code ρ vars < 2 ^ vars.length := by
  simpa [code] using value_lt (vars.map ρ)

theorem code_congr {ρ ρ' : Nat → Bool} {vars : List Nat} (h : ∀ v ∈ vars, ρ v = ρ' v) :
    code ρ vars = code ρ' vars := by
  unfold code
  rw [List.map_congr_left h]

/-- The variables can hold any code, whatever the others hold. -/
theorem exists_code_eq (ρ : Nat → Bool) {vars : List Nat} (hnodup : vars.Nodup) {n : Nat}
    (hn : n < 2 ^ vars.length) :
    ∃ ρ', (∀ v, v ∉ vars → ρ' v = ρ v) ∧ code ρ' vars = n := by
  induction vars generalizing n with
  | nil =>
    rw [List.length_nil, Nat.pow_zero] at hn
    obtain rfl : n = 0 := by omega
    exact ⟨ρ, fun _ _ => rfl, rfl⟩
  | cons v vars ih =>
    rw [List.nodup_cons] at hnodup
    rw [List.length_cons, Nat.pow_succ] at hn
    obtain ⟨ρ', hothers, hcode⟩ := ih hnodup.2 (n := n / 2) (by omega)
    refine ⟨Function.update ρ' v (n.testBit 0), ?_, ?_⟩
    · intro w hw
      rw [List.mem_cons, not_or] at hw
      rw [Function.update_of_ne hw.1, hothers w hw.2]
    · have hrest : code (Function.update ρ' v (n.testBit 0)) vars = n / 2 := by
        rw [← hcode]
        apply code_congr
        intro w hw
        have hne : w ≠ v := by
          rintro rfl
          exact hnodup.1 hw
        exact Function.update_of_ne hne _ _
      unfold code at hrest ⊢
      rw [List.map_cons, value_cons, hrest, Function.update_self, Nat.testBit_zero]
      rcases Nat.mod_two_eq_zero_or_one n with hbit | hbit
      · simp [hbit]
        omega
      · simp [hbit]
        omega

theorem eval_or_vars (ρ : Nat → Bool) (vars : List Nat) :
    eval ρ (.or (vars.map .var)) = false ↔ code ρ vars = 0 := by
  rw [code, value_eq_zero_iff, eval_or, List.any_map]
  simp

theorem eval_and_vars (ρ : Nat → Bool) (vars : List Nat) :
    eval ρ (.and (vars.map .var)) = true ↔ code ρ vars + 1 = 2 ^ vars.length := by
  have hlargest := value_succ_eq_iff (vars.map ρ)
  rw [List.length_map] at hlargest
  rw [code, hlargest, eval_and, List.all_map]
  simp

private theorem eval_generateConstraint_mod (ρ : Nat → Bool) (vars : List Nat) (n : Nat) :
    eval ρ (generateConstraint vars n) = true ↔ code ρ vars = n % 2 ^ vars.length := by
  simp only [generateConstraint, eval_and]
  induction vars generalizing n with
  | nil => simp [bitArray, code, Nat.mod_one]
  | cons v vars ih =>
    have hcons := value_cons_eq_mod_iff (ρ v) (vars.map ρ) n
    simp only [List.length_cons, List.length_map] at hcons
    simp only [bitArray, List.all_cons, Bool.and_eq_true, ih, code, List.map_cons,
      List.length_cons, hcons]
    apply and_congr_left'
    split_ifs with hn
    · cases h : ρ v <;> simp [h, hn]
    · cases h : ρ v <;> simp [h] <;> omega

theorem eval_generateConstraint {ρ : Nat → Bool} {vars : List Nat} {n : Nat}
    (hn : n < 2 ^ vars.length) :
    eval ρ (generateConstraint vars n) = true ↔ code ρ vars = n := by
  rw [eval_generateConstraint_mod, Nat.mod_eq_of_lt hn]

theorem eval_generateEquivConstraint {ρ : Nat → Bool} {var1 var2 : List Nat}
    (hlen : var1.length = var2.length) :
    eval ρ (generateEquivConstraint var1 var2) = true ↔ code ρ var1 = code ρ var2 := by
  have hequiv : (equivArray var1 var2).all (eval ρ) = true ↔ var1.map ρ = var2.map ρ := by
    induction var1 generalizing var2 with
    | nil => simp [equivArray, List.length_eq_zero_iff.mp hlen.symm]
    | cons v var1 ih =>
      cases var2 with
      | nil => simp at hlen
      | cons w var2 =>
        simp only [equivArray, List.all_cons, eval_or, List.any_cons, List.any_nil,
          eval_negate_var, eval_var, Bool.and_eq_true, ih (by simpa using hlen), List.map_cons,
          List.cons.injEq]
        cases ρ v <;> cases ρ w <;> simp
  unfold generateEquivConstraint
  split_ifs with h0
  · have h1 := List.length_eq_zero_iff.mp h0
    have h2 := List.length_eq_zero_iff.mp (hlen.symm.trans h0)
    simp [h1, h2]
  · rw [eval_and, hequiv]
    constructor
    · intro h
      simp [code, h]
    · exact value_injective (by simpa using hlen)

/-! ## The loop of `generateLTConstraint` -/

theorem testBit_ctz {n : Nat} (hn : 0 < n) :
    n.testBit (ctz n) = true ∧ ∀ j < ctz n, n.testBit j = false := by
  obtain ⟨j, hj⟩ := Nat.exists_testBit_of_ne_zero hn.ne'
  have hsize : j < n.size := Nat.lt_size.mpr (Nat.ge_two_pow_of_testBit hj)
  cases hfind : (List.range n.size).find? n.testBit with
  | none =>
    have := List.find?_eq_none.mp hfind j (List.mem_range.mpr hsize)
    exact absurd hj this
  | some k =>
    have hk := List.find?_range_eq_some.mp hfind
    simp only [ctz, hfind, Option.getD_some]
    exact ⟨hk.1, fun j hj => by simpa using hk.2.2 j hj⟩

theorem two_pow_ctz_dvd {n : Nat} (hn : 0 < n) : 2 ^ ctz n ∣ n := by
  apply Nat.dvd_of_mod_eq_zero
  apply Nat.eq_of_testBit_eq
  intro j
  rw [Nat.testBit_mod_two_pow, Nat.zero_testBit]
  by_cases hj : j < ctz n
  · simp [(testBit_ctz hn).2 j hj]
  · simp [hj]

theorem le_ctz {n k : Nat} (hn : 0 < n) (hdvd : 2 ^ k ∣ n) : k ≤ ctz n := by
  have hbit := (testBit_ctz hn).1
  generalize ctz n = j at hbit ⊢
  obtain ⟨m, rfl⟩ := hdvd
  rw [Nat.testBit_two_pow_mul] at hbit
  simp only [ge_iff_le, Bool.and_eq_true, decide_eq_true_eq] at hbit
  exact hbit.1

theorem two_pow_succ_ctz_dvd {n : Nat} (hn : 0 < n) : 2 ^ (ctz n + 1) ∣ n + 2 ^ ctz n := by
  have hbit := (testBit_ctz hn).1
  obtain ⟨m, hm⟩ := two_pow_ctz_dvd hn
  generalize ctz n = k at hbit hm ⊢
  have hodd : m % 2 = 1 := by
    rw [hm, Nat.testBit_two_pow_mul] at hbit
    simpa [Nat.testBit_zero] using hbit
  refine ⟨m / 2 + 1, ?_⟩
  have hm2 : m = 2 * (m / 2) + 1 := by omega
  calc n + 2 ^ k = 2 ^ k * (m + 1) := by rw [Nat.mul_add, Nat.mul_one, ← hm]
    _ = 2 ^ k * (2 * (m / 2 + 1)) := by congr 1; omega
    _ = 2 ^ (k + 1) * (m / 2 + 1) := by ring

theorem any_orArray (ρ : Nat → Bool) (vars : List Nat) {n : Nat} (hn : n < 2 ^ vars.length) :
    (orArray vars n).any (eval ρ) = true ↔ ¬ Covers n (code ρ vars) := by
  induction vars generalizing n with
  | nil =>
    have : n = 0 := by simpa using hn
    simp [orArray, this]
  | cons v vars ih =>
    have hhalf : n / 2 < 2 ^ vars.length := by
      rw [List.length_cons, Nat.pow_succ] at hn
      omega
    have hcode : code ρ (v :: vars) = (ρ v).toNat + 2 * code ρ vars := by simp [code]
    have hlow := (ρ v).toNat_lt
    have hdiv : code ρ (v :: vars) / 2 = code ρ vars := by omega
    have hmod : code ρ (v :: vars) % 2 = (ρ v).toNat := by omega
    rw [covers_iff_half, hdiv, hmod]
    unfold orArray
    split_ifs with h1
    · simp only [List.any_cons, eval_negate_var, Bool.or_eq_true, ih hhalf, h1]
      cases ρ v <;> simp
    · simp [ih hhalf, h1]

theorem orArray_eq_nil_iff {vars : List Nat} {n : Nat} :
    orArray vars n = [] ↔ 2 ^ vars.length ∣ n := by
  induction vars generalizing n with
  | nil => simp [orArray]
  | cons v vars ih =>
    unfold orArray
    rw [List.length_cons, Nat.pow_succ]
    split_ifs with h1
    · simp only [false_iff]
      rintro ⟨m, rfl⟩
      rw [Nat.mul_assoc, Nat.mul_left_comm, Nat.mul_mod_right] at h1
      omega
    · rw [ih]
      have h2 : n = n / 2 * 2 := by omega
      constructor
      · rintro ⟨m, hm⟩
        exact ⟨m, by rw [h2, hm]; ring⟩
      · rintro ⟨m, hm⟩
        refine ⟨m, ?_⟩
        have : n = 2 * (2 ^ vars.length * m) := by rw [hm]; ring
        omega

private theorem all_andArray (ρ : Nat → Bool) (vars : List Nat) {fuel k n : Nat}
    (hfuel : vars.length < fuel + k) (hdvd : 2 ^ k ∣ n) (hpos : 0 < n) (hn : n ≤ 2 ^ vars.length) :
    (andArray vars fuel n).all (eval ρ) = true ↔ code ρ vars < n := by
  have hcode := code_lt ρ vars
  induction fuel generalizing k n with
  | zero =>
    have hle := (Nat.pow_le_pow_iff_right Nat.one_lt_two).mp ((Nat.le_of_dvd hpos hdvd).trans hn)
    omega
  | succ fuel ih =>
    unfold andArray
    split_ifs with hnil
    · have hge := Nat.le_of_dvd hpos (orArray_eq_nil_iff.mp hnil)
      simp only [List.all_nil, true_iff]
      omega
    · have hlt : n < 2 ^ vars.length := by
        apply lt_of_le_of_ne hn
        rintro rfl
        exact hnil (orArray_eq_nil_iff.mpr dvd_rfl)
      have hctz := two_pow_ctz_dvd hpos
      have hk := le_ctz hpos hdvd
      have hbound : ctz n < vars.length :=
        (Nat.pow_lt_pow_iff_right Nat.one_lt_two).mp ((Nat.le_of_dvd hpos hctz).trans_lt hlt)
      have hnext : n + 2 ^ ctz n ≤ 2 ^ vars.length :=
        Nat.le_of_lt_add_of_dvd (by omega) (Nat.dvd_add hctz dvd_rfl)
          (Nat.pow_dvd_pow 2 hbound.le)
      have hrest : (andArray vars fuel (n + 2 ^ ctz n)).all (eval ρ) = true ↔
          code ρ vars < n + 2 ^ ctz n :=
        ih (by omega) (two_pow_succ_ctz_dvd hpos) (Nat.add_pos_left hpos _) hnext
      rw [List.all_cons, Bool.and_eq_true, eval_or, any_orArray ρ vars hlt, hrest,
        ← lt_iff_not_covers hctz]

theorem eval_generateLTConstraint (ρ : Nat → Bool) {vars : List Nat} {n : Nat} (hpos : 0 < n)
    (hn : n ≤ 2 ^ vars.length) :
    eval ρ (generateLTConstraint vars n) = true ↔ code ρ vars < n := by
  rw [generateLTConstraint, eval_and]
  exact all_andArray ρ vars (k := 0) (by omega) (one_dvd n) hpos hn

theorem andArray_add (vars : List Nat) {fuel k n : Nat} (m : Nat)
    (hfuel : vars.length < fuel + k) (hdvd : 2 ^ k ∣ n) (hpos : 0 < n) :
    andArray vars (fuel + m) n = andArray vars fuel n := by
  induction fuel generalizing k n with
  | zero =>
    have hnil : orArray vars n = [] := by
      apply orArray_eq_nil_iff.mpr
      exact (Nat.pow_dvd_pow 2 (by omega)).trans hdvd
    cases m <;> simp [andArray, hnil]
  | succ fuel ih =>
    have hk := le_ctz hpos hdvd
    rw [Nat.succ_add]
    unfold andArray
    rw [ih (by omega) (two_pow_succ_ctz_dvd hpos) (Nat.add_pos_left hpos _)]

end Constraint

end SatCheck
