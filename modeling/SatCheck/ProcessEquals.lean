import SatCheck.EventRecord
import SatCheck.Encoding
/-!
# Comparisons

`processEquals` defines the output of a comparison by its operands.  An operand is a constant or
the value that a record returns, which every kind of record encodes in its own way.
-/

namespace SatCheck

open Constraint

/-- `NUMBITS(numvalue - 1)` of an unsigned `numvalue`. -/
def numBits (numvalue : Nat) : Nat := if numvalue = 0 then 32 else (numvalue - 1).size

/-- What `ConstGen` has for the records: their value sets, the variable of each EQUALS record, the
variables of each function and memory action, and the values of the `StoreLoadSet`s, by number. -/
structure EncodingTables (R : Type) where
  info : R → RecordInfo
  getSet : R → Nat → List UInt64
  getRevDependences : R → Nat → Option R
  equalstable : R → Nat
  functiontable : R → List Nat
  getStoreLoadSet : R → Nat
  getValues : Nat → List UInt64
  getValVars : R → List Nat
  getRMWRValVars : R → List Nat
  varindex : Nat
  functionVars : ∀ r, (functiontable r).length =
    numBits (if (info r).phi then (getSet r vcBaseIndex).length
      else (getSet r vcFuncoutIndex).length + 1)
  valVars : ∀ r, (getValVars r).length = numBits (getValues (getStoreLoadSet r)).length
  rmwrValVars : ∀ r, (getRMWRValVars r).length = numBits (getValues (getStoreLoadSet r)).length

namespace EncodingTables

variable {R : Type} (t : EncodingTables R)

def functionSet (record : R) : List UInt64 :=
  if (t.info record).phi then t.getSet record vcBaseIndex else t.getSet record vcFuncoutIndex

/-- `FunctionRecord::getValueEncoding`. -/
def functionEncoding (record : R) (val : UInt64) : Option Constraint :=
  if val ∈ t.functionSet record then
    some (generateConstraint (t.functiontable record) ((t.functionSet record).idxOf val))
  else none

/-- `ValueRecord::getValueEncoding`. -/
def valueEncoding (set : List UInt64) (vars : List Nat) (value : UInt64) : Option Constraint :=
  if value ∈ set then
    some (if numBits set.length = 0 then .ctrue else generateConstraint vars (set.idxOf value))
  else none

/-- `none` stands for `NULL`. -/
def getRetValueEncoding (record : R) (value : UInt64) : Option Constraint :=
  match (t.info record).event with
  | .equals =>
      some (if value ≠ 0 then .var (t.equalstable record)
        else (Constraint.var (t.equalstable record)).negate)
  | .function => t.functionEncoding record value
  | .load => valueEncoding (t.getValues (t.getStoreLoadSet record)) (t.getValVars record) value
  | .rmw => valueEncoding (t.getValues (t.getStoreLoadSet record)) (t.getRMWRValVars record) value
  | _ => none

/-- `new Constraint(IMPLIES, l, r)`; `none` is one with a missing operand. -/
def imply (l r : Option Constraint) : Option Constraint :=
  l.bind fun l => r.map fun r => .implies l r

/-- The loop over the bits, with new variables from `varindex` on. -/
def equalsBits : Nat → List Nat → List Nat → List Constraint
  | n, v :: valvar1, w :: valvar2 =>
      .or [.var v, (Constraint.var w).negate, (Constraint.var n).negate] ::
      .or [.var w, (Constraint.var v).negate, (Constraint.var n).negate] ::
      .or [.var v, .var w, .var n] ::
      .or [(Constraint.var w).negate, (Constraint.var v).negate, .var n] ::
        equalsBits (n + 1) valvar1 valvar2
  | _, _, _ => []

def isRead (record : R) : Bool :=
  (t.info record).event == .load || (t.info record).event == .rmw

def readVars (record : R) : List Nat :=
  if (t.info record).event = .rmw then t.getRMWRValVars record else t.getValVars record

/-- Both operands read from one `StoreLoadSet`. -/
def sameSet (r₀ r₁ : R) : Bool :=
  t.isRead r₀ && t.isRead r₁ && t.getStoreLoadSet r₀ == t.getStoreLoadSet r₁

def bitwise (outputtrue : Option Constraint) (r₀ r₁ : R) : List (Option Constraint) :=
  let vars := Constraint.and
    ((List.range' t.varindex (t.readVars r₀).length).map Constraint.var)
  (equalsBits t.varindex (t.readVars r₀) (t.readVars r₁)).map some ++
    [imply (some vars) outputtrue, imply outputtrue (some vars)]

/-- The comparison of the value that `r` returns with the constant of the other operand. -/
def oneSided (outputtrue : Option Constraint) (r : R) (consts : List UInt64) :
    List (Option Constraint) :=
  match consts with
  | [] => [none]
  | constval :: _ =>
      [imply (t.getRetValueEncoding r constval) outputtrue,
        imply outputtrue (t.getRetValueEncoding r constval)]

def pairwise (outputtrue : Option Constraint) (r₀ r₁ : R) (vals₀ vals₁ : List UInt64) :
    List (Option Constraint) :=
  vals₀.flatMap fun val₁ => vals₁.map fun val₂ =>
    imply ((t.getRetValueEncoding r₀ val₁).bind fun l =>
        (t.getRetValueEncoding r₁ val₂).map fun r => .and [l, r])
      (if val₁ = val₂ then outputtrue else outputtrue.map negate)

def processEquals (record : R) : List (Option Constraint) :=
  let outputtrue := t.getRetValueEncoding record 1
  let set₀ := t.getSet record vcBaseIndex
  let set₁ := t.getSet record (vcBaseIndex + 1)
  match t.getRevDependences record vcBaseIndex,
    t.getRevDependences record (vcBaseIndex + 1) with
  | some r₀, some r₁ =>
      if t.sameSet r₀ r₁ then t.bitwise outputtrue r₀ r₁
      else t.pairwise outputtrue r₀ r₁ set₀ set₁
  | none, none =>
      match set₀, set₁ with
      | constval :: _, constval2 :: _ =>
          [if constval = constval2 then outputtrue else outputtrue.map negate]
      | _, _ => [none]
  | none, some r => t.oneSided outputtrue r set₀
  | some r, none => t.oneSided outputtrue r set₁

/-! ## The values of the operands -/

def Encodes (ρ : Nat → Bool) (record : R) (value : UInt64) : Prop :=
  match (t.info record).event with
  | .equals => value = if ρ (t.equalstable record) then 1 else 0
  | .function => value ∈ t.functionSet record ∧
      code ρ (t.functiontable record) = (t.functionSet record).idxOf value
  | .load | .rmw => value ∈ t.getValues (t.getStoreLoadSet record) ∧
      code ρ (t.readVars record) = (t.getValues (t.getStoreLoadSet record)).idxOf value
  | _ => False

def Encodable (record : R) (value : UInt64) : Prop :=
  match (t.info record).event with
  | .equals => True
  | .function => value ∈ t.functionSet record
  | .load | .rmw => value ∈ t.getValues (t.getStoreLoadSet record)
  | _ => False

/-- A registered value of the operand `i` of `record`, which its record encodes. -/
def OperandValue (ρ : Nat → Bool) (record : R) (i : Nat) (value : UInt64) : Prop :=
  value ∈ t.getSet record (vcBaseIndex + i) ∧
    ∀ r, t.getRevDependences record (vcBaseIndex + i) = some r → t.Encodes ρ r value

/-- No operand of a constraint is missing, and the output says whether the operands are equal. -/
def DefinesEquality (record : R) : Prop :=
  (∀ c ∈ t.processEquals record, c ≠ none) ∧
    ∀ ρ, (∀ c, some c ∈ t.processEquals record → eval ρ c = true) →
      ∀ v w, t.OperandValue ρ record 0 v → t.OperandValue ρ record 1 w →
        (ρ (t.equalstable record) = true ↔ v = w)

/-! ## Encodings -/

theorem lt_two_pow_numBits {n i : Nat} (h : i < n) : i < 2 ^ numBits n := by
  have hne : n ≠ 0 := by omega
  rw [numBits, if_neg hne]
  have hsize := Nat.lt_size_self (n - 1)
  omega

/-- A known value has an encoding, which says that the variables hold its code. -/
theorem eval_valueEncoding {set : List UInt64} {vars : List Nat} {value : UInt64}
    (hlen : vars.length = numBits set.length) (h : value ∈ set) :
    ∃ c, valueEncoding set vars value = some c ∧ c.implicationFree = true ∧
      ∀ ρ, eval ρ c = true ↔ code ρ vars = set.idxOf value := by
  have hidx : set.idxOf value < 2 ^ vars.length := by
    rw [hlen]
    exact lt_two_pow_numBits (List.idxOf_lt_length_iff.mpr h)
  rw [valueEncoding, if_pos h]
  refine ⟨_, rfl, ?_⟩
  split_ifs with hzero
  · refine ⟨rfl, fun ρ => ?_⟩
    have hnil : vars = [] := List.length_eq_zero_iff.mp (hlen.trans hzero)
    rw [hnil, List.length_nil, Nat.pow_zero] at hidx
    have hfirst : set.idxOf value = 0 := by omega
    simp [hnil, hfirst, code]
  · exact ⟨implicationFree_generateConstraint _ _, fun ρ => eval_generateConstraint hidx⟩

theorem eval_functionEncoding {r : R} {value : UInt64} (h : value ∈ t.functionSet r) :
    ∃ c, t.functionEncoding r value = some c ∧ c.implicationFree = true ∧
      ∀ ρ, eval ρ c = true ↔ code ρ (t.functiontable r) = (t.functionSet r).idxOf value := by
  have hidx : (t.functionSet r).idxOf value < 2 ^ (t.functiontable r).length := by
    have hlt := List.idxOf_lt_length_iff.mpr h
    rw [t.functionVars]
    apply lt_two_pow_numBits
    unfold functionSet at hlt ⊢
    split_ifs at hlt ⊢
    · exact hlt
    · exact Nat.lt_succ_of_lt hlt
  rw [functionEncoding, if_pos h]
  exact ⟨_, rfl, implicationFree_generateConstraint _ _, fun ρ => eval_generateConstraint hidx⟩

def IsReturned (r : R) (value : UInt64) : Prop :=
  (t.info r).event = .equals → value = 0 ∨ value = 1

variable {t} {r r₀ r₁ record : R} {ρ : Nat → Bool} {value v w : UInt64}

theorem getRetValueEncoding_eq_none (h : ¬ t.Encodable r value) :
    t.getRetValueEncoding r value = none := by
  unfold Encodable at h
  unfold getRetValueEncoding
  cases hevent : (t.info r).event <;> simp only [hevent, not_true_eq_false] at h ⊢
  · exact if_neg h
  · exact if_neg h
  · exact if_neg h

theorem exists_encoding (h : t.Encodable r value) :
    ∃ c, t.getRetValueEncoding r value = some c ∧ c.implicationFree = true ∧
      (t.IsReturned r value → ∀ ρ, eval ρ c = true ↔ t.Encodes ρ r value) := by
  unfold Encodable at h
  unfold getRetValueEncoding IsReturned Encodes
  cases hevent : (t.info r).event <;> simp only [hevent] at h ⊢
  · obtain ⟨c, hc, hfree, heval⟩ := eval_valueEncoding (t.valVars r) h
    refine ⟨c, hc, hfree, fun _ ρ => ?_⟩
    rw [heval, readVars, if_neg (by simp [hevent])]
    exact ⟨fun hcode => ⟨h, hcode⟩, fun hcode => hcode.2⟩
  · obtain ⟨c, hc, hfree, heval⟩ := eval_valueEncoding (t.rmwrValVars r) h
    refine ⟨c, hc, hfree, fun _ ρ => ?_⟩
    rw [heval, readVars, if_pos hevent]
    exact ⟨fun hcode => ⟨h, hcode⟩, fun hcode => hcode.2⟩
  · obtain ⟨c, hc, hfree, heval⟩ := t.eval_functionEncoding h
    refine ⟨c, hc, hfree, fun _ ρ => ?_⟩
    rw [heval]
    exact ⟨fun hcode => ⟨h, hcode⟩, fun hcode => hcode.2⟩
  · refine ⟨_, rfl, ?_, fun hreturned ρ => ?_⟩
    · split_ifs <;> rfl
    · rcases hreturned trivial with rfl | rfl
      · cases hvar : ρ (t.equalstable r) <;> simp [hvar]
      · cases hvar : ρ (t.equalstable r) <;> simp [hvar]

theorem Encodes.unique (h : t.Encodes ρ r v) (h' : t.Encodes ρ r w) : v = w := by
  unfold Encodes at h h'
  cases hevent : (t.info r).event <;> simp only [hevent] at h h'
  · exact (List.idxOf_inj h.1).mp (h.2.symm.trans h'.2)
  · exact (List.idxOf_inj h.1).mp (h.2.symm.trans h'.2)
  · exact (List.idxOf_inj h.1).mp (h.2.symm.trans h'.2)
  · exact h.trans h'.symm

/-! ## Operands -/

variable (t) in
/-- A recorded EQUALS: a constant operand has one value, and the values of a recorded operand are
those that its record returns. -/
structure RecordedEquals (record : R) : Prop where
  event : (t.info record).event = .equals
  constant : ∀ i < 2, t.getRevDependences record (vcBaseIndex + i) = none →
    ∃ val, t.getSet record (vcBaseIndex + i) = [val]
  returned : ∀ i < 2, ∀ r, t.getRevDependences record (vcBaseIndex + i) = some r →
    ∀ val ∈ t.getSet record (vcBaseIndex + i), t.IsReturned r val

theorem RecordedEquals.outputtrue (h : t.RecordedEquals record) :
    t.getRetValueEncoding record 1 = some (.var (t.equalstable record)) := by
  unfold getRetValueEncoding
  simp [h.event]

/-- The loop over the bits makes each new variable say that two bits are equal. -/
theorem eval_equalsBits {n : Nat} {valvar1 valvar2 : List Nat}
    (hlen : valvar1.length = valvar2.length)
    (h : ∀ c ∈ equalsBits n valvar1 valvar2, eval ρ c = true) :
    eval ρ (.and ((List.range' n valvar1.length).map Constraint.var)) = true ↔
      code ρ valvar1 = code ρ valvar2 := by
  have hbits : (∀ i ∈ List.range' n valvar1.length, ρ i = true) ↔
      valvar1.map ρ = valvar2.map ρ := by
    induction valvar1 generalizing n valvar2 with
    | nil => simp [List.length_eq_zero_iff.mp hlen.symm]
    | cons v valvar1 ih =>
      cases valvar2 with
      | nil => exact absurd hlen (by simp)
      | cons w valvar2 =>
        unfold equalsBits at h
        simp only [List.forall_mem_cons, eval_or, List.any_cons, List.any_nil, eval_var,
          eval_negate_var] at h
        obtain ⟨h₁, h₂, h₃, h₄, hrest⟩ := h
        have hbit : ρ n = true ↔ ρ v = ρ w := by
          cases hn : ρ n <;> cases hv : ρ v <;> cases hw : ρ w <;> simp_all
        rw [List.length_cons, List.range'_succ, List.forall_mem_cons, hbit,
          ih (by simpa using hlen) hrest, List.map_cons, List.map_cons, List.cons.injEq]
  rw [eval_and, List.all_map, List.all_eq_true]
  simp only [Function.comp_apply, eval_var]
  rw [hbits]
  constructor
  · intro heq
    rw [code, heq, code]
  · exact BinaryCode.value_injective (by simpa using hlen)

theorem imply_some (l r : Constraint) : imply (some l) (some r) = some (.implies l r) := rfl

theorem eval_iff_of_implies {l out : Constraint} (h : eval ρ (.implies l out) = true)
    (h' : eval ρ (.implies out l) = true) : eval ρ out = true ↔ eval ρ l = true := by
  rw [eval_implies] at h h'
  cases hl : eval ρ l <;> cases hout : eval ρ out <;> simp_all

theorem encodes_of_isRead (hread : t.isRead r = true) :
    t.Encodes ρ r v ↔ v ∈ t.getValues (t.getStoreLoadSet r) ∧
      code ρ (t.readVars r) = (t.getValues (t.getStoreLoadSet r)).idxOf v := by
  unfold isRead at hread
  unfold Encodes
  simp only [Bool.or_eq_true, beq_iff_eq] at hread
  rcases hread with hevent | hevent <;> simp only [hevent]

theorem length_readVars :
    (t.readVars r).length = numBits (t.getValues (t.getStoreLoadSet r)).length := by
  unfold readVars
  split_ifs
  · exact t.rmwrValVars r
  · exact t.valVars r

theorem bitwise_spec (hsame : t.sameSet r₀ r₁ = true) {out : Constraint}
    (h : ∀ c, some c ∈ t.bitwise (some out) r₀ r₁ → eval ρ c = true)
    (hv : t.Encodes ρ r₀ v) (hw : t.Encodes ρ r₁ w) : eval ρ out = true ↔ v = w := by
  unfold sameSet at hsame
  simp only [Bool.and_eq_true, beq_iff_eq] at hsame
  obtain ⟨⟨hread₀, hread₁⟩, hset⟩ := hsame
  rw [encodes_of_isRead hread₀] at hv
  rw [encodes_of_isRead hread₁, ← hset] at hw
  have hlen : (t.readVars r₀).length = (t.readVars r₁).length := by
    rw [length_readVars, length_readVars, hset]
  set vars := Constraint.and ((List.range' t.varindex (t.readVars r₀).length).map Constraint.var)
  have hbits : eval ρ vars = true ↔ code ρ (t.readVars r₀) = code ρ (t.readVars r₁) :=
    eval_equalsBits hlen fun c hc => h c (by simp [bitwise, hc])
  have hout : eval ρ out = true ↔ eval ρ vars = true :=
    eval_iff_of_implies (h _ (by simp [bitwise, imply, vars]))
      (h _ (by simp [bitwise, imply, vars]))
  rw [hout, hbits, hv.2, hw.2]
  exact List.idxOf_inj hv.1

theorem oneSided_spec {out : Constraint} {constval : UInt64} {consts : List UInt64}
    (hknown : t.Encodable r constval) (hreturned : t.IsReturned r constval)
    (h : ∀ c, some c ∈ t.oneSided (some out) r (constval :: consts) → eval ρ c = true)
    (hv : t.Encodes ρ r v) : eval ρ out = true ↔ v = constval := by
  obtain ⟨l, hl, -, heval⟩ := exists_encoding hknown
  have hout : eval ρ out = true ↔ eval ρ l = true :=
    eval_iff_of_implies (h _ (by simp [oneSided, hl, imply])) (h _ (by simp [oneSided, hl, imply]))
  rw [hout, heval hreturned ρ]
  constructor
  · exact fun hconst => hv.unique hconst
  · rintro rfl
    exact hv

theorem pairwise_spec {n : Nat} {vals₀ vals₁ : List UInt64}
    (h : ∀ c, some c ∈ t.pairwise (some (.var n)) r₀ r₁ vals₀ vals₁ → eval ρ c = true)
    (hv : v ∈ vals₀) (hw : w ∈ vals₁) (hknown₀ : t.Encodable r₀ v) (hknown₁ : t.Encodable r₁ w)
    (hreturned₀ : t.IsReturned r₀ v) (hreturned₁ : t.IsReturned r₁ w)
    (henc₀ : t.Encodes ρ r₀ v) (henc₁ : t.Encodes ρ r₁ w) : ρ n = true ↔ v = w := by
  obtain ⟨l, hl, -, hevall⟩ := exists_encoding hknown₀
  obtain ⟨r, hr, -, hevalr⟩ := exists_encoding hknown₁
  have hpair := h (.implies (.and [l, r]) (if v = w then .var n else (Constraint.var n).negate))
    (by
      apply List.mem_flatMap.mpr
      refine ⟨v, hv, List.mem_map.mpr ⟨w, hw, ?_⟩⟩
      rw [hl, hr]
      split_ifs <;> rfl)
  have htruel := (hevall hreturned₀ ρ).mpr henc₀
  have htruer := (hevalr hreturned₁ ρ).mpr henc₁
  simp only [eval_implies, eval_and, List.all_cons, List.all_nil, htruel, htruer, Bool.and_self,
    Bool.not_true, Bool.false_or] at hpair
  by_cases heq : v = w
  · rw [if_pos heq, eval_var] at hpair
    exact iff_of_true hpair heq
  · rw [if_neg heq, eval_negate_var] at hpair
    exact iff_of_false (by simpa using hpair) heq

/-! ## When the output is defined -/

variable (t) in
/-- The constant of a comparison is known to the encoding of the other operand and returned by its
record, or nothing that would be mistaken for it is registered. -/
def ConstantKnown (r : R) (consts vals : List UInt64) : Prop :=
  ∀ constval ∈ consts, t.Encodable r constval ∧
    ((t.info r).event = .equals → constval = 0 ∨ constval = 1 ∨ 1 ∉ vals)

variable (t) in
def Comparable (record : R) : Prop :=
  let set₀ := t.getSet record vcBaseIndex
  let set₁ := t.getSet record (vcBaseIndex + 1)
  match t.getRevDependences record vcBaseIndex,
    t.getRevDependences record (vcBaseIndex + 1) with
  | some r₀, some r₁ => t.sameSet r₀ r₁ = true ∨ set₀ = [] ∨ set₁ = [] ∨
      (∀ val ∈ set₀, t.Encodable r₀ val) ∧ ∀ val ∈ set₁, t.Encodable r₁ val
  | none, none => True
  | none, some r => t.ConstantKnown r set₀ set₁
  | some r, none => t.ConstantKnown r set₁ set₀

/-- The comparison of `r` with one constant, which `vals` are registered for. -/
theorem oneSided_iff (n : Nat) (constval : UInt64) {vals : List UInt64}
    (hreturned : ∀ val ∈ vals, t.IsReturned r val) :
    ((∀ c ∈ t.oneSided (some (.var n)) r [constval], c ≠ none) ∧
      ∀ ρ, (∀ c, some c ∈ t.oneSided (some (.var n)) r [constval] → eval ρ c = true) →
        ∀ v ∈ vals, t.Encodes ρ r v → (ρ n = true ↔ v = constval)) ↔
      t.ConstantKnown r [constval] vals := by
  constructor
  · rintro ⟨hnone, hspec⟩ val hval
    obtain rfl := List.mem_singleton.mp hval
    have hknown : t.Encodable r val := by
      by_contra hunknown
      exact hnone none (by simp [oneSided, imply, getRetValueEncoding_eq_none hunknown]) rfl
    refine ⟨hknown, fun hevent => ?_⟩
    by_contra hmistaken
    push Not at hmistaken
    obtain ⟨hzero, hone, hmem⟩ := hmistaken
    -- with all variables true the comparison returns 1 and is taken for the constant
    have hencodes : t.Encodes (fun _ => true) r 1 := by
      unfold Encodes
      simp [hevent]
    have htrue := hspec (fun _ => true) ?_ 1 hmem hencodes
    · exact hone (htrue.mp rfl).symm
    · intro c hc
      have henc : t.getRetValueEncoding r val = some (.var (t.equalstable r)) := by
        unfold getRetValueEncoding
        simp [hevent, hzero]
      simp only [oneSided, henc, imply_some, List.mem_cons, Option.some.injEq,
        List.not_mem_nil, or_false] at hc
      rcases hc with rfl | rfl <;> simp
  · intro hknown
    obtain ⟨hencodable, hequals⟩ := hknown constval (List.mem_singleton_self constval)
    obtain ⟨l, hl, -, -⟩ := exists_encoding hencodable
    constructor
    · intro c hc
      simp only [oneSided, hl, imply_some, List.mem_cons, List.not_mem_nil, or_false] at hc
      rcases hc with rfl | rfl <;> simp
    · intro ρ h v hv hencodes
      by_cases hconst : t.IsReturned r constval
      · exact oneSided_spec hencodable hconst h hencodes
      · -- the comparison has only returned 0, and the constant is encoded as its 1
        unfold IsReturned at hconst
        push Not at hconst
        obtain ⟨hevent, hzero, hone⟩ := hconst
        have hnotmem : 1 ∉ vals := ((hequals hevent).resolve_left hzero).resolve_left hone
        have hvzero : v = 0 :=
          (hreturned v hv hevent).resolve_right fun heq => hnotmem (heq ▸ hv)
        have henc : t.getRetValueEncoding r constval = some (.var (t.equalstable r)) := by
          unfold getRetValueEncoding
          simp [hevent, hzero]
        have hout : eval ρ (.var n) = true ↔ eval ρ (.var (t.equalstable r)) = true :=
          eval_iff_of_implies (h _ (by simp [oneSided, henc, imply]))
            (h _ (by simp [oneSided, henc, imply]))
        rw [eval_var, eval_var] at hout
        unfold Encodes at hencodes
        simp only [hevent] at hencodes
        subst hvzero
        rw [hout]
        constructor
        · intro hvar
          rw [if_pos hvar] at hencodes
          exact absurd hencodes (by decide)
        · exact fun heq => absurd heq.symm hzero

theorem pairwise_iff (n : Nat) {vals₀ vals₁ : List UInt64}
    (hreturned₀ : ∀ val ∈ vals₀, t.IsReturned r₀ val)
    (hreturned₁ : ∀ val ∈ vals₁, t.IsReturned r₁ val) :
    ((∀ c ∈ t.pairwise (some (.var n)) r₀ r₁ vals₀ vals₁, c ≠ none) ∧
      ∀ ρ, (∀ c, some c ∈ t.pairwise (some (.var n)) r₀ r₁ vals₀ vals₁ → eval ρ c = true) →
        ∀ v ∈ vals₀, ∀ w ∈ vals₁, t.Encodes ρ r₀ v → t.Encodes ρ r₁ w → (ρ n = true ↔ v = w)) ↔
      vals₀ = [] ∨ vals₁ = [] ∨
        (∀ val ∈ vals₀, t.Encodable r₀ val) ∧ ∀ val ∈ vals₁, t.Encodable r₁ val := by
  have hmem : ∀ v ∈ vals₀, ∀ w ∈ vals₁,
      (¬ t.Encodable r₀ v ∨ ¬ t.Encodable r₁ w) →
      none ∈ t.pairwise (some (.var n)) r₀ r₁ vals₀ vals₁ := by
    intro v hv w hw hunknown
    apply List.mem_flatMap.mpr
    refine ⟨v, hv, List.mem_map.mpr ⟨w, hw, ?_⟩⟩
    rcases hunknown with hunknown | hunknown
    · rw [getRetValueEncoding_eq_none hunknown]
      rfl
    · rw [getRetValueEncoding_eq_none hunknown]
      cases t.getRetValueEncoding r₀ v <;> rfl
  constructor
  · rintro ⟨hnone, -⟩
    by_cases h₀ : vals₀ = []
    · exact .inl h₀
    by_cases h₁ : vals₁ = []
    · exact .inr (.inl h₁)
    obtain ⟨v₀, hv₀⟩ := List.exists_mem_of_ne_nil _ h₀
    obtain ⟨w₀, hw₀⟩ := List.exists_mem_of_ne_nil _ h₁
    refine .inr (.inr ⟨fun v hv => ?_, fun w hw => ?_⟩)
    · by_contra hunknown
      exact hnone none (hmem v hv w₀ hw₀ (.inl hunknown)) rfl
    · by_contra hunknown
      exact hnone none (hmem v₀ hv₀ w hw (.inr hunknown)) rfl
  · rintro (rfl | rfl | ⟨hknown₀, hknown₁⟩)
    · exact ⟨by simp [pairwise], fun _ _ v hv => absurd hv List.not_mem_nil⟩
    · exact ⟨by simp [pairwise], fun _ _ _ _ w hw => absurd hw List.not_mem_nil⟩
    · constructor
      · intro c hc
        obtain ⟨v, hv, hc⟩ := List.mem_flatMap.mp hc
        obtain ⟨w, hw, rfl⟩ := List.mem_map.mp hc
        obtain ⟨l, hl, -⟩ := exists_encoding (hknown₀ v hv)
        obtain ⟨r, hr, -⟩ := exists_encoding (hknown₁ w hw)
        rw [hl, hr]
        split_ifs <;> simp [imply]
      · intro ρ h v hv w hw henc₀ henc₁
        exact pairwise_spec h hv hw (hknown₀ v hv) (hknown₁ w hw) (hreturned₀ v hv)
          (hreturned₁ w hw) henc₀ henc₁

/-- `processEquals` defines the equality of the operands if and only if they are comparable. -/
theorem definesEquality_iff {R : Type} {t : EncodingTables R} {record : R}
    (h : t.RecordedEquals record) : t.DefinesEquality record ↔ t.Comparable record := by
  have hconst₀ := h.constant 0 (by decide)
  have hconst₁ := h.constant 1 (by decide)
  have hreturned₀ := h.returned 0 (by decide)
  have hreturned₁ := h.returned 1 (by decide)
  unfold DefinesEquality Comparable OperandValue processEquals
  rw [Nat.add_zero] at *
  rw [h.outputtrue]
  cases hinput₀ : t.getRevDependences record vcBaseIndex with
  | none =>
    obtain ⟨c₀, hset₀⟩ := hconst₀ hinput₀
    cases hinput₁ : t.getRevDependences record (vcBaseIndex + 1) with
    | none =>
      obtain ⟨c₁, hset₁⟩ := hconst₁ hinput₁
      simp only [hset₀, hset₁, List.mem_singleton, iff_true]
      refine ⟨fun c hc => ?_, fun ρ h v w hv hw => ?_⟩
      · rw [hc]
        split_ifs <;> simp
      · obtain ⟨rfl, -⟩ := hv
        obtain ⟨rfl, -⟩ := hw
        by_cases heq : v = w
        · have hout := h (.var (t.equalstable record)) (by rw [if_pos heq])
          exact iff_of_true (by simpa using hout) heq
        · have hout := h (Constraint.var (t.equalstable record)).negate (by simp [heq])
          exact iff_of_false (by simpa using hout) heq
    | some r =>
      have hone := oneSided_iff (t.equalstable record) c₀ (hreturned₁ r hinput₁)
      simp only [hset₀]
      rw [← hone]
      apply and_congr_right'
      apply forall_congr'
      intro ρ
      apply forall_congr'
      intro _
      constructor
      · intro hspec v hv henc
        rw [hspec c₀ v ⟨List.mem_singleton_self c₀, by simp⟩ ⟨hv, by simpa using henc⟩]
        exact eq_comm
      · rintro hspec v w ⟨hv, -⟩ ⟨hw, henc⟩
        obtain rfl := List.mem_singleton.mp hv
        rw [hspec w hw (henc r rfl)]
        exact eq_comm
  | some r₀ =>
    cases hinput₁ : t.getRevDependences record (vcBaseIndex + 1) with
    | none =>
      obtain ⟨c₁, hset₁⟩ := hconst₁ hinput₁
      have hone := oneSided_iff (t.equalstable record) c₁ (hreturned₀ r₀ hinput₀)
      simp only [hset₁]
      rw [← hone]
      apply and_congr_right'
      apply forall_congr'
      intro ρ
      apply forall_congr'
      intro _
      constructor
      · exact fun hspec v hv henc =>
          hspec v c₁ ⟨hv, by simpa using henc⟩ ⟨List.mem_singleton_self c₁, by simp⟩
      · rintro hspec v w ⟨hv, henc⟩ ⟨hw, -⟩
        obtain rfl := List.mem_singleton.mp hw
        exact hspec v hv (henc r₀ rfl)
    | some r₁ =>
      simp only [Option.some.injEq, forall_eq']
      split_ifs with hsame
      · refine iff_of_true ⟨fun c hc => ?_, fun ρ h v w hv hw => ?_⟩ (.inl hsame)
        · rcases List.mem_append.mp hc with hc | hc
          · obtain ⟨c, -, rfl⟩ := List.mem_map.mp hc
            simp
          · simp only [imply_some, List.mem_cons, List.not_mem_nil, or_false] at hc
            rcases hc with rfl | rfl <;> simp
        · have hout := bitwise_spec hsame h hv.2 hw.2
          rwa [eval_var] at hout
      · have hpairs := pairwise_iff (t.equalstable record) (hreturned₀ r₀ hinput₀)
          (hreturned₁ r₁ hinput₁)
        simp only [hsame, Bool.false_eq_true, false_or]
        rw [← hpairs]
        apply and_congr_right'
        apply forall_congr'
        intro ρ
        apply forall_congr'
        intro _
        constructor
        · exact fun hspec v hv w hw henc₀ henc₁ => hspec v w ⟨hv, henc₀⟩ ⟨hw, henc₁⟩
        · exact fun hspec v w hv hw => hspec v hv.1 w hw.1 hv.2 hw.2

open scoped FewRecords

/-- Record 0 stores 0, record 1 loads it and record 2 compares it with a constant; only the sets
of the comparison are given. -/
def loadEqualsConst (constval : UInt64) : EncodingTables (Fin 3) where
  info r := ⟨if r = 0 then .store else if r = 1 then .load else .equals, 0, .add, false, 0⟩
  getSet r i :=
    if r = 2 then if i = vcBaseIndex then [0] else if i = 3 then [constval] else [] else []
  getRevDependences r i := if r = 2 ∧ i = vcBaseIndex then some 1 else none
  equalstable _ := 1
  functiontable _ := []
  getStoreLoadSet _ := 0
  getValues _ := [0]
  getValVars _ := []
  getRMWRValVars _ := []
  varindex := 2
  functionVars r := by by_cases h : r = 2 <;> simp [h, numBits]
  valVars _ := rfl
  rmwrValVars _ := rfl

theorem recordedEquals_loadEqualsConst (constval : UInt64) :
    (loadEqualsConst constval).RecordedEquals 2 where
  event := rfl
  constant i hi hnone := by
    have hcases : i = 0 ∨ i = 1 := by omega
    rcases hcases with rfl | rfl
    · exact absurd hnone (by simp [loadEqualsConst])
    · exact ⟨constval, rfl⟩
  returned i _ r hr val _ hevent := by
    have hload : r = 1 := by
      unfold loadEqualsConst at hr
      simp only at hr
      split_ifs at hr
      exact (Option.some.inj hr).symm
    subst hload
    exact absurd hevent (by simp [loadEqualsConst])

/-- The constant has been stored. -/
theorem definesEquality_loadEqualsConst : (loadEqualsConst 0).DefinesEquality 2 := by
  apply (definesEquality_iff (recordedEquals_loadEqualsConst 0)).mpr
  intro constval hconst
  obtain rfl : constval = 0 := List.mem_singleton.mp hconst
  exact ⟨List.mem_singleton_self 0, fun hevent => absurd hevent (by simp [loadEqualsConst])⟩

/-- Nothing has stored the constant 5, and its encoding is `NULL`. -/
theorem not_definesEquality :
    ¬ ∀ (R : Type) (t : EncodingTables R) (record : R), t.RecordedEquals record →
      t.DefinesEquality record := by
  intro hclaim
  have hmissing : (loadEqualsConst 5).processEquals 2 = [none, none] := by rfl
  have hnone : none ∈ (loadEqualsConst 5).processEquals 2 := by simp [hmissing]
  exact (hclaim _ _ _ (recordedEquals_loadEqualsConst 5)).1 none hnone rfl

end EncodingTables

end SatCheck
