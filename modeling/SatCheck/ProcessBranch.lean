import SatCheck.RecordEncoding
/-!
# Branches

`insertBranch` gives a branch a code for each known direction, one for a new direction and code 0
for a branch that is not executed.  `processBranch` ties the code to the value of the condition.
-/

namespace SatCheck

open Constraint

/-- The number of codes that `insertBranch` counts. -/
def branchCodes (numValues len : Nat) (alwaysexecuted : Bool) : Nat :=
  let numvalue := if numValues < len then numValues + 1 else numValues
  if alwaysexecuted then numvalue else numvalue + 1

/-- The direction that the condition selects: any value other than 0 goes to direction 1 if
`anyvalue` says so. -/
def direction (anyvalue : Bool) (condition : UInt64) : UInt64 :=
  if condition = 0 then 0 else if anyvalue then 1 else condition

/-- The tables with those of the branches: the values of each record in the order of
`getValue`, `getBranch`, the records of `execcondtable` and the variables of `branchtable`. -/
structure BranchTables (R : Type) extends EncodingTables R where
  valuevector : R → List UInt64
  getLen : R → Nat
  getBranchAnyValue : R → Bool
  branch : R → Option (R × UInt64)
  execcondtable : R → List R
  branchtable : R → List Nat
  inserted : ∀ r, (info r).event = .branchdir → (branchtable r).length =
    numBits (branchCodes (valuevector r).length (getLen r)
      ((execcondtable r).isEmpty && (branch r).isNone))

namespace BranchTables

variable {R : Type} (t : BranchTables R)

def isAlwaysExecuted (record : R) : Bool :=
  (t.execcondtable record).isEmpty && (t.branch record).isNone

def directionCode (record : R) (index : Nat) : Nat :=
  if t.isAlwaysExecuted record then index else index + 1

/-- `BranchRecord::getBranch`; the index is asserted to exist. -/
def getBranch (branchval : R × UInt64) : Option Constraint :=
  if branchval.2 ∈ t.valuevector branchval.1 then
    some (generateConstraint (t.branchtable branchval.1)
      (t.directionCode branchval.1 ((t.valuevector branchval.1).idxOf branchval.2)))
  else none

def getAnyBranch (record : R) : Constraint :=
  if t.isAlwaysExecuted record then .ctrue else .or ((t.branchtable record).map .var)

/-- `BranchRecord::getBranchValue`: the `uint` is returned as an `int`. -/
def getBranchValue (ρ : Nat → Bool) (record : R) : Int :=
  let value : Int := code ρ (t.branchtable record)
  Int.bmod (if t.isAlwaysExecuted record then value else value - 1) (2 ^ 32)

/-- The array of `getExecutionConstraint`: the exits are not taken and the branch is. -/
def conditions (record : R) : List (Option Constraint) :=
  (t.execcondtable record).map (fun rec =>
      (t.branch rec).bind fun recbranch => (t.getBranch recbranch).map negate) ++
    (t.branch record).toList.map t.getBranch

def getExecutionConstraint (record : R) : Option Constraint :=
  ((t.conditions record).mapM id).map fun array =>
    match array with
    | [] => .ctrue
    | [c] => c
    | cs => .and cs

/-- The constraints of one iteration of the loop over the directions of `record`. -/
def processDirection (record val_record : R) (val : UInt64) : List (Option Constraint) :=
  let execconstraint := t.getExecutionConstraint record
  let branchval := t.getBranch (record, val)
  if val = 0 then
    [EncodingTables.imply (both execconstraint (t.getRetValueEncoding val_record val)) branchval]
  else if t.getBranchAnyValue record then
    match t.getRetValueEncoding val_record 0 with
    | some zero => [EncodingTables.imply (both (some zero.negate) execconstraint) branchval]
    | none => (t.valuevector val_record).map fun epval =>
        EncodingTables.imply (both execconstraint (t.getRetValueEncoding val_record epval))
          branchval
  else
    [EncodingTables.imply (both execconstraint (t.getRetValueEncoding val_record val)) branchval]

/-- The constraints that `processBranch` adds; the condition is asserted to have a record. -/
def processBranch (record : R) : List (Option Constraint) :=
  (if t.isAlwaysExecuted record then []
    else [EncodingTables.imply (some (t.getAnyBranch record)) (t.getExecutionConstraint record)]) ++
    match t.getRevDependences record vcBaseIndex with
    | none => [none]
    | some val_record => (t.valuevector record).flatMap (t.processDirection record val_record)

/-! ## Execution constraints -/

variable {t} {record val_record : R} {ρ : Nat → Bool} {e c : Constraint} {v : UInt64}

theorem implicationFree_getBranch {branchval : R × UInt64} (h : t.getBranch branchval = some c) :
    c.implicationFree = true := by
  unfold getBranch at h
  split_ifs at h
  obtain rfl := Option.some.inj h
  exact implicationFree_generateConstraint _ _

private theorem implicationFree_of_mem_conditions (h : some c ∈ t.conditions record) :
    c.implicationFree = true := by
  rcases List.mem_append.mp h with h | h
  · obtain ⟨rec, -, hrec⟩ := List.mem_map.mp h
    obtain ⟨recbranch, -, hbranch⟩ := Option.bind_eq_some_iff.mp hrec
    obtain ⟨d, hd, rfl⟩ := Option.map_eq_some_iff.mp hbranch
    exact implicationFree_negate d (implicationFree_getBranch hd)
  · obtain ⟨branchval, -, hbranch⟩ := List.mem_map.mp h
    exact implicationFree_getBranch hbranch

theorem mem_of_mapM_id {array : List (Option Constraint)} {cs : List Constraint}
    (h : array.mapM id = some cs) (hc : c ∈ cs) : some c ∈ array := by
  induction array generalizing cs with
  | nil =>
    obtain rfl : [] = cs := by simpa using h
    simp at hc
  | cons a array ih =>
    rw [List.mapM_cons] at h
    obtain ⟨d, hd, h⟩ := Option.bind_eq_some_iff.mp h
    obtain ⟨ds, hds, h⟩ := Option.bind_eq_some_iff.mp h
    obtain rfl : d :: ds = cs := Option.some.inj h
    rcases List.mem_cons.mp hc with rfl | hc
    · exact hd ▸ List.mem_cons_self
    · exact List.mem_cons_of_mem _ (ih hds hc)

theorem implicationFree_getExecutionConstraint (h : t.getExecutionConstraint record = some e) :
    e.implicationFree = true := by
  obtain ⟨array, harray, rfl⟩ := Option.map_eq_some_iff.mp h
  have hfree : ∀ c ∈ array, c.implicationFree = true :=
    fun c hc => implicationFree_of_mem_conditions (mem_of_mapM_id harray hc)
  split
  · rfl
  · exact hfree _ List.mem_cons_self
  · rw [implicationFree_and, List.all_eq_true]
    exact hfree

/-! ## Codes of directions -/

theorem branchCodes_eq (n len : Nat) (alwaysexecuted : Bool) :
    branchCodes n len alwaysexecuted =
      n + (if n < len then 1 else 0) + (if alwaysexecuted then 0 else 1) := by
  unfold branchCodes
  split_ifs <;> rfl

theorem directionCode_lt {val : UInt64} (hevent : (t.info record).event = .branchdir)
    (h : val ∈ t.valuevector record) :
    t.directionCode record ((t.valuevector record).idxOf val) <
      2 ^ (t.branchtable record).length := by
  have hidx := List.idxOf_lt_length_iff.mpr h
  rw [t.inserted record hevent]
  apply EncodingTables.lt_two_pow_numBits
  unfold directionCode branchCodes isAlwaysExecuted
  split_ifs <;> simp only <;> omega

theorem getBranchValue_of_getBranch {val : UInt64} (hevent : (t.info record).event = .branchdir)
    (hcount : (t.valuevector record).length < 2 ^ 31)
    (hc : t.getBranch (record, val) = some c) (heval : eval ρ c = true) :
    t.getBranchValue ρ record = (t.valuevector record).idxOf val := by
  unfold getBranch at hc
  split_ifs at hc with hmem
  obtain rfl := Option.some.inj hc
  have hcode := (eval_generateConstraint (directionCode_lt hevent hmem)).mp heval
  have hidx := List.idxOf_lt_length_iff.mpr hmem
  have hvalue : (if t.isAlwaysExecuted record then (code ρ (t.branchtable record) : Int)
      else code ρ (t.branchtable record) - 1) = (t.valuevector record).idxOf val := by
    rw [hcode]
    unfold directionCode
    split_ifs <;> simp
  simp only [getBranchValue, hvalue]
  dsimp only at hidx ⊢
  apply Int.bmod_eq_of_le <;> omega

theorem getBranchValue_of_not_any (halways : t.isAlwaysExecuted record = false)
    (hany : eval ρ (t.getAnyBranch record) = false) : t.getBranchValue ρ record = -1 := by
  simp only [getAnyBranch, halways, Bool.false_eq_true, if_false, eval_or_vars] at hany
  simp only [getBranchValue, halways, hany]
  rfl

open scoped FewRecords

/-- Record 0 compares two values, and record 1 branches on the comparison and has taken
direction 1. -/
def branchOnEquals : BranchTables (Fin 2) where
  info r := ⟨if r = 0 then .equals else .branchdir, 0, .add, false, 0⟩
  getSet _ _ := []
  getRevDependences r i := if r = 1 ∧ i = vcBaseIndex then some 0 else none
  equalstable _ := 1
  functiontable _ := []
  getStoreLoadSet _ := 0
  getValues _ := []
  getValVars _ := List.range' 2 32
  getRMWRValVars _ := List.range' 2 32
  varindex := 35
  functionVars _ := rfl
  valVars _ := rfl
  rmwrValVars _ := rfl
  valuevector r := if r = 0 then [1, 0] else [1]
  getLen _ := 2
  getBranchAnyValue _ := true
  branch _ := none
  execcondtable _ := []
  branchtable _ := [34]
  inserted r hbranch := by by_cases h : r = 0 <;> simp [h, numBits, branchCodes]

end BranchTables

end SatCheck
