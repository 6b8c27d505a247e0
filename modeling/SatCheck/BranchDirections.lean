import SatCheck.TableVars
/-!
# Directions of a branch

`processBranch` gives a branch the direction of its condition.  For a branch that takes direction 1
on any value other than 0 it goes through the values of the condition that have been seen, unless
it has an encoding of 0 to negate.
-/

namespace SatCheck

open Constraint

/-- The values that a record may return, whether a run has seen them or not. -/
def EncodingTables.returnSet {R : Type} (t : EncodingTables R) (record : R) : List UInt64 :=
  match (t.info record).event with
  | .load | .rmw => t.getSet record vcRfIndex
  | .function => t.functionSet record
  | _ => t.getSet record vcFuncoutIndex

namespace BranchTables

variable {R : Type} (t : BranchTables R)

/-- A branch on the value of a record, with fewer directions than an `int` counts. -/
structure RecordedBranch (record val_record : R) : Prop where
  event : (t.info record).event = .branchdir
  condition : t.getRevDependences record vcBaseIndex = some val_record
  directions : (t.valuevector record).length < 2 ^ 31

/-- The variables that `insertBranch` takes for a branch are in no other record, and the branch
itself is not in the conditions of its execution. -/
structure OwnVars (record : R) : Prop where
  equals : ∀ r, t.equalstable r ∉ t.branchtable record
  functions : ∀ r, ∀ v ∈ t.functiontable r, v ∉ t.branchtable record
  values : ∀ r, ∀ v ∈ t.getValVars r, v ∉ t.branchtable record
  reads : ∀ r, ∀ v ∈ t.getRMWRValVars r, v ∉ t.branchtable record
  branches : ∀ r, r ≠ record → ∀ v ∈ t.branchtable r, v ∉ t.branchtable record
  branch : ∀ branchval, t.branch record = some branchval → branchval.1 ≠ record
  exits : ∀ rec ∈ t.execcondtable record, ∀ branchval, t.branch rec = some branchval →
    branchval.1 ≠ record

/-- An executed branch decodes to the direction of its condition where that is known, and one that
is not executed decodes as such. -/
def DecodesDirection (record val_record : R) : Prop :=
  ∀ ρ, Added ρ (t.processBranch record) → ∀ e, t.getExecutionConstraint record = some e →
    (eval ρ e = true → ∀ v ∈ t.returnSet val_record, t.Encodes ρ val_record v →
      direction (t.getBranchAnyValue record) v ∈ t.valuevector record →
        t.getBranchValue ρ record =
          (t.valuevector record).idxOf (direction (t.getBranchAnyValue record) v)) ∧
    (eval ρ e = false → t.isAlwaysExecuted record = false → t.getBranchValue ρ record = -1)

/-- Where any value but 0 takes direction 1 and 0 has no encoding, every value that the condition
can have at the branch has been seen. -/
def ValuesSeen (record val_record : R) : Prop :=
  t.getBranchAnyValue record = true → 1 ∈ t.valuevector record → t.branchtable record ≠ [] →
    ¬ t.Encodable val_record 0 → ∀ ρ, ∀ e, t.getExecutionConstraint record = some e →
      eval ρ e = true → ∀ v ∈ t.returnSet val_record, t.Encodes ρ val_record v →
        v ∈ t.valuevector val_record

variable {t} {record val_record : R} {ρ ρ' : Nat → Bool} {e c : Constraint} {v : UInt64}

/-! ## The direction of a value that has been seen -/

/-- What `processBranch` says about one direction, when the branch is executed. -/
theorem eval_getBranch_direction (h : t.RecordedBranch record val_record)
    (hadded : Added ρ (t.processBranch record))
    (hexec : t.getExecutionConstraint record = some e) (heval : eval ρ e = true)
    (hv : t.Encodes ρ val_record v)
    (hseen : t.getBranchAnyValue record = true → ¬ t.Encodable val_record 0 →
      v ∈ t.valuevector val_record)
    (hknown : direction (t.getBranchAnyValue record) v ∈ t.valuevector record) :
    ∃ c, t.getBranch (record, direction (t.getBranchAnyValue record) v) = some c ∧
      eval ρ c = true := by
  obtain ⟨c, hc⟩ :
      ∃ c, t.getBranch (record, direction (t.getBranchAnyValue record) v) = some c := by
    rw [getBranch, if_pos hknown]
    exact ⟨_, rfl⟩
  refine ⟨c, hc, ?_⟩
  have hfree := implicationFree_getExecutionConstraint hexec
  have hcfree := implicationFree_getBranch hc
  obtain ⟨enc, henc, hencfree, henceval⟩ := hv.encoding
  have hmem : ∀ d, d ∈ t.processDirection record val_record
      (direction (t.getBranchAnyValue record) v) → d ∈ t.processBranch record := by
    intro d hd
    unfold processBranch
    rw [h.condition]
    exact List.mem_append_right _ (List.mem_flatMap.mpr ⟨_, hknown, hd⟩)
  have hboth : (Constraint.and [e, enc]).implicationFree = true ∧
      eval ρ (.and [e, enc]) = true := by
    simp [hfree, hencfree, heval, henceval]
  by_cases hzero : v = 0
  · subst hzero
    have hdir : direction (t.getBranchAnyValue record) 0 = 0 := if_pos rfl
    rw [hdir] at hc hmem
    apply hadded.of_implies (hmem _ ?_) hboth.1 hcfree hboth.2
    simp [processDirection, hexec, hc, henc, both_some, EncodingTables.imply_some]
  cases hany : t.getBranchAnyValue record with
  | false =>
    have hdir : direction (t.getBranchAnyValue record) v = v := by simp [direction, hzero, hany]
    rw [hdir] at hc hmem
    apply hadded.of_implies (hmem _ ?_) hboth.1 hcfree hboth.2
    simp [processDirection, hexec, hc, hzero, hany, henc, both_some, EncodingTables.imply_some]
  | true =>
    have hdir : direction (t.getBranchAnyValue record) v = 1 := by simp [direction, hzero, hany]
    rw [hdir] at hc hmem
    cases hzeroenc : t.getRetValueEncoding val_record 0 with
    | some zero =>
      obtain ⟨hzerofree, hzeroeval⟩ := hv.encoding_ne hzeroenc (fun _ => .inl rfl) (Ne.symm hzero)
      have hnegate : eval ρ zero.negate = true := by
        rw [eval_negate ρ zero hzerofree, hzeroeval]
        rfl
      apply hadded.of_implies (l := .and [zero.negate, e]) (hmem _ ?_) ?_ hcfree ?_
      · simp [processDirection, hexec, hc, hany, hzeroenc, both_some, EncodingTables.imply_some]
      · simp [hfree, implicationFree_negate zero hzerofree]
      · simp [hnegate, heval]
    | none =>
      have hunknown : ¬ t.Encodable val_record 0 := by
        intro hknown
        obtain ⟨zero, hzero, -⟩ := EncodingTables.exists_encoding hknown
        simp [hzeroenc] at hzero
      apply hadded.of_implies (hmem _ ?_) hboth.1 hcfree hboth.2
      have hval : some (Constraint.implies (.and [e, enc]) c) ∈ (t.valuevector val_record).map
          fun epval => EncodingTables.imply
            (both (some e) (t.getRetValueEncoding val_record epval)) (some c) := by
        rw [List.mem_map]
        exact ⟨v, hseen hany hunknown, by rw [henc]; rfl⟩
      simpa [processDirection, hexec, hc, hany, hzeroenc] using hval

/-- A branch whose execution constraint does not hold is not executed. -/
theorem getBranchValue_of_not_executed (hadded : Added ρ (t.processBranch record))
    (hexec : t.getExecutionConstraint record = some e) (heval : eval ρ e = false)
    (halways : t.isAlwaysExecuted record = false) : t.getBranchValue ρ record = -1 := by
  apply getBranchValue_of_not_any halways
  by_contra hany
  have hparent := hadded.of_implies (l := t.getAnyBranch record) (r := e)
    (by simp [processBranch, halways, hexec, EncodingTables.imply_some])
    (by rw [getAnyBranch, halways]; simp) (implicationFree_getExecutionConstraint hexec)
    (by simpa using hany)
  rw [heval] at hparent
  contradiction

/-! ## Codes and decoded directions -/

private theorem numBits_le {n : Nat} (h : n ≤ 2 ^ 32) : numBits n ≤ 32 := by
  unfold numBits
  split_ifs
  · exact le_rfl
  · exact Nat.size_le.mpr (by omega)

private theorem length_branchtable_le (h : t.RecordedBranch record val_record) :
    (t.branchtable record).length ≤ 32 := by
  have hdirections := h.directions
  rw [t.inserted record h.event, branchCodes_eq]
  apply numBits_le
  split_ifs <;> omega

private theorem numBits_eq_zero_iff {n : Nat} : numBits n = 0 ↔ n = 1 := by
  unfold numBits
  split_ifs with hzero
  · simp [hzero]
  · rw [Nat.size_eq_zero]
    omega

theorem getBranchValue_of_nil (h : t.RecordedBranch record val_record)
    (hmem : v ∈ t.valuevector record) (hbits : t.branchtable record = []) :
    t.getBranchValue ρ record = (t.valuevector record).idxOf v := by
  have hidx := List.idxOf_lt_length_of_mem hmem
  have hinserted := t.inserted record h.event
  rw [hbits, List.length_nil, eq_comm, numBits_eq_zero_iff, branchCodes_eq] at hinserted
  change _ + (if t.isAlwaysExecuted record then 0 else 1) = 1 at hinserted
  have halways : t.isAlwaysExecuted record = true := by
    by_contra halways
    rw [if_neg halways] at hinserted
    omega
  have hfirst : (t.valuevector record).idxOf v = 0 := by omega
  simp [getBranchValue, hbits, halways, hfirst, code]

theorem code_of_getBranchValue (h : t.RecordedBranch record val_record)
    (hmem : v ∈ t.valuevector record)
    (hvalue : t.getBranchValue ρ record = (t.valuevector record).idxOf v) :
    code ρ (t.branchtable record) = t.directionCode record ((t.valuevector record).idxOf v) := by
  have hidx := List.idxOf_lt_length_of_mem hmem
  have hdirections := h.directions
  have hcode := code_lt ρ (t.branchtable record)
  have hbits : 2 ^ (t.branchtable record).length ≤ 2 ^ 32 :=
    Nat.pow_le_pow_right (by omega) (length_branchtable_le h)
  unfold getBranchValue at hvalue
  unfold directionCode
  rw [Int.bmod_def] at hvalue
  push_cast at hvalue
  split_ifs at hvalue ⊢ <;> omega

theorem exists_code_ne (ρ : Nat → Bool) {vars : List Nat} (hvars : vars ≠ []) (n : Nat) :
    ∃ ρ', (∀ v, v ∉ vars → ρ' v = ρ v) ∧ code ρ' vars ≠ n := by
  obtain ⟨v, vars, rfl⟩ := List.exists_cons_of_ne_nil hvars
  by_cases hcode : code ρ (v :: vars) = n
  · refine ⟨Function.update ρ v !ρ v, fun w hw => ?_, ?_⟩
    · exact Function.update_of_ne (List.ne_of_not_mem_cons hw) _ _
    · intro hcode'
      have hparity := congrArg (· % 2) (hcode.trans hcode'.symm)
      simp only [code, List.map_cons, BinaryCode.value_cons, Function.update_self] at hparity
      cases hbit : ρ v <;> simp only [hbit, Bool.not_false, Bool.not_true, Bool.toNat_false,
        Bool.toNat_true] at hparity <;> omega
  · exact ⟨ρ, fun _ _ => rfl, hcode⟩

/-! ## A value that has not been seen -/

/-- Nothing is said about the direction of a value that no run has seen. -/
theorem added_processBranch_of_unseen (h : t.RecordedBranch record val_record)
    (hany : t.getBranchAnyValue record = true) (hzero : ¬ t.Encodable val_record 0)
    (hexec : t.getExecutionConstraint record = some e) (heval : eval ρ e = true)
    (hv : t.Encodes ρ val_record v) (hunseen : v ∉ t.valuevector val_record) :
    Added ρ (t.processBranch record) := by
  have hfree := implicationFree_getExecutionConstraint hexec
  have hzeroenc := EncodingTables.getRetValueEncoding_eq_none hzero
  have hevent : (t.info val_record).event ≠ .equals := by
    intro hequals
    apply hzero
    unfold EncodingTables.Encodable
    simp [hequals]
  intro c hc
  rcases List.mem_append.mp hc with hc | hc
  · split_ifs at hc with halways
    · simp at hc
    · rw [List.mem_singleton, hexec, EncodingTables.imply_some] at hc
      obtain rfl := Option.some.inj hc
      have hanyfree : (t.getAnyBranch record).implicationFree = true := by
        rw [getAnyBranch, if_neg halways]
        simp
      rw [all_addConstraint_implies ρ _ _ hanyfree hfree, eval_implies, heval, Bool.or_true]
  · rw [h.condition] at hc
    obtain ⟨val, -, hc⟩ := List.mem_flatMap.mp hc
    unfold processDirection at hc
    simp only [hexec, hzeroenc, hany, if_true] at hc
    split_ifs at hc with hval
    · rw [hval, hzeroenc] at hc
      simp [both, EncodingTables.imply] at hc
    · obtain ⟨epval, hepval, hc⟩ := List.mem_map.mp hc
      obtain ⟨l, hl, hc⟩ := Option.bind_eq_some_iff.mp hc
      obtain ⟨r, hr, rfl⟩ := Option.map_eq_some_iff.mp hc
      obtain ⟨enc, henc, rfl⟩ := Option.map_eq_some_iff.mp hl
      have hne : epval ≠ v := by
        rintro rfl
        exact hunseen hepval
      obtain ⟨hencfree, henceval⟩ := hv.encoding_ne henc (fun h => absurd h hevent) hne
      rw [all_addConstraint_implies ρ _ _ (by simp [hfree, hencfree])
        (implicationFree_getBranch hr), eval_implies]
      simp [henceval]

namespace OwnVars

private theorem encodes_congr (h : t.OwnVars record)
    (hagree : ∀ v, v ∉ t.branchtable record → ρ' v = ρ v)
    (hv : t.Encodes ρ val_record v) : t.Encodes ρ' val_record v := by
  have hread : code ρ (t.readVars val_record) = code ρ' (t.readVars val_record) := by
    apply code_congr
    intro w hw
    unfold EncodingTables.readVars at hw
    split_ifs at hw
    · exact (hagree w (h.reads _ w hw)).symm
    · exact (hagree w (h.values _ w hw)).symm
  unfold EncodingTables.Encodes at hv ⊢
  cases hevent : (t.info val_record).event <;> simp only [hevent] at hv ⊢
  · rwa [← hread]
  · rwa [← hread]
  · rwa [← code_congr fun w hw => (hagree w (h.functions _ w hw)).symm]
  · rwa [hagree _ (h.equals _)]

private theorem eval_getExecutionConstraint (h : t.OwnVars record)
    (hagree : ∀ v, v ∉ t.branchtable record → ρ' v = ρ v)
    (hexec : t.getExecutionConstraint record = some e) : eval ρ' e = eval ρ e := by
  apply eval_congr_vars (p := fun v => decide (v ∉ t.branchtable record))
    (fun v hv => hagree v (of_decide_eq_true hv)) (implicationFree_getExecutionConstraint hexec)
  apply MemoryTables.allVars_getExecutionConstraint t ?_ ?_ e hexec
  · exact fun rec hrec branchval hbranch v hv =>
      decide_eq_true (h.branches _ (h.exits rec hrec branchval hbranch) v hv)
  · exact fun branchval hbranch v hv =>
      decide_eq_true (h.branches _ (h.branch branchval hbranch) v hv)

end OwnVars

/-- A branch decodes to the direction of every registered value of its condition if and only if,
where only values that have been seen force direction 1, all of them have been seen. -/
theorem decodesDirection_iff {R : Type} {t : BranchTables R} {record val_record : R}
    (h : t.RecordedBranch record val_record) (hown : t.OwnVars record) :
    t.DecodesDirection record val_record ↔ t.ValuesSeen record val_record := by
  constructor
  · intro hdecodes hany hone hbits hzero ρ e hexec heval v hregistered hv
    by_contra hunseen
    have hne : v ≠ 0 := by
      rintro rfl
      exact hzero hv.encodable
    have hdir : direction (t.getBranchAnyValue record) v = 1 := by simp [direction, hne, hany]
    obtain ⟨ρ', hagree, hcode⟩ := exists_code_ne ρ hbits
      (t.directionCode record ((t.valuevector record).idxOf 1))
    have heval' := (hown.eval_getExecutionConstraint hagree hexec).trans heval
    have hv' := hown.encodes_congr hagree hv
    have hadded := added_processBranch_of_unseen h hany hzero hexec heval' hv' hunseen
    have hvalue := (hdecodes ρ' hadded e hexec).1 heval' v hregistered hv' (hdir ▸ hone)
    rw [hdir] at hvalue
    exact hcode (code_of_getBranchValue h hone hvalue)
  · intro hseen ρ hadded e hexec
    refine ⟨fun heval v hregistered hv hknown => ?_,
      fun heval => getBranchValue_of_not_executed hadded hexec heval⟩
    by_cases hbits : t.branchtable record = []
    · exact getBranchValue_of_nil h hknown hbits
    · have hforced : t.getBranchAnyValue record = true → ¬ t.Encodable val_record 0 →
          v ∈ t.valuevector val_record := by
        intro hany hzero
        have hne : v ≠ 0 := by
          rintro rfl
          exact hzero hv.encodable
        refine hseen hany ?_ hbits hzero ρ e hexec heval v hregistered hv
        simpa [direction, hne, hany] using hknown
      obtain ⟨c, hc, hceval⟩ :=
        eval_getBranch_direction h hadded hexec heval hv hforced hknown
      exact getBranchValue_of_getBranch h.event h.directions hc hceval

open scoped FewRecords

/-- Record 0 is a load that reads one of the stored values 1 and 2, and record 1 branches on any
value of it and has gone in direction 1. -/
def branchOnLoad (seen : List UInt64) : BranchTables (Fin 2) where
  info r := ⟨if r = 0 then .load else .branchdir, 0, .add, false, 0⟩
  getSet r i := if r = 0 ∧ i = vcRfIndex then [1, 2] else []
  getRevDependences r i := if r = 1 ∧ i = vcBaseIndex then some 0 else none
  equalstable _ := 0
  functiontable r := if r = 0 then [1, 2] else []
  getStoreLoadSet _ := 0
  getValues _ := [1, 2]
  getValVars _ := [33]
  getRMWRValVars _ := [33]
  varindex := 35
  functionVars r := by
    by_cases h : r = 0
    · subst h
      rfl
    · simp [h, numBits]
  valVars _ := rfl
  rmwrValVars _ := rfl
  valuevector r := if r = 0 then seen else [1]
  getLen _ := 2
  getBranchAnyValue _ := true
  branch _ := none
  execcondtable _ := []
  branchtable r := if r = 1 then [34] else []
  inserted r hbranch := by
    by_cases h : r = 0
    · simp [h] at hbranch
    · obtain rfl : r = 1 := by omega
      simp [numBits, branchCodes]

theorem recordedBranch_branchOnLoad (seen : List UInt64) :
    (branchOnLoad seen).RecordedBranch 1 0 :=
  ⟨rfl, rfl, by simp [branchOnLoad]⟩

theorem ownVars_branchOnLoad (seen : List UInt64) : (branchOnLoad seen).OwnVars 1 where
  equals _ := by simp [branchOnLoad]
  functions _ v hv := by
    simp only [branchOnLoad] at hv
    split_ifs at hv
    · simp only [List.mem_cons, List.not_mem_nil, or_false] at hv
      simp only [branchOnLoad, if_true, List.mem_singleton]
      omega
    · simp at hv
  values _ := by simp [branchOnLoad]
  reads _ := by simp [branchOnLoad]
  branches r hr := by simp [branchOnLoad, hr]
  branch branchval hbranch := by simp [branchOnLoad] at hbranch
  exits rec hrec := by simp [branchOnLoad] at hrec

/-- Both values have been seen, and with the 2 the branch goes on in direction 1. -/
theorem decodesDirection_branchOnLoad :
    (branchOnLoad [1, 2]).getBranchValue (fun v => v = 33) 1 = 0 := by
  have hseen : (branchOnLoad [1, 2]).ValuesSeen 1 0 := fun _ _ _ _ _ _ _ _ _ hv _ => hv
  have hadded : Added (fun v => v = 33) ((branchOnLoad [1, 2]).processBranch 1) :=
    added_of_all (by decide)
  have hvalue : (branchOnLoad [1, 2]).Encodes (fun v => v = 33) 0 2 := ⟨by decide, by decide⟩
  exact ((decodesDirection_iff (recordedBranch_branchOnLoad _) (ownVars_branchOnLoad _)).mpr hseen
    _ hadded .ctrue rfl).1 rfl 2 (by decide) hvalue (by decide)

/-- Only 1 has been seen: with a 2 the code of a new direction meets all constraints. -/
theorem not_decodesDirection : ¬ ∀ (R : Type) (t : BranchTables R) (record val_record : R),
    t.RecordedBranch record val_record → t.OwnVars record →
      t.DecodesDirection record val_record := by
  intro hclaim
  have hdecodes := hclaim _ _ _ _ (recordedBranch_branchOnLoad [1]) (ownVars_branchOnLoad [1])
  have hadded : Added (fun v => v = 33 ∨ v = 34) ((branchOnLoad [1]).processBranch 1) :=
    added_of_all (by decide)
  have hvalue : (branchOnLoad [1]).Encodes (fun v => v = 33 ∨ v = 34) 0 2 :=
    ⟨by decide, by decide⟩
  exact absurd ((hdecodes _ hadded .ctrue rfl).1 rfl 2 (by decide) hvalue (by decide)) (by decide)

end BranchTables

end SatCheck
