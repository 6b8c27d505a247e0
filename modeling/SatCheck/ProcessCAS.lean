import SatCheck.LoadRF
import SatCheck.PlannerCalls
/-!
# Compare-and-swap

`processCAS` has a new variable for the success of a CAS.  It compares the old operand with the
value that is read, and decides which value is written.
-/

namespace SatCheck

open Constraint

namespace MemoryTables

variable {R : Type} (t : MemoryTables R)

/-- `generateEquivConstraint` of two constraints. -/
def equivConstraint (var1 var2 : Constraint) : Constraint :=
  .and [.or [var1.negate, var2], .or [var1, var2.negate]]

def constantOld (record : R) (eq : Constraint) : List (Option Constraint) :=
  match t.getSet record vcOldvalcasIndex with
  | [] => [none]
  | valcas :: _ =>
      match t.getRMWRValueEncoding record valcas with
      | none => [some eq.negate]
      | some rmwr => [some (equivConstraint eq rmwr)]

/-- `cas` and `casfail_eq` for one value of the memory. -/
def casValue (record src : R) (eq : Constraint) (valcas : UInt64) : List (Option Constraint) :=
  let storeenc := t.getRMWRValueEncoding record valcas
  match t.getRetValueEncoding src valcas, storeenc with
  | some srcenc, some _ =>
      [EncodingTables.imply storeenc (some (.and [.implies srcenc eq, .implies eq srcenc]))]
  | none, _ => [EncodingTables.imply storeenc (some eq.negate)]
  | some _, none => []

/-- The success of a CAS whose old operand is returned by `src`. -/
def dependentOld (record src : R) (eq : Constraint) : List (Option Constraint) :=
  let values := t.getValues (t.getStoreLoadSet record)
  values.flatMap (t.casValue record src eq) ++
    (t.getSet record vcOldvalcasIndex).flatMap fun val =>
      if val ∈ values then []
      else [EncodingTables.imply (t.getRetValueEncoding src val) (some eq.negate)]

def casmemsuc (record : R) (eq : Constraint) : List (Option Constraint) :=
  match t.getRevDependences record vcBaseIndex with
  | none =>
      match t.getSet record vcBaseIndex with
      | [] => [none]
      | val :: _ => [EncodingTables.imply (some eq) (t.getMemValueEncoding record val)]
  | some src =>
      (t.getSet record (t.info record).storeIndex).flatMap fun val =>
        match t.getRetValueEncoding src val with
        | none => []
        | some srcenc =>
            [EncodingTables.imply (some (.and [eq, srcenc])) (t.getMemValueEncoding record val)]

def casmemfail (record : R) (eq : Constraint) : Option Constraint :=
  EncodingTables.imply (some eq.negate)
    (some (generateEquivConstraint (t.getValVars record) (t.getRMWRValVars record)))

def processCAS (record : R) : List (Option Constraint) :=
  let eq := Constraint.var (t.newVar record)
  t.loadRF record ++
    (match t.getRevDependences record vcOldvalcasIndex with
      | none => t.constantOld record eq
      | some src => t.dependentOld record src eq) ++
    t.casmemsuc record eq ++ [t.casmemfail record eq] ++ t.processAddresses record

/-! ## A CAS and its operands -/

/-- A CAS whose store set contains the values of its new operand.  A constant operand has one
value, and `StoreLoadSet::add` has put the store set into the values of the memory. -/
structure RecordedCAS (record : R) : Prop where
  event : (t.info record).event = .rmw
  op : (t.info record).op = .cas
  stored : ∀ v ∈ t.getSet record vcRmwoutIndex, v ∈ t.getValues (t.getStoreLoadSet record)
  operands : ∀ v ∈ t.getSet record vcBaseIndex, v ∈ t.getSet record vcRmwoutIndex
  constant : ∀ i < 2, t.getRevDependences record (vcBaseIndex + i) = none →
    ∃ val, t.getSet record (vcBaseIndex + i) = [val]

/-- The value in memory is encoded as the 1 of the comparison that returns the old operand. -/
def TakenForOld (record : R) (r o : UInt64) : Prop :=
  ∃ src, t.getRevDependences record vcOldvalcasIndex = some src ∧ t.TakenFor src r o

variable {t} {record src : R} {ρ : Nat → Bool} {r o n : UInt64} {cs : List (Option Constraint)}

theorem constantOld_spec (hevent : (t.info record).event = .rmw) (hread : t.Encodes ρ record r)
    (hset : t.getSet record vcOldvalcasIndex = [o]) {v : Nat}
    (hadded : Added ρ (t.constantOld record (.var v))) : ρ v = true ↔ r = o := by
  unfold constantOld at hadded
  rw [hset] at hadded
  simp only [getRMWRValueEncoding_eq hevent] at hadded
  cases hrmwr : t.getRetValueEncoding record o with
  | none =>
    rw [hrmwr] at hadded
    have hfail := hadded.eval_literal (c := (Constraint.var v).negate) List.mem_cons_self rfl
    refine iff_of_false (by simpa using hfail) ?_
    rintro rfl
    obtain ⟨c, hc, -⟩ := hread.encoding
    simp [hrmwr] at hc
  | some rmwr =>
    rw [hrmwr] at hadded
    obtain ⟨hfree, heval⟩ := hread.eval_encoding_iff hrmwr
    rw [or_iff_left (EncodingTables.not_takenFor (by simp [hevent]))] at heval
    have hequiv := hadded _ List.mem_cons_self
    rw [equivConstraint, all_addConstraint_and_or (by simp [hfree])
      (by simp [implicationFree_negate rmwr hfree])] at hequiv
    rw [eq_comm (a := r), ← heval]
    simp only [eval_and, eval_or, List.all_cons, List.all_nil, List.any_cons, List.any_nil,
      eval_negate_var, eval_var, eval_negate ρ rmwr hfree] at hequiv
    cases hvar : ρ v <;> cases hrmwrval : eval ρ rmwr <;> simp [hvar, hrmwrval] at hequiv ⊢

/-- A CAS compares the value that is read with the value that `src` returns. -/
theorem dependentOld_spec (hevent : (t.info record).event = .rmw) (hread : t.Encodes ρ record r)
    (hold : t.Encodes ρ src o) {v : Nat}
    (hadded : Added ρ (t.dependentOld record src (.var v))) :
    ρ v = true ↔ r = o ∨ t.TakenFor src r o := by
  obtain ⟨storeenc, hstoreenc, hstorefree, hstoreeval⟩ := hread.encoding
  have hmem := mem_of_encodes hevent hread
  have hvalue : Added ρ (t.casValue record src (.var v) r) := by
    apply hadded.of_subset
    intro c hc
    exact List.mem_append_left _ (List.mem_flatMap.mpr ⟨r, hmem, hc⟩)
  unfold casValue at hvalue
  simp only [getRMWRValueEncoding_eq hevent, hstoreenc] at hvalue
  cases hsrcenc : t.getRetValueEncoding src r with
  | none =>
    rw [hsrcenc] at hvalue
    have hfail := hvalue.of_implies (l := storeenc) (r := (Constraint.var v).negate)
      List.mem_cons_self hstorefree rfl hstoreeval
    refine iff_of_false (by simpa using hfail) ?_
    rintro (rfl | ⟨hequals, -⟩)
    · obtain ⟨c, hc, -⟩ := hold.encoding
      simp [hsrcenc] at hc
    · unfold EncodingTables.getRetValueEncoding at hsrcenc
      simp [hequals] at hsrcenc
  | some srcenc =>
    rw [hsrcenc] at hvalue
    obtain ⟨hsrcfree, hsrceval⟩ := hold.eval_encoding_iff hsrcenc
    have hguarded := (all_addConstraint_guarded_iff hstorefree hsrcfree (r := .var v) rfl).mp
      (hvalue _ List.mem_cons_self) hstoreeval
    rw [← hsrceval, hguarded, eval_var]

/-! ## The value that is written -/

/-- The new variable says whether the value that is read is the old operand. -/
theorem newVar_iff (h : t.RecordedCAS record) (hadded : Added ρ (t.processCAS record))
    (hread : t.Encodes ρ record r) (hold : t.OperandValue ρ record 1 o) :
    ρ (t.newVar record) = true ↔ r = o ∨ t.TakenForOld record r o := by
  obtain ⟨hregistered, hsrc⟩ := hold
  have hcond : Added ρ (match t.getRevDependences record vcOldvalcasIndex with
      | none => t.constantOld record (.var (t.newVar record))
      | some src => t.dependentOld record src (.var (t.newVar record))) := by
    apply hadded.of_subset
    intro c hc
    unfold processCAS
    simp only [List.mem_append]
    exact .inl (.inl (.inl (.inr hc)))
  cases hdep : t.getRevDependences record vcOldvalcasIndex with
  | none =>
    obtain ⟨val, hset⟩ := h.constant 1 (by decide) hdep
    obtain rfl : o = val := by simpa [hset] using hregistered
    rw [hdep] at hcond
    rw [constantOld_spec h.event hread hset hcond]
    simp [TakenForOld, hdep]
  | some src =>
    rw [hdep] at hcond
    rw [dependentOld_spec h.event hread (hsrc src hdep) hcond]
    simp [TakenForOld, hdep]

/-- A CAS writes its new operand where the new variable is set, and else what it has read. -/
theorem writes_of_newVar (h : t.RecordedCAS record) (hadded : Added ρ (t.processCAS record))
    (hread : t.Encodes ρ record r) (hnew : t.OperandValue ρ record 0 n) :
    t.Writes ρ record (if ρ (t.newVar record) then n else r) := by
  obtain ⟨hregistered, hsrc⟩ := hnew
  split_ifs with heq
  · have hout := h.operands n hregistered
    obtain ⟨enc, henc, hencfree, hwrites⟩ := exists_memValueEncoding h.event (h.stored n hout)
    have hsuc : Added ρ (t.casmemsuc record (.var (t.newVar record))) := by
      apply hadded.of_subset
      intro c hc
      unfold processCAS
      simp only [List.mem_append]
      exact .inl (.inl (.inr hc))
    rw [← hwrites]
    unfold casmemsuc at hsuc
    cases hdep : t.getRevDependences record vcBaseIndex with
    | none =>
      obtain ⟨val, hset⟩ := h.constant 0 (by decide) hdep
      rw [Nat.add_zero] at hset hregistered
      obtain rfl : n = val := by simpa [hset] using hregistered
      rw [hdep] at hsuc
      simp only [hset, henc] at hsuc
      exact hsuc.of_implies List.mem_cons_self rfl hencfree (by simpa using heq)
    | some src =>
      obtain ⟨srcenc, hsrcenc, hsrcfree, hsrceval⟩ := (hsrc src hdep).encoding
      rw [hdep] at hsuc
      have hval : some (Constraint.implies (.and [.var (t.newVar record), srcenc]) enc) ∈
          (t.getSet record (t.info record).storeIndex).flatMap fun val =>
            match t.getRetValueEncoding src val with
            | none => []
            | some srcenc => [EncodingTables.imply
                (some (.and [.var (t.newVar record), srcenc]))
                (t.getMemValueEncoding record val)] := by
        rw [List.mem_flatMap]
        refine ⟨n, by simpa [RecordInfo.storeIndex, h.event] using hout, ?_⟩
        simp [hsrcenc, henc, EncodingTables.imply_some]
      exact hsuc.of_implies hval (by simp [hsrcfree]) hencfree (by simp [heq, hsrceval])
  · have hfail := hadded.of_implies (l := (Constraint.var (t.newVar record)).negate)
      (r := generateEquivConstraint (t.getValVars record) (t.getRMWRValVars record))
      (by simp [processCAS, casmemfail, EncodingTables.imply_some]) rfl
      (implicationFree_generateEquivConstraint _ _) (by simpa using heq)
    rw [eval_generateEquivConstraint (by rw [t.valVars, t.rmwrValVars])] at hfail
    exact writes_of_equiv h.event hread hfail

/-- A CAS writes what `dormwaction` produces, except where the value in memory is taken for the 1
that a comparison returns and the new operand is another value. -/
theorem writes_dormwaction_iff {R : Type} {t : MemoryTables R} {record : R}
    (h : t.RecordedCAS record) {ρ : Nat → Bool} (hadded : Added ρ (t.processCAS record))
    {r o n : UInt64} (hread : t.Encodes ρ record r) (hold : t.OperandValue ρ record 1 o)
    (hnew : t.OperandValue ρ record 0 n) (hr : r &&& PlannerState.getmask (t.getLen record) = r)
    (hn : n &&& PlannerState.getmask (t.getLen record) = n) :
    PlannerState.dormwaction .cas (t.getLen record) r o n = (if r = o then n else r) ∧
      (t.Writes ρ record (if r = o then n else r) ↔ n = r ∨ ¬ t.TakenForOld record r o) := by
  have heq := newVar_iff h hadded hread hold
  have hwrites := writes_of_newVar h hadded hread hnew
  constructor
  · unfold PlannerState.dormwaction
    split_ifs <;> assumption
  · by_cases hsame : r = o
    · have hnot : ¬ t.TakenForOld record r o := by
        rintro ⟨src, -, -, rfl, -, hone⟩
        exact hone hsame
      rw [if_pos (heq.mpr (.inl hsame))] at hwrites
      rw [if_pos hsame]
      exact iff_of_true hwrites (.inr hnot)
    · rw [if_neg hsame]
      by_cases htaken : t.TakenForOld record r o
      · rw [if_pos (heq.mpr (.inr htaken))] at hwrites
        constructor
        · exact fun hread' => .inl (hwrites.unique hread')
        · rintro (rfl | hnot)
          · exact hwrites
          · exact absurd htaken hnot
      · rw [if_neg (fun hvar => (heq.mp hvar).elim hsame htaken)] at hwrites
        exact iff_of_true hwrites (.inr htaken)

open scoped FewRecords

theorem addrVars_casOfEquals (_ : Fin 3) :
    ([] : List Nat).length = numBits ([16] : List UInt64).length := rfl

/-- Record 0 stores 5, record 1 compares two values and record 2 is a CAS with the comparison as
its old operand and 1 as its new one. -/
def casOfEquals : MemoryTables (Fin 3) where
  info r := ⟨if r = 0 then .store else if r = 1 then .equals else .rmw, 0, .cas, false, 0⟩
  getSet r i :=
    if r = 2 then
      if i = vcAddrIndex then [16] else if i = vcBaseIndex then [1]
      else if i = vcOldvalcasIndex then [0, 1] else if i = vcRmwoutIndex then [5, 1] else []
    else []
  getRevDependences r i := if r = 2 ∧ i = vcOldvalcasIndex then some 1 else none
  equalstable _ := 2
  functiontable _ := []
  getStoreLoadSet _ := 0
  getValues _ := [5, 1]
  getValVars r := if r = 2 then [4] else [1]
  getRMWRValVars _ := [3]
  varindex := 5
  functionVars r := by by_cases h : r = 2 <;> simp [h, numBits]
  valVars r := by by_cases h : r = 2 <;> simp [h, numBits]
  rmwrValVars _ := rfl
  valuevector _ := []
  getLen _ := 8
  getBranchAnyValue _ := false
  branch _ := none
  execcondtable _ := []
  branchtable _ := []
  inserted r hbranch := by
    by_cases h : r = 0
    · simp [h] at hbranch
    · by_cases h' : r = 1 <;> simp [h, h'] at hbranch
  getMayReadFromSet _ := [0]
  computeConflictSet _ _ := some [0]
  getOrderConstraint first second := if first < second then .ctrue else .cfalse
  getAddresses _ := [16]
  getAddrVars _ := []
  getAddr _ := 16
  addrVars := addrVars_casOfEquals

theorem recordedCAS_casOfEquals : casOfEquals.RecordedCAS 2 where
  event := rfl
  op := rfl
  stored := by simp [casOfEquals]
  operands := by simp [casOfEquals, vcBaseIndex, vcAddrIndex, vcRmwoutIndex, vcOldvalcasIndex]
  constant i hi hnone := by
    have hcases : i = 0 ∨ i = 1 := by omega
    rcases hcases with rfl | rfl
    · exact ⟨1, rfl⟩
    · exact absurd hnone (by decide)

/-- The CAS reads 5 where the comparison returns 1 and writes 1: the new variable 6 is set. -/
def mistakenSuccess (v : Nat) : Bool := v = 2 ∨ v = 4 ∨ v = 6

private theorem added_mistakenSuccess : Added mistakenSuccess (casOfEquals.processCAS 2) :=
  added_of_all (by decide)

private theorem operands_mistakenSuccess : casOfEquals.Encodes mistakenSuccess 2 5 ∧
    casOfEquals.OperandValue mistakenSuccess 2 1 1 ∧
    casOfEquals.OperandValue mistakenSuccess 2 0 1 := by
  refine ⟨⟨by decide, by decide⟩, ⟨by decide, ?_⟩, by decide, ?_⟩
  · intro src hsrc
    obtain rfl : 1 = src := Option.some.inj hsrc
    rfl
  · intro src hsrc
    exact absurd hsrc (by simp [casOfEquals])

/-- Where the comparison returns 0 the CAS writes 5 back. -/
theorem writes_casOfEquals : casOfEquals.Writes (fun _ => false) 2 5 := by
  have hadded : Added (fun _ => false) (casOfEquals.processCAS 2) := added_of_all (by decide)
  have hold : casOfEquals.OperandValue (fun _ => false) 2 1 0 := by
    refine ⟨by decide, fun src hsrc => ?_⟩
    obtain rfl : 1 = src := Option.some.inj hsrc
    rfl
  have hnew : casOfEquals.OperandValue (fun _ => false) 2 0 1 :=
    ⟨by decide, fun src hsrc => absurd hsrc (by simp [casOfEquals])⟩
  have hread : casOfEquals.Encodes (fun _ => false) 2 5 := ⟨by decide, by decide⟩
  have hnot : ¬ casOfEquals.TakenForOld 2 5 0 := by
    rintro ⟨src, -, -, hone, -⟩
    exact absurd hone (by decide)
  have hwrites := (writes_dormwaction_iff recordedCAS_casOfEquals hadded hread hold hnew
    (by decide) (by decide)).2.mpr (.inr hnot)
  rwa [if_neg (by decide)] at hwrites

theorem not_writes_dormwaction :
    ¬ ∀ (R : Type) (t : MemoryTables R) (record : R), t.RecordedCAS record →
      ∀ ρ, Added ρ (t.processCAS record) → ∀ r o n, t.Encodes ρ record r →
        t.OperandValue ρ record 1 o → t.OperandValue ρ record 0 n →
          t.Writes ρ record (if r = o then n else r) := by
  intro hclaim
  obtain ⟨hread, hold, hnew⟩ := operands_mistakenSuccess
  have hwrites := hclaim _ _ _ recordedCAS_casOfEquals _ added_mistakenSuccess 5 1 1 hread hold hnew
  exact absurd hwrites.2 (by decide)

end MemoryTables

end SatCheck
