import SatCheck.ProcessFunction
/-!
# The inputs of a phi

A phi passes on what it is given in a run.  Its constraints guard each input that any run has given
it by the execution of the input, or of the loop exit it came with.
-/

namespace SatCheck

open Constraint

/-- A run in which a phi is executed: the directions of the executed branches, the values of the
executed records, the input that the phi is given and the last loop exit. -/
structure PhiRun (R : Type) where
  direction : R → Option UInt64
  value : R → UInt64
  input : R
  exit : R

namespace BranchTables

variable {R : Type} (t : BranchTables R)

/-- The execution condition of a record on the directions of a run: its branch is taken, and those
of the exits before it are not. -/
def ExecutedIn (run : PhiRun R) (record : R) : Prop :=
  (∀ rec ∈ t.execcondtable record, ∀ branchval, t.branch rec = some branchval →
    run.direction branchval.1 ≠ some branchval.2) ∧
  ∀ branchval, t.branch record = some branchval → run.direction branchval.1 = some branchval.2

def KnownDirection (branchval : R × UInt64) : Prop :=
  (t.info branchval.1).event = .branchdir ∧ branchval.2 ∈ t.valuevector branchval.1

/-- Every exit before the record has a branch, and `getBranch` has codes for the branches. -/
structure ConditionsKnown (record : R) : Prop where
  exits : ∀ rec ∈ t.execcondtable record, ∃ branchval, t.branch rec = some branchval ∧
    t.KnownDirection branchval
  branch : ∀ branchval, t.branch record = some branchval → t.KnownDirection branchval

/-- The variables of a branch hold the code of its direction, or 0 where it is not executed. -/
def HoldsDirection (ρ : Nat → Bool) (record : R) : Option UInt64 → Prop
  | some val => val ∈ t.valuevector record ∧
      code ρ (t.branchtable record) = t.directionCode record ((t.valuevector record).idxOf val)
  | none => t.isAlwaysExecuted record = false ∧ code ρ (t.branchtable record) = 0

variable {t} {ρ : Nat → Bool} {run : PhiRun R} {record : R}

theorem eval_getBranch_iff {branchval : R × UInt64} (hknown : t.KnownDirection branchval)
    (hholds : t.HoldsDirection ρ branchval.1 (run.direction branchval.1)) :
    ∃ c, t.getBranch branchval = some c ∧ c.implicationFree = true ∧
      (eval ρ c = true ↔ run.direction branchval.1 = some branchval.2) := by
  refine ⟨_, if_pos hknown.2, implicationFree_generateConstraint _ _, ?_⟩
  rw [eval_generateConstraint (directionCode_lt hknown.1 hknown.2)]
  cases hdir : run.direction branchval.1 with
  | none =>
    rw [hdir] at hholds
    obtain ⟨halways, hcode⟩ := hholds
    simp [hcode, directionCode, halways]
  | some val =>
    rw [hdir] at hholds
    obtain ⟨hmem, hcode⟩ := hholds
    rw [hcode, Option.some.injEq]
    have hinj : t.directionCode branchval.1 ((t.valuevector branchval.1).idxOf val) =
        t.directionCode branchval.1 ((t.valuevector branchval.1).idxOf branchval.2) ↔
        (t.valuevector branchval.1).idxOf val =
          (t.valuevector branchval.1).idxOf branchval.2 := by
      unfold directionCode
      split_ifs <;> omega
    rw [hinj]
    exact List.idxOf_inj hmem

private theorem exists_array {α : Type} {f : α → Option Constraint} {p : α → Prop} {xs : List α}
    (h : ∀ x ∈ xs, ∃ c, f x = some c ∧ (eval ρ c = true ↔ p x)) :
    ∃ array, (xs.map f).mapM id = some array ∧
      (array.all (eval ρ) = true ↔ ∀ x ∈ xs, p x) := by
  induction xs with
  | nil => exact ⟨[], rfl, by simp⟩
  | cons x xs ih =>
    rw [List.forall_mem_cons] at h
    obtain ⟨c, hc, heval⟩ := h.1
    obtain ⟨array, harray, hall⟩ := ih h.2
    refine ⟨c :: array, by simp [List.mapM_cons, hc, harray], ?_⟩
    rw [List.all_cons, Bool.and_eq_true, List.forall_mem_cons, heval, hall]

/-- The execution constraint holds if and only if the execution condition does. -/
theorem eval_getExecutionConstraint_iff (hknown : t.ConditionsKnown record)
    (hholds : ∀ b, (t.info b).event = .branchdir → t.HoldsDirection ρ b (run.direction b)) :
    ∃ e, t.getExecutionConstraint record = some e ∧
      (eval ρ e = true ↔ t.ExecutedIn run record) := by
  have hexits : ∀ rec ∈ t.execcondtable record, ∃ c,
      ((t.branch rec).bind fun recbranch => (t.getBranch recbranch).map negate) = some c ∧
      (eval ρ c = true ↔ ∀ branchval, t.branch rec = some branchval →
        run.direction branchval.1 ≠ some branchval.2) := by
    intro rec hrec
    obtain ⟨branchval, hbranch, hdir⟩ := hknown.exits rec hrec
    obtain ⟨c, hc, hfree, heval⟩ := eval_getBranch_iff hdir (hholds _ hdir.1)
    refine ⟨c.negate, by simp [hbranch, hc], ?_⟩
    rw [eval_negate ρ c hfree, hbranch, Bool.not_eq_true', ← Bool.not_eq_true, heval]
    simp
  have hown : ∀ branchval ∈ (t.branch record).toList, ∃ c, t.getBranch branchval = some c ∧
      (eval ρ c = true ↔ run.direction branchval.1 = some branchval.2) := by
    intro branchval hbranch
    have hdir := hknown.branch branchval (Option.mem_toList.mp hbranch)
    obtain ⟨c, hc, -, heval⟩ := eval_getBranch_iff hdir (hholds _ hdir.1)
    exact ⟨c, hc, heval⟩
  obtain ⟨exits, hexitsarray, hexitseval⟩ := exists_array hexits
  obtain ⟨own, hownarray, howneval⟩ := exists_array hown
  have harray : (t.conditions record).mapM id = some (exits ++ own) := by
    unfold conditions
    rw [List.mapM_append, hexitsarray, hownarray]
    rfl
  have hall : (exits ++ own).all (eval ρ) = true ↔ t.ExecutedIn run record := by
    rw [List.all_append, Bool.and_eq_true, hexitseval, howneval]
    unfold ExecutedIn
    simp
  unfold getExecutionConstraint
  rw [harray]
  refine ⟨_, rfl, ?_⟩
  rw [← hall]
  generalize exits ++ own = array
  rcases array with - | ⟨c, - | ⟨d, array⟩⟩
  · simp
  · simp
  · rw [eval_and]

end BranchTables

/-! ## Recording the inputs -/

namespace PhiRun

variable {R : Type} [DecidableEq R]

/-- The vector that `addRecordDepTable` fills with the inputs of a phi over the runs. -/
def inputs (runs : List (PhiRun R)) : List R :=
  runs.foldl (fun recvec run => HashSet.add recvec run.input) []

/-- The pairs that `loop_phi` adds over the runs. -/
def loopPairs (runs : List (PhiRun R)) : List (R × R) :=
  runs.foldl (fun phiset run => HashSet.add phiset (run.exit, run.input)) []

end PhiRun

namespace FunctionTables

variable {R : Type} [DecidableEq R] (t : FunctionTables R)

/-- What guards an input: the loop exit that it came with, or its own execution. -/
def guard (record : R) (run : PhiRun R) : R :=
  if t.getLoopPhi record then run.exit else run.input

/-- A phi with the inputs of the runs.  It returns what it is given. -/
structure RecordedPhi (record : R) (runs : List (PhiRun R)) : Prop where
  event : (t.info record).event = .function
  phi : (t.info record).phi = true
  inputs : t.phiInputs record = PhiRun.inputs runs
  loopPairs : t.getPhiLoopTable record = PhiRun.loopPairs runs
  executed : ∀ run ∈ runs, t.ExecutedIn run record
  passed : ∀ run ∈ runs, run.value record = run.value run.input
  known : ∀ run ∈ runs, t.ConditionsKnown (t.guard record run)

/-- The assignment gives every record its value and every branch its direction in the run. -/
structure Assigns (ρ : Nat → Bool) (run : PhiRun R) : Prop where
  branches : ∀ b, (t.info b).event = .branchdir → t.HoldsDirection ρ b (run.direction b)
  values : ∀ r, t.ExecutedIn run r → (t.info r).returnValueIndex?.isSome →
    t.Encodes ρ r (run.value r)

/-- Every input that the run guards in, whichever run has given it, has the value that is passed on
in the run, and no value of the phi is taken for another one. -/
def OneValue (ρ : Nat → Bool) (record : R) (runs : List (PhiRun R)) (run : PhiRun R) : Prop :=
  ∀ other ∈ runs, t.ExecutedIn run (t.guard record other) →
    ∀ v, t.Encodes ρ other.input v → ∀ val ∈ t.getSet record vcBaseIndex,
      val = v ∨ t.TakenFor other.input val v → val = run.value run.input

variable {t} {ρ : Nat → Bool} {run : PhiRun R} {runs : List (PhiRun R)} {record guard input : R}
  {out : UInt64}

omit [DecidableEq R] in
/-- The constraints for one input say that it is passed on where its guard is executed. -/
theorem added_phiImplications_iff (hevent : (t.info record).event = .function)
    (hphi : (t.info record).phi = true) (hknown : t.ConditionsKnown guard)
    (hbranches : ∀ b, (t.info b).event = .branchdir → t.HoldsDirection ρ b (run.direction b))
    (hout : t.Encodes ρ record out) :
    Added ρ (t.phiImplications record guard input) ↔
      (t.ExecutedIn run guard → ∀ v, t.Encodes ρ input v → ∀ val ∈ t.getSet record vcBaseIndex,
        val = v ∨ t.TakenFor input val v → val = out) := by
  obtain ⟨e, he, hexec⟩ := BranchTables.eval_getExecutionConstraint_iff hknown hbranches
  have hefree := BranchTables.implicationFree_getExecutionConstraint he
  have hencoding : ∀ val ∈ t.getSet record vcBaseIndex, ∃ c,
      t.getRetValueEncoding record val = some c ∧ c.implicationFree = true ∧
      (eval ρ c = true ↔ val = out) := by
    intro val hval
    have hset : val ∈ t.functionSet record := by
      simpa [EncodingTables.functionSet, hphi] using hval
    obtain ⟨c, hc, hfree, hcode⟩ := t.eval_functionEncoding hset
    refine ⟨c, ?_, hfree, ?_⟩
    · unfold EncodingTables.getRetValueEncoding
      simp [hevent, hc]
    · unfold EncodingTables.Encodes at hout
      simp only [hevent] at hout
      rw [hcode, hout.2]
      exact ⟨fun hidx => ((List.idxOf_inj hout.1).mp hidx).symm, fun heq => by rw [heq]⟩
  constructor
  · intro hadded hguard v hv val hval halike
    obtain ⟨out', hout', houtfree, houteval⟩ := hencoding val hval
    obtain ⟨enc, henc, hencfree, henceval⟩ := hv.encoding_of_alike halike
    rw [← houteval]
    apply hadded.of_implies (l := .and [enc, e]) _ (by simp [hencfree, hefree]) houtfree
      (by simp [henceval, hexec.mpr hguard])
    apply List.mem_flatMap.mpr
    refine ⟨val, hval, ?_⟩
    simp [henc, he, hout', both_some, EncodingTables.imply_some]
  · intro h c hc
    obtain ⟨val, hval, hc⟩ := List.mem_flatMap.mp hc
    obtain ⟨out', hout', houtfree, houteval⟩ := hencoding val hval
    cases henc : t.getRetValueEncoding input val with
    | none => simp [henc] at hc
    | some enc =>
      have hencfree := EncodingTables.implicationFree_getRetValueEncoding henc
      simp only [henc, he, hout', both_some, EncodingTables.imply_some,
        List.mem_singleton, Option.some.injEq] at hc
      subst hc
      rw [all_addConstraint_implies _ _ _ (by simp [hencfree, hefree]) houtfree, eval_implies]
      by_cases hholds : eval ρ (.and [enc, e]) = true
      · rw [eval_and, List.all_cons, List.all_cons, List.all_nil, Bool.and_true,
          Bool.and_eq_true] at hholds
        obtain ⟨v, hv, halike⟩ := EncodingTables.exists_encodes henc hholds.1
        rw [houteval.mpr (h (hexec.mp hholds.2) v hv val hval halike), Bool.or_true]
      · rw [Bool.not_eq_true] at hholds
        rw [hholds]
        rfl

private theorem mem_processFunction_iff (h : t.RecordedPhi record runs) {c : Option Constraint} :
    c ∈ t.processFunction record ↔
      ∃ other ∈ runs, c ∈ t.phiImplications record (t.guard record other) other.input := by
  unfold processFunction guard
  cases hloop : t.getLoopPhi record with
  | true =>
    simp only [if_true, processLoopPhi, h.loopPairs, List.mem_flatMap, PhiRun.loopPairs,
      HashSet.mem_foldl_add, List.not_mem_nil, false_or]
    constructor
    · rintro ⟨rip, ⟨other, hother, rfl⟩, hc⟩
      exact ⟨other, hother, hc⟩
    · rintro ⟨other, hother, hc⟩
      exact ⟨(other.exit, other.input), ⟨other, hother, rfl⟩, hc⟩
  | false =>
    simp only [Bool.false_eq_true, if_false, h.phi, if_true, processPhi, h.inputs,
      List.mem_flatMap, PhiRun.inputs, HashSet.mem_foldl_add, List.not_mem_nil, false_or]
    constructor
    · rintro ⟨input, ⟨other, hother, rfl⟩, hc⟩
      exact ⟨other, hother, hc⟩
    · rintro ⟨other, hother, hc⟩
      exact ⟨other.input, ⟨other, hother, rfl⟩, hc⟩

/-- The assignment of a run satisfies the constraints of a phi if and only if the inputs that the
run guards in have one value. -/
theorem added_processFunction_iff {R : Type} [DecidableEq R] {t : FunctionTables R} {record : R}
    {runs : List (PhiRun R)} (h : t.RecordedPhi record runs) {run : PhiRun R} (hrun : run ∈ runs)
    {ρ : Nat → Bool} (hassigns : t.Assigns ρ run) :
    Added ρ (t.processFunction record) ↔ t.OneValue ρ record runs run := by
  have hout : t.Encodes ρ record (run.value run.input) := by
    rw [← h.passed run hrun]
    apply hassigns.values record (h.executed run hrun)
    simp [RecordInfo.returnValueIndex?, h.event]
  have hinput : ∀ other ∈ runs,
      (Added ρ (t.phiImplications record (t.guard record other) other.input) ↔
        (t.ExecutedIn run (t.guard record other) → ∀ v, t.Encodes ρ other.input v →
          ∀ val ∈ t.getSet record vcBaseIndex, val = v ∨ t.TakenFor other.input val v →
            val = run.value run.input)) :=
    fun other hother => added_phiImplications_iff h.event h.phi (h.known other hother)
      hassigns.branches hout
  constructor
  · intro hadded other hother
    rw [← hinput other hother]
    exact hadded.of_subset fun c hc => (mem_processFunction_iff h).mpr ⟨other, hother, hc⟩
  · intro hone c hc
    obtain ⟨other, hother, hc⟩ := (mem_processFunction_iff h).mp hc
    exact (hinput other hother).mpr (hone other hother) c hc

open scoped FewRecords

/-- Record 0 is a function that returns 1, record 1 a branch, record 2 a function that returns 2 in
direction 1 of the branch, and record 3 the phi behind it.  Record 0 stands before the branch, or
in direction 0 of it. -/
def phiBehindBranch (before : Bool) : FunctionTables (Fin 4) where
  info r := ⟨if r = 1 then .branchdir else .function, 0, .add, r = 3, 0⟩
  getSet r i :=
    if r = 0 ∧ i = vcFuncoutIndex then [1] else if r = 2 ∧ i = vcFuncoutIndex then [2]
    else if r = 3 ∧ i = vcBaseIndex then [1, 2] else []
  getRevDependences _ _ := none
  equalstable _ := 0
  functiontable r := if r = 0 then [1] else if r = 2 then [2] else if r = 3 then [3] else []
  getStoreLoadSet _ := 0
  getValues _ := [0]
  getValVars _ := []
  getRMWRValVars _ := []
  varindex := 5
  functionVars := by decide
  valVars _ := rfl
  rmwrValVars _ := rfl
  valuevector r := if r = 1 then [0, 1] else []
  getLen _ := 2
  getBranchAnyValue _ := true
  branch r := if r = 2 then some (1, 1) else if r = 0 ∧ before = false then some (1, 0) else none
  execcondtable _ := []
  branchtable _ := [4]
  inserted := by revert before; decide
  getNumFuncInputs _ := 0
  completedGoalSet _ := []
  getLoopPhi _ := false
  phiInputs r := if r = 3 then [0, 2] else []
  getPhiLoopTable r := if r = 3 then [(0, 0), (0, 2)] else []

/-- The phi has been given record 0 without the branch and record 2 behind it. -/
def phiRuns : List (PhiRun (Fin 4)) :=
  [⟨fun r => if r = 1 then some 0 else none, fun r => if r = 2 then 2 else 1, 0, 0⟩,
    ⟨fun r => if r = 1 then some 1 else none, fun r => if r = 0 then 1 else 2, 2, 0⟩]

theorem recordedPhi_phiBehindBranch (before : Bool) :
    (phiBehindBranch before).RecordedPhi 3 phiRuns where
  event := rfl
  phi := rfl
  inputs := rfl
  loopPairs := rfl
  executed := by
    intro run _
    constructor
    · intro rec hrec
      exact absurd hrec List.not_mem_nil
    · intro branchval hbranch
      exact absurd hbranch (by simp [phiBehindBranch])
  passed := by decide
  known := by
    intro run _
    constructor
    · intro rec hrec
      exact absurd hrec List.not_mem_nil
    · intro branchval hbranch
      simp only [phiBehindBranch] at hbranch
      split_ifs at hbranch
      · obtain rfl := Option.some.inj hbranch
        exact ⟨rfl, by decide +revert⟩
      · obtain rfl := Option.some.inj hbranch
        exact ⟨rfl, by decide +revert⟩

/-- The assignment of the second run: the branch goes in direction 1 and the phi returns 2. -/
def secondRun (v : Nat) : Bool := v = 3 ∨ v = 4

theorem assigns_secondRun (before : Bool) :
    (phiBehindBranch before).Assigns secondRun
      ⟨fun r => if r = 1 then some 1 else none, fun r => if r = 0 then 1 else 2, 2, 0⟩ where
  branches b hbranch := by
    have hone : b = 1 := by
      by_contra hne
      simp [phiBehindBranch, hne] at hbranch
    subst hone
    refine ⟨by decide +revert, ?_⟩
    revert before
    decide
  values r _ hreturn := by
    have hcases : ∀ r : Fin 4, r = 0 ∨ r = 1 ∨ r = 2 ∨ r = 3 := by decide
    rcases hcases r with rfl | rfl | rfl | rfl
    · cases before <;> exact ⟨by decide, by decide⟩
    · cases before <;> exact absurd hreturn (by decide)
    · cases before <;> exact ⟨by decide, by decide⟩
    · cases before <;> exact ⟨by decide, by decide⟩

/-- With one input in each direction, the constraints of the phi hold in the second run. -/
theorem added_phiBehindBranch : Added secondRun ((phiBehindBranch false).processFunction 3) := by
  have hphi := recordedPhi_phiBehindBranch false
  apply (added_processFunction_iff hphi (List.mem_cons_of_mem _ List.mem_cons_self)
    (assigns_secondRun false)).mpr
  intro other hother hguard v hv val _ halike
  rcases List.mem_cons.mp hother with rfl | hother
  · exact absurd (hguard.2 (1, 0) rfl) (by decide)
  · obtain rfl := List.mem_singleton.mp hother
    have hvalue : (phiBehindBranch false).Encodes secondRun 2 2 := ⟨by decide, by decide⟩
    rcases halike with rfl | htaken
    · exact hv.unique hvalue
    · exact absurd htaken.1 (by decide)

/-- Record 0 is executed in the second run too: its constraint asks for 1, and the phi returns 2. -/
theorem not_added_processFunction :
    ¬ ∀ (R : Type) (_ : DecidableEq R) (t : FunctionTables R) (record : R) (runs : List (PhiRun R)),
      t.RecordedPhi record runs → ∀ run ∈ runs, ∀ ρ, t.Assigns ρ run →
        Added ρ (t.processFunction record) := by
  intro hclaim
  have hadded := hclaim _ _ _ _ _ (recordedPhi_phiBehindBranch true) _
    (List.mem_cons_of_mem _ List.mem_cons_self) _ (assigns_secondRun true)
  have hmem : some (.implies (.and [.and [.notvar 1], .ctrue]) (.and [.notvar 3])) ∈
      (phiBehindBranch true).processFunction 3 := List.mem_cons_self
  have houtput := hadded.of_implies hmem rfl rfl rfl
  exact absurd houtput (by decide)

end FunctionTables

end SatCheck
