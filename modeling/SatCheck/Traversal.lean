import SatCheck.EventRecorder
import Mathlib.Data.Nat.Size
import Mathlib.Logic.Function.Iterate
import Mathlib.Algebra.Group.Nat.Defs
/-!
# Traversing the event graph

The first traversal of `ConstGen` where it collects the execution conditions (SC build):
`traverse`, `traverseRecord`, `visitRecord`, `recordExecCond`, `insertNonLocal`,
`insertLabel` and `insertBranch`, and the constraint that `getExecutionConstraint` reads
off.  Action tables, memory groups and function records are left out.
-/

namespace SatCheck

/-- The records with their links, the `getLen` of the branch records and the record of
the first MCID. -/
structure EventGraph where
  records : ExecPoint → Option EPRecord
  firstrecord : EPValue → Option ExecPoint
  len : ExecPoint → Nat
  first : ExecPoint

namespace EventGraph

variable (g : EventGraph)

def getType (record : ExecPoint) : Option EventType := (g.records record).map EPRecord.event

def getBranch (record : ExecPoint) : Option EPValue :=
  (g.records record).bind EPRecord.branch

def getNextRecord (record : ExecPoint) : Option ExecPoint :=
  (g.records record).bind EPRecord.nextRecord

def getChildRecord (record : ExecPoint) : Option ExecPoint :=
  (g.records record).bind EPRecord.childRecord

def valuevector (record : ExecPoint) : List Nat :=
  ((g.records record).map EPRecord.valuevector).getD []

/-- The exits that `recordExecCond` finds for a record when `nonlocaltrans` are pending: those
before the record, unless its branch is behind them as well. -/
def execCond (nonlocaltrans : List ExecPoint) (record : ExecPoint) : List ExecPoint :=
  nonlocaltrans.filter fun nonlocal =>
    (match g.getBranch record with
      | none => true
      | some branch => branch.record.compare nonlocal != .before) &&
    record.compare nonlocal == .before

end EventGraph

/-- `numvars` bits hold the code of a direction; code `0` is left for a branch that is not
always executed. -/
structure BranchRecord where
  numvars : Nat
  alwaysexecuted : Bool
  deriving DecidableEq, Repr

/-- A visited record with the exits that are pending then. -/
structure Visit where
  record : ExecPoint
  nonlocaltrans : List ExecPoint
  deriving DecidableEq, Repr

/-- `current` is the record the loop of `traverseRecord` has come to.  `visits` only
remembers the calls of `visitRecord`. -/
structure Traversal where
  current : Option ExecPoint
  workstack : List ExecPoint
  nonlocaltrans : List ExecPoint
  execcondtable : ExecPoint → Option (List ExecPoint)
  branchtable : ExecPoint → Option BranchRecord
  visits : List Visit

namespace Traversal

variable (g : EventGraph) (noexecyields : Bool)

/-- The record set that `execcondtable` has for a record. -/
def exits (t : Traversal) (record : ExecPoint) : List ExecPoint :=
  (t.execcondtable record).getD []

def isAlwaysExecuted (t : Traversal) (record : ExecPoint) : Bool :=
  (t.exits record).isEmpty && (g.getBranch record).isNone

def recordExecCond (t : Traversal) (record : ExecPoint) : Traversal :=
  let srs := g.execCond t.nonlocaltrans record
  if srs = [] then t
  else { t with execcondtable := Function.update t.execcondtable record (some srs) }

def insertNonLocal (t : Traversal) (record : ExecPoint) : Traversal :=
  { t with nonlocaltrans := HashSet.add t.nonlocaltrans record }

def insertLabel (t : Traversal) (record : ExecPoint) : Traversal :=
  { t with
    nonlocaltrans := t.nonlocaltrans.filter fun nonlocal =>
      g.getNextRecord nonlocal != some record }

/-- One code a direction, one for new directions and one for not being executed. -/
def insertBranch (t : Traversal) (record : ExecPoint) : Traversal :=
  let numvalue := (g.valuevector record).length
  let numvalue := if numvalue < g.len record then numvalue + 1 else numvalue
  let alwaysexecuted := t.isAlwaysExecuted g record
  let numvalue := if alwaysexecuted then numvalue else numvalue + 1
  { t with
    branchtable := Function.update t.branchtable record
      (some ⟨(numvalue - 1).size, alwaysexecuted⟩) }

def visitRecord (t : Traversal) (record : ExecPoint) : Traversal :=
  let t := { t with visits := t.visits ++ [Visit.mk record t.nonlocaltrans] }
  match g.getType record with
  | some .equals | some .function | some .load | some .store | some .rmw | some .loopexit
  | some .yield => t.recordExecCond g record
  | some .branchdir => (t.recordExecCond g record).insertBranch g record
  | some .nonlocaltrans => (t.recordExecCond g record).insertNonLocal record
  | some .label => t.insertLabel g record
  | _ => t

/-- The records a branch record pushes: its next record, then the first record of each
direction.  The last one pushed is visited first. -/
def pushDirections (workstack : List ExecPoint) (record : ExecPoint) : List ExecPoint :=
  (g.valuevector record).foldl
    (fun workstack value => (g.firstrecord ⟨record, value⟩).toList ++ workstack)
    ((g.getNextRecord record).toList ++ workstack)

/-- The rest of an iteration of `traverseRecord`, behind the visit of `record`. -/
def advance (t : Traversal) (record : ExecPoint) : Traversal :=
  if g.getType record = some .loopenter then
    { t with
      current := none
      workstack := (g.getChildRecord record).toList ++
        ((g.getNextRecord record).toList ++ t.workstack) }
  else
    let t := { t with workstack := (g.getChildRecord record).toList ++ t.workstack }
    if g.getType record = some .nonlocaltrans ∨ g.getType record = some .loopexit ∨
        (g.getType record = some .yield ∧ noexecyields) then
      { t with current := none }
    else if g.getType record = some .branchdir then
      { t with current := none, workstack := pushDirections g t.workstack record }
    else { t with current := g.getNextRecord record }

/-- One iteration of `traverseRecord`, or the pop of the next record from the work stack. -/
def step (t : Traversal) : Traversal :=
  match t.current, t.workstack with
  | some record, _ => (t.visitRecord g record).advance g noexecyields record
  | none, record :: workstack => { t with current := some record, workstack := workstack }
  | none, [] => t

def start : Traversal :=
  { current := some g.first
    workstack := []
    nonlocaltrans := []
    execcondtable := fun _ => none
    branchtable := fun _ => none
    visits := [] }

def traverse (n : Nat) : Traversal := (step g noexecyields)^[n] (start g)

/-- The value of `BranchRecord::getBranch` when the bits of each branch record hold its
code. -/
def takes (t : Traversal) (codes : ExecPoint → Nat) (branch : EPValue) : Bool :=
  match t.branchtable branch.record with
  | none => false
  | some br =>
      let index := (g.valuevector branch.record).idxOf branch.value
      decide (branch.value ∈ g.valuevector branch.record) &&
        codes branch.record == if br.alwaysexecuted then index else index + 1

/-- The conjunction that `getExecutionConstraint` builds for the exits `srs`. -/
def executed (t : Traversal) (codes : ExecPoint → Nat) (srs : List ExecPoint)
    (record : ExecPoint) : Bool :=
  (srs.all fun nonlocal => (g.getBranch nonlocal).all fun branch => !t.takes g codes branch) &&
    (g.getBranch record).all (t.takes g codes)

def getExecutionConstraint (t : Traversal) (codes : ExecPoint → Nat) (record : ExecPoint) :
    Bool :=
  t.executed g codes (t.exits record) record

/-! ## What a visit changes -/

/-- The records for which `visitRecord` calls `recordExecCond`. -/
def recordsExecCond : EventType → Bool
  | .equals | .function | .load | .store | .rmw | .branchdir | .loopexit | .nonlocaltrans
  | .yield => true
  | _ => false

@[simp] theorem recordExecCond_visits (t : Traversal) (record : ExecPoint) :
    (t.recordExecCond g record).visits = t.visits := by
  unfold recordExecCond
  simp only
  split_ifs <;> rfl

@[simp] theorem recordExecCond_nonlocaltrans (t : Traversal) (record : ExecPoint) :
    (t.recordExecCond g record).nonlocaltrans = t.nonlocaltrans := by
  unfold recordExecCond
  simp only
  split_ifs <;> rfl

theorem recordExecCond_execcondtable (t : Traversal) (record : ExecPoint) :
    (t.recordExecCond g record).execcondtable =
      if g.execCond t.nonlocaltrans record = [] then t.execcondtable
      else Function.update t.execcondtable record (some (g.execCond t.nonlocaltrans record)) := by
  unfold recordExecCond
  simp only
  split_ifs <;> rfl

@[simp] theorem visitRecord_visits (t : Traversal) (record : ExecPoint) :
    (t.visitRecord g record).visits = t.visits ++ [⟨record, t.nonlocaltrans⟩] := by
  unfold visitRecord
  simp only
  split <;> simp [insertNonLocal, insertLabel, insertBranch]

theorem visitRecord_execcondtable (t : Traversal) (record : ExecPoint) :
    (t.visitRecord g record).execcondtable =
      if (g.getType record).any recordsExecCond then (t.recordExecCond g record).execcondtable
      else t.execcondtable := by
  unfold visitRecord
  cases h : g.getType record with
  | none => rfl
  | some type =>
    cases type <;>
      simp [recordsExecCond, insertBranch, insertNonLocal, insertLabel,
        recordExecCond_execcondtable]

@[simp] theorem advance_visits (t : Traversal) (record : ExecPoint) :
    (t.advance g noexecyields record).visits = t.visits := by
  unfold advance
  split_ifs <;> rfl

@[simp] theorem advance_execcondtable (t : Traversal) (record : ExecPoint) :
    (t.advance g noexecyields record).execcondtable = t.execcondtable := by
  unfold advance
  split_ifs <;> rfl

theorem traverse_succ (n : Nat) :
    traverse g noexecyields (n + 1) = (traverse g noexecyields n).step g noexecyields :=
  Function.iterate_succ_apply' _ _ _

/-! ## The table keeps the exits of a visit -/

/-- The visits whose exits stand in `execcondtable`. -/
def Settled (t : Traversal) (v : Visit) : Prop :=
  v ∈ t.visits ∧ t.exits v.record = g.execCond v.nonlocaltrans v.record

/-- What `execcondtable` has for a record is the exits of a visit of the record. -/
def TableSettled (t : Traversal) : Prop :=
  ∀ record, (t.execcondtable record ≠ none ∨
      ∃ v ∈ t.visits, v.record = record ∧ (g.getType record).any recordsExecCond) →
    ∃ v, t.Settled g v ∧ v.record = record

theorem tableSettled_visitRecord {t : Traversal} (h : t.TableSettled g) (record : ExecPoint) :
    (t.visitRecord g record).TableSettled g := by
  have hkept : ∀ v, t.Settled g v →
      (t.visitRecord g record).execcondtable v.record = t.execcondtable v.record →
      (t.visitRecord g record).Settled g v := by
    intro v hv heq
    constructor
    · simp [hv.1]
    · rw [← hv.2]
      simp [exits, heq]
  have hnew : (t.visitRecord g record).exits record = g.execCond t.nonlocaltrans record →
      (t.visitRecord g record).Settled g ⟨record, t.nonlocaltrans⟩ := by
    intro heq
    exact ⟨by simp, heq⟩
  have htable := visitRecord_execcondtable g t record
  rw [recordExecCond_execcondtable] at htable
  intro record' hrecord'
  by_cases hrecord : record' = record
  · subst hrecord
    by_cases hcond : (g.getType record').any recordsExecCond
    · by_cases hsrs : g.execCond t.nonlocaltrans record' = []
      · simp only [hcond, hsrs, if_true] at htable
        cases hold : t.execcondtable record' with
        | none => exact ⟨_, hnew (by simp [exits, htable, hold, hsrs]), rfl⟩
        | some srs =>
          obtain ⟨v, hv, hvr⟩ := h record' (.inl (by simp [hold]))
          exact ⟨v, hkept v hv (by rw [htable]), hvr⟩
      · simp only [hcond, hsrs, if_true, if_false] at htable
        exact ⟨_, hnew (by simp [exits, htable]), rfl⟩
    · rw [if_neg hcond] at htable
      obtain ⟨v, hv, hvr⟩ := h record' (.inl (by simpa [htable, hcond] using hrecord'))
      exact ⟨v, hkept v hv (by rw [htable]), hvr⟩
  · have hsame : (t.visitRecord g record).execcondtable record' = t.execcondtable record' := by
      rw [htable]
      split_ifs <;> simp [hrecord]
    obtain ⟨v, hv, rfl⟩ := h record' (by
      rw [hsame] at hrecord'
      simp only [visitRecord_visits, List.mem_append, List.mem_singleton] at hrecord'
      apply hrecord'.imp_right
      rintro ⟨v, hv | rfl, hvr, hcond⟩
      · exact ⟨v, hv, hvr, hcond⟩
      · exact absurd hvr.symm hrecord)
    exact ⟨v, hkept v hv hsame, rfl⟩

theorem tableSettled_traverse (n : Nat) : (traverse g noexecyields n).TableSettled g := by
  induction n with
  | zero =>
    intro record h
    simp [traverse, start] at h
  | succ n ih =>
    rw [traverse_succ]
    unfold step
    split
    · have := tableSettled_visitRecord g ih
      intro record' h
      simp only [advance_execcondtable, advance_visits] at h
      obtain ⟨v, hv, hvr⟩ := this _ record' h
      exact ⟨v, ⟨by simpa using hv.1, by simpa [exits] using hv.2⟩, hvr⟩
    · exact ih
    · exact ih

end Traversal

end SatCheck
