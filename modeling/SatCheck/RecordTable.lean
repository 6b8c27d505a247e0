import SatCheck.HashTableLoad
import SatCheck.PointHash
/-!
# The table of records

`EPTable` leads from the objects of execution points to records.  As a table from which nothing is
removed it is the map from points to records that the recorder keeps.
-/

namespace SatCheck

open ExecPoint (Object execPointHash execPointEquals)
open HashTable (sameKey sameKey_zero sameKey_of_ne sameKey_equivalence)

/-- A key of `EPTable` with the point that it has been built alongside; a null pointer is
`none`. -/
def PointKey : Type :=
  Option { entry : Object × ExecPoint // entry.1.Tracks entry.2 }
  deriving DecidableEq

namespace PointKey

instance : Zero PointKey := ⟨none⟩

def of {p : Object} {ep : ExecPoint} (h : p.Tracks ep) : PointKey := some ⟨(p, ep), h⟩

def object : PointKey → Option Object
  | none => none
  | some entry => some entry.1.1

def point : PointKey → Option ExecPoint
  | none => none
  | some entry => some entry.1.2

private theorem of_ne_zero {p : Object} {ep : ExecPoint} (h : p.Tracks ep) : of h ≠ 0 :=
  Option.some_ne_none _

end PointKey

def pointOps : KeyOps PointKey where
  hash_function key := (key.object.elim 0 execPointHash).toNat
  equals a b := execPointEquals a.object b.object = some true

theorem equals_pointOps {a b : PointKey} : pointOps.equals a b = true ↔ a.point = b.point := by
  rcases a with _ | ⟨⟨p, ep⟩, h⟩ <;> rcases b with _ | ⟨⟨q, ep'⟩, h'⟩
  · simp [pointOps, PointKey.object, PointKey.point, execPointEquals]
  · simp [pointOps, PointKey.object, PointKey.point, execPointEquals]
  · simp [pointOps, PointKey.object, PointKey.point, execPointEquals]
  · simp [pointOps, PointKey.object, PointKey.point, h.execPointEquals_eq h']

theorem pointOps_lawful : pointOps.Lawful where
  equivalence := by
    refine ⟨fun a => ?_, fun a b => ?_, fun a b c => ?_⟩ <;> simp only [equals_pointOps]
    · exact Eq.symm
    · exact Eq.trans
  hash a b heq := by
    have hpoint := equals_pointOps.mp heq
    rcases a with _ | ⟨⟨p, ep⟩, h⟩ <;> rcases b with _ | ⟨⟨q, ep'⟩, h'⟩
    · rfl
    · cases hpoint
    · cases hpoint
    · have hequal : execPointEquals (some p) (some q) = some true :=
        of_decide_eq_true heq
      exact congrArg UInt32.toNat (h.obtained.hash_eq_of_equals h'.obtained hequal)

private theorem sameKey_pointOps {a b : PointKey} :
    sameKey pointOps a b = true ↔ a.point = b.point := by
  by_cases hb : b = 0
  · subst hb
    rw [sameKey_zero]
    rcases a with _ | ⟨⟨p, ep⟩, h⟩
    · exact iff_of_true rfl rfl
    · exact iff_of_false (PointKey.of_ne_zero h) (Option.some_ne_none _)
  · rw [sameKey_of_ne hb, equals_pointOps, and_iff_right_iff_imp]
    rintro heq rfl
    rcases b with _ | ⟨⟨q, ep'⟩, h'⟩
    · exact hb rfl
    · cases heq

/-! ## The table as the map of the recorder -/

/-- The table leads from every object of a point to the record of the point. -/
def Records (t : HashTable PointKey Nat) (records : ExecPoint → Option Nat) : Prop :=
  ∃ m, HashTable.PutOnly pointOps t m ∧
    ∀ {p ep} (h : Object.Tracks p ep),
      AssocMap.get (sameKey pointOps) m (.of h) = records ep

variable {t : HashTable PointKey Nat} {records : ExecPoint → Option Nat}

theorem records_new {n : Nat} :
    Records (HashTable.new (2 ^ (n + 2)) (1 / 2)) fun _ => none :=
  ⟨[], .new, fun _ => rfl⟩

theorem Records.get (ht : Records t records) {p : Object} {ep : ExecPoint} (h : p.Tracks ep) :
    t.get pointOps (.of h) = some ((records ep).getD 0) := by
  obtain ⟨m, hm, hrecords⟩ := ht
  rw [hm.stored.get pointOps_lawful, hrecords]

theorem Records.put (ht : Records t records) {p : Object} {ep : ExecPoint} (h : p.Tracks ep)
    {record : Nat} (hrecord : record ≠ 0) :
    ∃ t', t.put pointOps (.of h) record = some t' ∧
      Records t' (Function.update records ep (some record)) := by
  obtain ⟨m, hm, hrecords⟩ := ht
  obtain ⟨t', hput, hm'⟩ : ∃ t', t.put pointOps (.of h) record = some t' ∧
      HashTable.PutOnly pointOps t' (AssocMap.put (sameKey pointOps) m (.of h) record) :=
    hm.put pointOps_lawful hrecord
  refine ⟨t', hput, _, hm', fun {q ep'} h' => ?_⟩
  rw [AssocMap.get_put (sameKey_equivalence pointOps_lawful), hrecords]
  have hsame : sameKey pointOps (.of h) (.of h') = true ↔ ep' = ep := by
    rw [sameKey_pointOps]
    exact Option.some_inj.trans eq_comm
  by_cases hep : ep' = ep
  · rw [if_pos (hsame.mpr hep), hep, Function.update_self]
  · rw [if_neg (hsame.not.mpr hep), Function.update_of_ne hep]

/-- `getOrCreateCurrRecord` on the table.  A new record is put under a copy of the point. -/
def getOrCreate (t : HashTable PointKey Nat) (currexecpoint ep : PointKey) (record : Nat) :
    Option (HashTable PointKey Nat × Nat) := do
  let found ← t.get pointOps currexecpoint
  if found = 0 then
    let t ← t.put pointOps ep record
    some (t, record)
  else some (t, found)

/-- The same on the map of the recorder. -/
def getOrCreateRecord (records : ExecPoint → Option Nat) (ep : ExecPoint) (record : Nat) :
    ExecPoint → Option Nat :=
  match records ep with
  | none => Function.update records ep (some record)
  | some _ => records

theorem getOrCreateRecord_ne_zero {record : Nat} (hrecord : record ≠ 0)
    (h : ∀ ep, records ep ≠ some 0) (ep ep' : ExecPoint) :
    getOrCreateRecord records ep record ep' ≠ some 0 := by
  unfold getOrCreateRecord
  cases records ep with
  | none =>
    by_cases hep : ep' = ep
    · simp [hep, hrecord]
    · simp [hep, h ep']
  | some _ => exact h ep'

theorem Records.getOrCreate (ht : Records t records) (hnonnull : ∀ ep, records ep ≠ some 0)
    {p q : Object} {ep : ExecPoint} (h : p.Tracks ep) (h' : q.Tracks ep) {record : Nat}
    (hrecord : record ≠ 0) :
    ∃ t', getOrCreate t (.of h) (.of h') record =
        some (t', (getOrCreateRecord records ep record ep).getD 0) ∧
      Records t' (getOrCreateRecord records ep record) := by
  unfold SatCheck.getOrCreate getOrCreateRecord
  rw [ht.get h]
  cases hfound : records ep with
  | none =>
    obtain ⟨t', hput, ht'⟩ := ht.put h' hrecord
    exact ⟨t', by simp [hput], ht'⟩
  | some found =>
    have hne : found ≠ 0 := by
      rintro rfl
      exact hnonnull ep hfound
    exact ⟨t, by simp [hne, hfound], ht⟩

/-- A request for the record of the current point, with the record that is allocated if there is
none. -/
structure RecordRequest where
  currexecpoint : Object
  copied : Object
  ep : ExecPoint
  record : Nat
  current : currexecpoint.Tracks ep
  copy : copied.Tracks ep
  allocated : record ≠ 0

def getOrCreateAll (t : HashTable PointKey Nat) (requests : List RecordRequest) :
    Option (HashTable PointKey Nat) :=
  requests.foldlM (fun t request =>
    (getOrCreate t (.of request.current) (.of request.copy) request.record).map Prod.fst) t

theorem Records.getOrCreateAll (requests : List RecordRequest) (ht : Records t records)
    (hnonnull : ∀ ep, records ep ≠ some 0) :
    ∃ t', getOrCreateAll t requests = some t' ∧ Records t' (requests.foldl
      (fun records request => getOrCreateRecord records request.ep request.record) records) := by
  induction requests generalizing t records with
  | nil => exact ⟨t, rfl, ht⟩
  | cons request requests ih =>
    obtain ⟨t₁, hstep, ht₁⟩ := ht.getOrCreate hnonnull request.current request.copy
      request.allocated
    obtain ⟨t', hrest, ht'⟩ :=
      ih ht₁ (getOrCreateRecord_ne_zero request.allocated hnonnull request.ep)
    refine ⟨t', ?_, ht'⟩
    rw [SatCheck.getOrCreateAll, List.foldlM_cons, hstep]
    exact hrest

/-- From the empty table, every sequence of requests leaves the map that the recorder comes to. -/
theorem records_getOrCreateAll {n : Nat} (requests : List RecordRequest) :
    ∃ t, getOrCreateAll (HashTable.new (2 ^ (n + 2)) (1 / 2)) requests = some t ∧
      Records t (requests.foldl
        (fun records request => getOrCreateRecord records request.ep request.record)
        fun _ => none) :=
  records_new.getOrCreateAll requests fun _ => (Option.some_ne_none 0).symm

end SatCheck
