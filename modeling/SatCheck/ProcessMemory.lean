import SatCheck.ProcessCAS
import SatCheck.ProcessAdd
import SatCheck.PlannerGrowth
/-!
# The constraints of one memory action

What the constraints of a store, of an exchange, of a fetch-and-add and of a compare-and-swap say
about the values that the action reads and writes, and the variables that they are built of.
-/

namespace SatCheck

namespace Constraint

variable {ρ : Nat → Bool} {l r : Option Constraint} {p q : Prop}

/-- The constraint holds exactly if the statement does.  A missing one stands for a false one. -/
def Says (ρ : Nat → Bool) (c : Option Constraint) (p : Prop) : Prop :=
  match c with
  | none => ¬ p
  | some d => d.implicationFree = true ∧ (eval ρ d = true ↔ p)

theorem Says.both (hl : Says ρ l p) (hr : Says ρ r q) : Says ρ (both l r) (p ∧ q) := by
  cases l with
  | none => exact fun h => hl h.1
  | some l =>
    cases r with
    | none => exact fun h => hr h.2
    | some r =>
      refine ⟨by simp [hl.1, hr.1], ?_⟩
      simp only [eval_and, List.all_cons, List.all_nil, Bool.and_true, Bool.and_eq_true]
      exact and_congr hl.2 hr.2

mutual

theorem varsAll_mono {p q : Nat → Bool} (hpq : ∀ v, p v = true → q v = true) :
    ∀ c : Constraint, varsAll p c = true → varsAll q c = true
  | .ctrue, _ => rfl
  | .cfalse, _ => rfl
  | .var v, h => hpq v h
  | .notvar v, h => hpq v h
  | .implies l r, h => by
      rw [varsAll_implies, Bool.and_eq_true] at h ⊢
      exact ⟨varsAll_mono hpq l h.1, varsAll_mono hpq r h.2⟩
  | .and cs, h => by
      rw [varsAll_and] at h ⊢
      exact all_varsAll_mono hpq cs h
  | .or cs, h => by
      rw [varsAll_or] at h ⊢
      exact all_varsAll_mono hpq cs h

theorem all_varsAll_mono {p q : Nat → Bool} (hpq : ∀ v, p v = true → q v = true) :
    ∀ cs : List Constraint, cs.all (varsAll p) = true → cs.all (varsAll q) = true
  | [], _ => rfl
  | c :: cs, h => by
      rw [List.all_cons, Bool.and_eq_true] at h ⊢
      exact ⟨varsAll_mono hpq c h.1, all_varsAll_mono hpq cs h.2⟩

end

end Constraint

open Constraint

namespace EncodingTables

variable {R : Type} (t : EncodingTables R) {ρ : Nat → Bool} {src : R} {w : UInt64}

/-- The encoding of the value holds: the record returns it, or one that it is taken for. -/
def Takes (ρ : Nat → Bool) (src : R) (w : UInt64) : Prop :=
  ∃ v, t.Encodes ρ src v ∧ (w = v ∨ t.TakenFor src w v)

end EncodingTables

namespace MemoryTables

variable {R : Type} (t : MemoryTables R)

/-! ## The loads and stores of `processRecord` -/

/-- What a store or an exchange writes: the first of the constants, or what the source of the
operand returns. -/
def storevalue (record : R) (consts : List UInt64) : List (Option Constraint) :=
  match t.getRevDependences record vcBaseIndex with
  | none =>
      match consts with
      | [] => [none]
      | val :: _ => [t.getMemValueEncoding record val]
  | some src => (t.getSet record (t.info record).storeIndex).map fun val =>
      EncodingTables.imply (t.getRetValueEncoding src val) (t.getMemValueEncoding record val)

def processLoad (record : R) : List (Option Constraint) :=
  t.loadRF record ++ t.processAddresses record

def processStore (record : R) : List (Option Constraint) :=
  t.storevalue record (t.valuevector record) ++ t.processAddresses record

def processEXC (record : R) : List (Option Constraint) :=
  t.loadRF record ++ t.storevalue record (t.getSet record vcBaseIndex) ++
    t.processAddresses record

/-- The memory actions of `processRecord`, SC build. -/
def processMemory (record : R) : List (Option Constraint) :=
  match (t.info record).event with
  | .load => t.processLoad record
  | .store => t.processStore record
  | .rmw =>
      match (t.info record).op with
      | .add => t.processAdd record
      | .cas => t.processCAS record
      | .exc => t.processEXC record
  | _ => []

/-- The variables that `processMemory` takes. -/
def numVars (record : R) : Nat :=
  match (t.info record).event with
  | .load => (t.getMayReadFromSet record).length.size
  | .rmw => (t.getMayReadFromSet record).length.size +
      if (t.info record).op = .exc then 0 else 1
  | _ => 0

/-- The tables when all variables below `n` are taken. -/
def takenTo (n : Nat) : MemoryTables R := { t with varindex := n }

/-! ## What the constraints say

With `takes` for the encodings that hold.  What the program says is another matter, as the sum of a
fetch-and-add shows, which is looked up in the store set. -/

section

variable (takes : R → UInt64 → Prop)

/-- A value of the store set that is encoded by the source of the operand, or the first of the
constants. -/
def EncodedOperand (record : R) (consts : List UInt64) (val : UInt64) : Prop :=
  match t.getRevDependences record vcBaseIndex with
  | none => consts.head? = some val
  | some src => val ∈ t.getSet record (t.info record).storeIndex ∧ takes src val

/-- An address of the record whose difference to the offset is encoded by the source. -/
def EncodedAddress (record : R) (addr : UInt64) : Prop :=
  match t.getRevDependences record vcAddrIndex with
  | none => t.getAddr record = addr
  | some src =>
      addr ∈ t.getSet record vcAddrIndex ∧ takes src (addr - (t.info record).offset)

def EncodedMatch (record : R) (m : UInt64) : Prop :=
  match t.getRevDependences record vcOldvalcasIndex with
  | none => (t.getSet record vcOldvalcasIndex).head? = some m
  | some src => takes src m

/-- The old operand is also encoded as a value that the memory cannot have. -/
def EncodedUnknown (record : R) : Prop :=
  ∃ src, t.getRevDependences record vcOldvalcasIndex = some src ∧
    ∃ val ∈ t.getSet record vcOldvalcasIndex, val ∉ t.getValues (t.getStoreLoadSet record) ∧
      takes src val

/-- The constraints let an action that reads `m` write `n`. -/
def EncodedWrite (record : R) (m n : UInt64) : Prop :=
  match (t.info record).event with
  | .store => ∀ val, t.EncodedOperand takes record (t.valuevector record) val → n = val
  | .rmw =>
      match (t.info record).op with
      | .add => ∀ val, t.EncodedOperand takes record (t.getSet record vcBaseIndex) val →
          t.sum record m val ∈ t.getValues (t.getStoreLoadSet record) → n = t.sum record m val
      | .cas => (t.EncodedMatch takes record m → ¬ t.EncodedUnknown takes record ∧
            ∀ val, t.EncodedOperand takes record (t.getSet record vcBaseIndex) val → n = val) ∧
          (¬ t.EncodedMatch takes record m → n = m)
      | .exc => ∀ val, t.EncodedOperand takes record (t.getSet record vcBaseIndex) val → n = val
  | _ => True

end

/-- The constants and the recorded values of a memory action are in the sets of its addresses and
values, where `StoreLoadSet::add` has put them. -/
structure Recorded (record : R) : Prop where
  addresses : ∀ addr ∈ t.getSet record vcAddrIndex,
    addr ∈ t.getAddresses (t.getStoreLoadSet record)
  addr : t.getRevDependences record vcAddrIndex = none →
    t.getAddr record ∈ t.getAddresses (t.getStoreLoadSet record)
  stored : (t.info record).isStore → ∀ val ∈ t.getSet record (t.info record).storeIndex,
    val ∈ t.getValues (t.getStoreLoadSet record)
  value : (t.info record).event = .store → t.getRevDependences record vcBaseIndex = none →
    ∀ val ∈ t.valuevector record, val ∈ t.getValues (t.getStoreLoadSet record)
  operand : (t.info record).event = .rmw → (t.info record).op ≠ .add →
    t.getRevDependences record vcBaseIndex = none →
      ∀ val ∈ t.getSet record vcBaseIndex, val ∈ t.getValues (t.getStoreLoadSet record)
  old : (t.info record).event = .rmw → (t.info record).op = .cas →
    t.getRevDependences record vcOldvalcasIndex = none → t.getSet record vcOldvalcasIndex ≠ []

variable {t} {record src : R} {ρ ρ' : Nat → Bool} {m n w : UInt64} {v : Nat}

def oldConstraints (t : MemoryTables R) (record : R) (eq : Constraint) :
    List (Option Constraint) :=
  match t.getRevDependences record vcOldvalcasIndex with
  | none => t.constantOld record eq
  | some src => t.dependentOld record src eq

theorem TableVars.mono {p q : Nat → Bool} (h : t.TableVars p) (hpq : ∀ v, p v = true → q v = true) :
    t.TableVars q where
  equals r := hpq _ (h.equals r)
  functions r v hv := hpq v (h.functions r v hv)
  values r v hv := hpq v (h.values r v hv)
  reads r v hv := hpq v (h.reads r v hv)
  branches r v hv := hpq v (h.branches r v hv)
  addresses r v hv := hpq v (h.addresses r v hv)
  order first second := varsAll_mono hpq _ (h.order first second)

section

variable {p : Nat → Bool} (h : t.TableVars p)

include h

theorem TableVars.getMemValueEncoding (r : R) (value : UInt64) :
    AllVars p (t.getMemValueEncoding r value) := by
  unfold MemoryTables.getMemValueEncoding
  split
  · exact allVars_valueEncoding (h.values r) value
  · exact allVars_valueEncoding (h.values r) value
  · rintro d ⟨⟩

theorem TableVars.getRMWRValueEncoding (r : R) (value : UInt64) :
    AllVars p (t.getRMWRValueEncoding r value) :=
  allVars_valueEncoding (h.reads r) value

theorem TableVars.storevalue (consts : List UInt64) :
    ∀ c ∈ t.storevalue record consts, AllVars p c := by
  intro c hc
  unfold MemoryTables.storevalue at hc
  split at hc
  · split at hc
    · obtain rfl := List.mem_singleton.mp hc
      rintro d ⟨⟩
    · obtain rfl := List.mem_singleton.mp hc
      exact h.getMemValueEncoding record _
  · obtain ⟨val, -, rfl⟩ := List.mem_map.mp hc
    exact (h.getRetValueEncoding _ val).imply (h.getMemValueEncoding record val)

variable (hv : p v = true)

include hv

theorem TableVars.sums : ∀ c ∈ t.sums record (.var v), AllVars p c := by
  have hnotvar : AllVars p (some (Constraint.var v).negate) :=
    .some (by rw [varsAll_negate]; simpa [varsAll] using hv)
  intro c hc
  unfold MemoryTables.sums at hc
  split at hc
  · split at hc
    · obtain rfl := List.mem_singleton.mp hc
      rintro d ⟨⟩
    · obtain ⟨memval, -, hc⟩ := List.mem_flatMap.mp hc
      unfold addinputfix at hc
      split_ifs at hc
      · obtain rfl := List.mem_singleton.mp hc
        exact (h.getRMWRValueEncoding record _).imply
          ((h.getMemValueEncoding record _).both hnotvar)
      · cases hc
  · obtain ⟨val, -, hc⟩ := List.mem_flatMap.mp hc
    obtain ⟨memval, -, hc⟩ := List.mem_flatMap.mp hc
    unfold addinputvar at hc
    split_ifs at hc
    · obtain rfl := List.mem_singleton.mp hc
      exact ((h.getRetValueEncoding _ _).both (h.getRMWRValueEncoding record _)).imply
        (hnotvar.both (h.getMemValueEncoding record _))
    · cases hc

theorem TableVars.oldConstraints : ∀ c ∈ t.oldConstraints record (.var v), AllVars p c := by
  have hvar : varsAll p (.var v) = true := by simpa [varsAll] using hv
  have hnotvar : varsAll p (Constraint.var v).negate = true := by rwa [varsAll_negate]
  intro c hc
  unfold MemoryTables.oldConstraints at hc
  split at hc
  · unfold constantOld at hc
    split at hc
    · obtain rfl := List.mem_singleton.mp hc
      rintro d ⟨⟩
    · split at hc
      · obtain rfl := List.mem_singleton.mp hc
        exact .some hnotvar
      next rmwr hrmwr =>
        obtain rfl := List.mem_singleton.mp hc
        have henc := h.getRMWRValueEncoding record _ rmwr hrmwr
        exact .some (by simp [equivConstraint, hvar, hnotvar, varsAll_negate, henc])
  next src _ =>
    rcases List.mem_append.mp hc with hc | hc
    · obtain ⟨valcas, -, hc⟩ := List.mem_flatMap.mp hc
      have hstoreenc := h.getRMWRValueEncoding record valcas
      unfold casValue at hc
      simp only at hc
      split at hc
      next srcenc _ hsrcenc _ =>
        obtain rfl := List.mem_singleton.mp hc
        have henc := h.getRetValueEncoding src valcas srcenc hsrcenc
        exact hstoreenc.imply (.some (by simp [henc, hvar]))
      · obtain rfl := List.mem_singleton.mp hc
        exact hstoreenc.imply (.some hnotvar)
      · cases hc
    · obtain ⟨val, -, hc⟩ := List.mem_flatMap.mp hc
      split_ifs at hc
      · cases hc
      · obtain rfl := List.mem_singleton.mp hc
        exact (h.getRetValueEncoding src val).imply (.some hnotvar)

theorem TableVars.casmemsuc : ∀ c ∈ t.casmemsuc record (.var v), AllVars p c := by
  have hvar : varsAll p (.var v) = true := by simpa [varsAll] using hv
  intro c hc
  unfold MemoryTables.casmemsuc at hc
  split at hc
  · split at hc
    · obtain rfl := List.mem_singleton.mp hc
      rintro d ⟨⟩
    · obtain rfl := List.mem_singleton.mp hc
      exact (AllVars.some hvar).imply (h.getMemValueEncoding record _)
  next src _ =>
    obtain ⟨val, -, hc⟩ := List.mem_flatMap.mp hc
    split at hc
    · cases hc
    next srcenc hsrcenc =>
      obtain rfl := List.mem_singleton.mp hc
      have henc := h.getRetValueEncoding src val srcenc hsrcenc
      exact (AllVars.some (by simp [hvar, henc])).imply (h.getMemValueEncoding record val)

theorem TableVars.casmemfail : AllVars p (t.casmemfail record (.var v)) := by
  have hnotvar : varsAll p (Constraint.var v).negate = true := by
    rw [varsAll_negate]
    simpa [varsAll] using hv
  exact (AllVars.some hnotvar).imply
    (.some (varsAll_generateEquivConstraint (h.values record) (h.reads record)))

end

/-- The constraints of a memory action have the variables of the tables and those that it takes. -/
theorem TableVars.processMemory {p : Nat → Bool} (h : t.TableVars p)
    (hnew : ∀ v, t.varindex ≤ v → v < t.varindex + t.numVars record → p v = true) :
    ∀ c ∈ t.processMemory record, AllVars p c := by
  have hrf : (t.getMayReadFromSet record).length.size ≤ t.numVars record →
      ∀ v ∈ t.rfVars record, p v = true := by
    intro hle v hv
    unfold rfVars at hv
    rw [List.mem_range'_1] at hv
    exact hnew v hv.1 (by omega)
  have haddresses : ∀ c ∈ t.processAddresses record, AllVars p c := h.processAddresses
  unfold MemoryTables.processMemory
  unfold numVars at hrf hnew
  split
  next hevent =>
    simp only [hevent] at hrf
    exact List.forall_mem_append.mpr ⟨h.loadRF (hrf le_rfl), haddresses⟩
  next hevent => exact List.forall_mem_append.mpr ⟨h.storevalue _, haddresses⟩
  next hevent =>
    simp only [hevent] at hrf hnew
    have hloadRF : ∀ c ∈ t.loadRF record, AllVars p c := h.loadRF (hrf (Nat.le_add_right _ _))
    have hvar : (t.info record).op ≠ .exc → p (t.newVar record) = true := by
      intro hop
      apply hnew _ (Nat.le_add_right _ _)
      unfold rfVars
      rw [if_neg hop, List.length_range']
      omega
    split
    next hop =>
      have hsums : ∀ c ∈ t.sums record (.var (t.newVar record)), AllVars p c :=
        h.sums (hvar (by simp [hop]))
      exact List.forall_mem_append.mpr ⟨List.forall_mem_append.mpr ⟨hloadRF, hsums⟩, haddresses⟩
    next hop =>
      have hv := hvar (by simp [hop])
      have heq : t.processCAS record = t.loadRF record ++
          t.oldConstraints record (.var (t.newVar record)) ++
          t.casmemsuc record (.var (t.newVar record)) ++
          [t.casmemfail record (.var (t.newVar record))] ++ t.processAddresses record := rfl
      rw [heq]
      simp only [List.forall_mem_append, List.forall_mem_singleton]
      exact ⟨⟨⟨⟨hloadRF, h.oldConstraints hv⟩, h.casmemsuc hv⟩, h.casmemfail hv⟩, haddresses⟩
    next hop =>
      exact List.forall_mem_append.mpr
        ⟨List.forall_mem_append.mpr ⟨hloadRF, h.storevalue _⟩, haddresses⟩
  · simp

theorem TableVars.takes_eq {p : Nat → Bool} (h : t.TableVars p)
    (hagree : ∀ v, p v = true → ρ v = ρ' v) : t.Takes ρ = t.Takes ρ' := by
  ext src w
  exact exists_congr fun v => and_congr_left' ⟨h.encodes_congr hagree,
    h.encodes_congr fun v hv => (hagree v hv).symm⟩

end MemoryTables

end SatCheck
