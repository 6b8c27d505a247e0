import SatCheck.TableVars
import SatCheck.PlannerCalls
/-!
# Fetch-and-add

`processAdd` ties the written value to the sum of the value that is read and the operand, where the
sum is known.  A new variable stands for a sum that is not.
-/

namespace SatCheck

open Constraint

namespace MemoryTables

variable {R : Type} (t : MemoryTables R)

def sum (record : R) (memval val : UInt64) : UInt64 :=
  (memval + val) &&& PlannerState.getmask (t.getLen record)

/-- `addinputfix` for one value of the memory and the constant operand. -/
def addinputfix (record : R) (var : Constraint) (val memval : UInt64) : List (Option Constraint) :=
  if t.sum record memval val ∈ t.getValues (t.getStoreLoadSet record) then
    [EncodingTables.imply (t.getRMWRValueEncoding record memval)
      (both (t.getMemValueEncoding record (t.sum record memval val)) (some var.negate))]
  else []

/-- `addinputvar` for one value of the memory and one value of the store set. -/
def addinputvar (record src : R) (var : Constraint) (val memval : UInt64) :
    List (Option Constraint) :=
  if t.sum record memval val ∈ t.getValues (t.getStoreLoadSet record) then
    [EncodingTables.imply
      (both (t.getRetValueEncoding src val) (t.getRMWRValueEncoding record memval))
      (both (some var.negate) (t.getMemValueEncoding record (t.sum record memval val)))]
  else []

/-- The sums of the memory values with the constant operand, or with the store set. -/
def sums (record : R) (var : Constraint) : List (Option Constraint) :=
  let valset := t.getValues (t.getStoreLoadSet record)
  match t.getRevDependences record vcBaseIndex with
  | none =>
      match t.getSet record vcBaseIndex with
      | [] => [none]
      | val :: _ => valset.flatMap (t.addinputfix record var val)
  | some src =>
      (t.getSet record (t.info record).storeIndex).flatMap fun val =>
        valset.flatMap (t.addinputvar record src var val)

def processAdd (record : R) : List (Option Constraint) :=
  t.loadRF record ++ t.sums record (.var (t.newVar record)) ++ t.processAddresses record

/-! ## What a fetch-and-add promises -/

/-- A fetch-and-add of a word size.  A constant operand has one value, and the new variable comes
behind those of the tables. -/
structure RecordedAdd (record : R) : Prop where
  event : (t.info record).event = .rmw
  op : (t.info record).op = .add
  len : t.getLen record ∈ [1, 2, 4, 8]
  constant : t.getRevDependences record vcBaseIndex = none →
    ∃ val, t.getSet record vcBaseIndex = [val]
  vars : t.TableVars fun v => v < t.newVar record

/-- No operand of a sum is missing.  Where `m` is read and the operand is `a`, the sum is written
and is not new if it is known. -/
def AddsUp (record : R) (m a : UInt64) : Prop :=
  (∀ c ∈ t.sums record (.var (t.newVar record)), c ≠ none) ∧
    ∀ ρ, Added ρ (t.processAdd record) → t.Encodes ρ record m → t.OperandValue ρ record 0 a →
      ∀ s, s.toNat = (m.toNat + a.toNat) % 2 ^ (8 * t.getLen record) →
        s ∈ t.getValues (t.getStoreLoadSet record) →
          t.Writes ρ record s ∧ ρ (t.newVar record) = false

/-- Some assignment reads `m` and has the operand `a`. -/
def Adds (record : R) (m a : UInt64) : Prop :=
  ∃ ρ, Added ρ (t.processAdd record) ∧ t.Encodes ρ record m ∧ t.OperandValue ρ record 0 a

/-- The store set of the record has the operand that its source returns, or a value that the source
encodes alike and that gives the same sum. -/
def StoresOperand (record : R) (m a : UInt64) : Prop :=
  ∀ src, t.getRevDependences record vcBaseIndex = some src →
    ∃ val ∈ t.getSet record (t.info record).storeIndex,
      (val = a ∨ t.TakenFor src val a) ∧ t.sum record m val = t.sum record m a

/-- The source of the operand encodes the values of the store set that give known sums. -/
def StoreSetEncoded (record : R) : Prop :=
  ∀ src, t.getRevDependences record vcBaseIndex = some src →
    ∀ val ∈ t.getSet record (t.info record).storeIndex,
    ∀ memval ∈ t.getValues (t.getStoreLoadSet record),
      t.sum record memval val ∈ t.getValues (t.getStoreLoadSet record) → t.Encodable src val

/-- The store set is encoded, and it has the operand if the sum is known. -/
def Summable (record : R) (m a : UInt64) : Prop :=
  t.StoreSetEncoded record ∧
    (t.sum record m a ∈ t.getValues (t.getStoreLoadSet record) → t.StoresOperand record m a)

variable {t} {record src : R} {ρ : Nat → Bool} {m a val memval : UInt64}

theorem toNat_sum (hlen : t.getLen record ∈ [1, 2, 4, 8]) (m a : UInt64) :
    (t.sum record m a).toNat = (m.toNat + a.toNat) % 2 ^ (8 * t.getLen record) := by
  have hbytes : 1 ≤ t.getLen record ∧ t.getLen record ≤ 8 := by
    generalize t.getLen record = len at hlen
    simp only [List.mem_cons, List.not_mem_nil, or_false] at hlen
    omega
  have hdvd : 2 ^ (8 * t.getLen record) ∣ 2 ^ 64 := Nat.pow_dvd_pow 2 (by omega)
  rw [sum, PlannerState.toNat_and_getmask hbytes.1 hbytes.2, UInt64.toNat_add,
    Nat.mod_mod_of_dvd _ hdvd]

theorem eq_sum (hlen : t.getLen record ∈ [1, 2, 4, 8]) {s : UInt64}
    (hs : s.toNat = (m.toNat + a.toNat) % 2 ^ (8 * t.getLen record)) : s = t.sum record m a := by
  apply UInt64.toNat_inj.mp
  rw [hs, toNat_sum hlen]

theorem added_sums (hadded : Added ρ (t.processAdd record)) :
    Added ρ (t.sums record (.var (t.newVar record))) := by
  apply hadded.of_subset
  intro c hc
  exact List.mem_append_left _ (List.mem_append_right _ hc)

theorem addinputvar_spec (h : t.RecordedAdd record)
    (hdep : t.getRevDependences record vcBaseIndex = some src)
    (hadded : Added ρ (t.processAdd record)) (hread : t.Encodes ρ record m)
    (hoperand : t.Encodes ρ src a) (hstored : val ∈ t.getSet record (t.info record).storeIndex)
    (hknown : t.Encodable src val) (halike : val = a ∨ t.TakenFor src val a)
    (hsum : t.sum record m val ∈ t.getValues (t.getStoreLoadSet record)) :
    t.Writes ρ record (t.sum record m val) ∧ ρ (t.newVar record) = false := by
  obtain ⟨srcenc, hsrcenc, -⟩ := EncodingTables.exists_encoding hknown
  obtain ⟨hsrcfree, hsrceval⟩ := hoperand.eval_encoding_iff hsrcenc
  obtain ⟨loadenc, hloadenc, hloadfree, hloadeval⟩ := hread.encoding
  obtain ⟨storeenc, hstoreenc, hstorefree, hwrites⟩ := exists_memValueEncoding h.event hsum
  have hmem : some (Constraint.implies (.and [srcenc, loadenc])
      (.and [(Constraint.var (t.newVar record)).negate, storeenc])) ∈
      t.sums record (.var (t.newVar record)) := by
    unfold sums
    rw [hdep]
    apply List.mem_flatMap.mpr
    refine ⟨val, hstored, List.mem_flatMap.mpr ⟨m, mem_of_encodes h.event hread, ?_⟩⟩
    rw [addinputvar, if_pos hsum, getRMWRValueEncoding_eq h.event, hsrcenc, hloadenc, hstoreenc]
    exact List.mem_cons_self
  have hsettled := (added_sums hadded).of_implies hmem (by simp [hsrcfree, hloadfree])
    (by simp [hstorefree]) (by simp [hloadeval, hsrceval.mpr halike])
  simp only [eval_and, List.all_cons, List.all_nil, eval_negate_var, Bool.and_true,
    Bool.and_eq_true, Bool.not_eq_true', hwrites] at hsettled
  exact ⟨hsettled.2, hsettled.1⟩

/-- The constraint for the value that is read and the constant settles their sum. -/
theorem addinputfix_spec (h : t.RecordedAdd record)
    (hdep : t.getRevDependences record vcBaseIndex = none)
    (hadded : Added ρ (t.processAdd record)) (hread : t.Encodes ρ record m)
    (hoperand : a ∈ t.getSet record vcBaseIndex)
    (hsum : t.sum record m a ∈ t.getValues (t.getStoreLoadSet record)) :
    t.Writes ρ record (t.sum record m a) ∧ ρ (t.newVar record) = false := by
  obtain ⟨val, hset⟩ := h.constant hdep
  obtain rfl : a = val := by simpa [hset] using hoperand
  obtain ⟨loadenc, hloadenc, hloadfree, hloadeval⟩ := hread.encoding
  obtain ⟨storeenc, hstoreenc, hstorefree, hwrites⟩ := exists_memValueEncoding h.event hsum
  have hmem : some (Constraint.implies loadenc
      (.and [storeenc, (Constraint.var (t.newVar record)).negate])) ∈
      t.sums record (.var (t.newVar record)) := by
    unfold sums
    rw [hdep, hset]
    apply List.mem_flatMap.mpr
    refine ⟨m, mem_of_encodes h.event hread, ?_⟩
    rw [addinputfix, if_pos hsum, getRMWRValueEncoding_eq h.event, hloadenc, hstoreenc]
    exact List.mem_cons_self
  have hsettled := (added_sums hadded).of_implies hmem hloadfree (by simp [hstorefree]) hloadeval
  simp only [eval_and, List.all_cons, List.all_nil, eval_negate_var, Bool.and_true,
    Bool.and_eq_true, Bool.not_eq_true', hwrites] at hsettled
  exact hsettled

/-! ## The new variable -/

theorem mem_addinputvar {var c : Constraint}
    (hc : some c ∈ t.addinputvar record src var val memval) :
    t.sum record memval val ∈ t.getValues (t.getStoreLoadSet record) ∧
    ∃ srcenc, t.getRetValueEncoding src val = some srcenc ∧
    ∃ loadenc, t.getRMWRValueEncoding record memval = some loadenc ∧
    ∃ storeenc, t.getMemValueEncoding record (t.sum record memval val) = some storeenc ∧
      c = .implies (.and [srcenc, loadenc]) (.and [var.negate, storeenc]) := by
  unfold addinputvar at hc
  split_ifs at hc with hsum
  · obtain ⟨l, hl, hc⟩ := Option.bind_eq_some_iff.mp (List.mem_singleton.mp hc).symm
    obtain ⟨r, hr, rfl⟩ := Option.map_eq_some_iff.mp hc
    obtain ⟨srcenc, hsrcenc, hl⟩ := Option.bind_eq_some_iff.mp hl
    obtain ⟨loadenc, hloadenc, rfl⟩ := Option.map_eq_some_iff.mp hl
    obtain ⟨notvar, hnotvar, hr⟩ := Option.bind_eq_some_iff.mp hr
    obtain ⟨storeenc, hstoreenc, rfl⟩ := Option.map_eq_some_iff.mp hr
    obtain rfl := Option.some.inj hnotvar
    exact ⟨hsum, srcenc, hsrcenc, loadenc, hloadenc, storeenc, hstoreenc, rfl⟩
  · simp at hc

/-- Without a value of the store set that is encoded like the operand, the new variable is free. -/
theorem added_newVar (h : t.RecordedAdd record)
    (hdep : t.getRevDependences record vcBaseIndex = some src)
    (hadded : Added ρ (t.processAdd record)) (hread : t.Encodes ρ record m)
    (hoperand : t.Encodes ρ src a)
    (hnone : ∀ val ∈ t.getSet record (t.info record).storeIndex,
      (val = a ∨ t.TakenFor src val a) →
        t.sum record m val ∉ t.getValues (t.getStoreLoadSet record)) :
    Added (Function.update ρ (t.newVar record) true) (t.processAdd record) := by
  set ρ' := Function.update ρ (t.newVar record) true with hupdate
  have hagree : ∀ v, decide (v < t.newVar record) = true → ρ v = ρ' v := by
    intro v hv
    rw [hupdate, Function.update_of_ne (by simpa using Nat.ne_of_lt (of_decide_eq_true hv))]
  have hrf : ∀ v ∈ t.rfVars record, decide (v < t.newVar record) = true := by
    intro v hv
    rw [decide_eq_true_eq, newVar]
    unfold rfVars at hv ⊢
    rw [List.mem_range'_1] at hv
    simpa using hv.2
  intro c hc
  rcases List.mem_append.mp hc with hc | hc
  · rcases List.mem_append.mp hc with hc | hc
    · have hrest : Added ρ (t.loadRF record) := hadded.of_subset fun d hd =>
        List.mem_append_left _ (List.mem_append_left _ hd)
      exact added_congr hrest (h.vars.loadRF hrf) hagree c hc
    · -- the left side of the constraint does not hold
      unfold sums at hc
      rw [hdep] at hc
      obtain ⟨val, hstored, hc⟩ := List.mem_flatMap.mp hc
      obtain ⟨memval, -, hc⟩ := List.mem_flatMap.mp hc
      obtain ⟨hsum, srcenc, hsrcenc, loadenc, hloadenc, storeenc, hstoreenc, rfl⟩ :=
        mem_addinputvar hc
      rw [getRMWRValueEncoding_eq h.event] at hloadenc
      obtain ⟨hsrcfree, hsrceval⟩ := hoperand.eval_encoding_iff hsrcenc
      obtain ⟨hloadfree, hloadeval⟩ := hread.eval_encoding_iff hloadenc
      obtain ⟨c, hc, hstorefree, -⟩ := exists_memValueEncoding h.event hsum
      obtain rfl : c = storeenc := Option.some.inj (hc.symm.trans hstoreenc)
      have hfree : (Constraint.and [srcenc, loadenc]).implicationFree = true := by
        simp [hsrcfree, hloadfree]
      have hvars := (h.vars.getRetValueEncoding src val).both
        (h.vars.getRetValueEncoding record memval) (.and [srcenc, loadenc])
        (by rw [hsrcenc, hloadenc]; rfl)
      rw [all_addConstraint_implies _ _ _ hfree (by simp [hstorefree]), eval_implies,
        ← eval_congr_vars hagree hfree hvars]
      have hfalse : eval ρ (.and [srcenc, loadenc]) = false := by
        by_contra hholds
        rw [Bool.not_eq_false, eval_and, List.all_cons, List.all_cons, List.all_nil,
          Bool.and_true, Bool.and_eq_true, hsrceval, hloadeval] at hholds
        obtain rfl := hholds.2.resolve_right (EncodingTables.not_takenFor (by simp [h.event]))
        exact hnone val hstored hholds.1 hsum
      rw [hfalse]
      rfl
  · have hrest : Added ρ (t.processAddresses record) := hadded.of_subset fun d hd =>
      List.mem_append_right _ hd
    exact added_congr hrest h.vars.processAddresses hagree c hc

/-- No operand of a sum is missing if the source of the operand encodes the store set. -/
theorem sums_ne_none (h : t.RecordedAdd record) (hknown : t.StoreSetEncoded record) :
    ∀ c ∈ t.sums record (.var (t.newVar record)), c ≠ none := by
  intro c hc
  unfold sums at hc
  have hload : ∀ memval ∈ t.getValues (t.getStoreLoadSet record),
      ∃ loadenc, t.getRMWRValueEncoding record memval = some loadenc := by
    intro memval hmemval
    obtain ⟨loadenc, hloadenc, -⟩ :=
      EncodingTables.eval_valueEncoding (t.rmwrValVars record) hmemval
    exact ⟨loadenc, hloadenc⟩
  cases hdep : t.getRevDependences record vcBaseIndex with
  | none =>
    obtain ⟨val, hset⟩ := h.constant hdep
    rw [hdep, hset] at hc
    obtain ⟨memval, hmemval, hc⟩ := List.mem_flatMap.mp hc
    obtain ⟨loadenc, hloadenc⟩ := hload memval hmemval
    unfold addinputfix at hc
    split_ifs at hc with hsum
    · obtain ⟨storeenc, hstoreenc, -⟩ := exists_memValueEncoding h.event hsum
      rw [hloadenc, hstoreenc] at hc
      rw [List.mem_singleton.mp hc]
      exact Option.some_ne_none _
    · simp at hc
  | some src =>
    rw [hdep] at hc
    obtain ⟨val, hval, hc⟩ := List.mem_flatMap.mp hc
    obtain ⟨memval, hmemval, hc⟩ := List.mem_flatMap.mp hc
    obtain ⟨loadenc, hloadenc⟩ := hload memval hmemval
    unfold addinputvar at hc
    split_ifs at hc with hsum
    · obtain ⟨srcenc, hsrcenc, -⟩ :=
        EncodingTables.exists_encoding (hknown src hdep val hval memval hmemval hsum)
      obtain ⟨storeenc, hstoreenc, -⟩ := exists_memValueEncoding h.event hsum
      rw [hsrcenc, hloadenc, hstoreenc] at hc
      rw [List.mem_singleton.mp hc]
      exact Option.some_ne_none _
    · simp at hc

/-- The source of the operand encodes the store set if no operand of a sum is missing. -/
theorem storeSetEncoded_of_ne_none
    (h : ∀ c ∈ t.sums record (.var (t.newVar record)), c ≠ none) : t.StoreSetEncoded record := by
  intro src hdep val hstored memval hmemval hsum
  by_contra hunknown
  apply h none _ rfl
  unfold sums
  rw [hdep]
  apply List.mem_flatMap.mpr
  refine ⟨val, hstored, List.mem_flatMap.mpr ⟨memval, hmemval, ?_⟩⟩
  rw [addinputvar, if_pos hsum, EncodingTables.getRetValueEncoding_eq_none hunknown]
  exact List.mem_cons_self

/-- A sum that is settled is one of the sums that the store set gives. -/
theorem storesOperand_of_addsUp (h : t.RecordedAdd record) (hadds : t.AddsUp record m a)
    (hread : t.Adds record m a)
    (hsum : t.sum record m a ∈ t.getValues (t.getStoreLoadSet record)) :
    t.StoresOperand record m a := by
  obtain ⟨hnone, hall⟩ := hadds
  obtain ⟨ρ, hadded, hread, hoperand⟩ := hread
  intro src hdep
  by_contra hno
  push Not at hno
  have hwrites := (hall ρ hadded hread hoperand _ (toNat_sum h.len m a) hsum).1
  by_cases hother : ∃ val ∈ t.getSet record (t.info record).storeIndex,
      (val = a ∨ t.TakenFor src val a) ∧
        t.sum record m val ∈ t.getValues (t.getStoreLoadSet record)
  · -- another sum is written
    obtain ⟨val, hval, halike, hvalsum⟩ := hother
    have hval' := storeSetEncoded_of_ne_none hnone src hdep val hval m
      (mem_of_encodes h.event hread) hvalsum
    have hspec := addinputvar_spec h hdep hadded hread (hoperand.2 src hdep) hval hval' halike
      hvalsum
    exact hno val hval halike (hspec.1.unique hwrites)
  · -- the new variable may be set
    push Not at hother
    have hset := added_newVar h hdep hadded hread (hoperand.2 src hdep) hother
    have hagree : ∀ v, decide (v < t.newVar record) = true →
        ρ v = Function.update ρ (t.newVar record) true v := by
      intro v hv
      rw [Function.update_of_ne (Nat.ne_of_lt (of_decide_eq_true hv))]
    have hread' := h.vars.encodes_congr hagree hread
    have hoperand' : t.OperandValue (Function.update ρ (t.newVar record) true) record 0 a :=
      ⟨hoperand.1, fun r hr => h.vars.encodes_congr hagree (hoperand.2 r hr)⟩
    have hfalse := (hall _ hset hread' hoperand' _ (toNat_sum h.len m a) hsum).2
    rw [Function.update_self] at hfalse
    contradiction

/-- `processAdd` settles a known sum if the store set, which it goes through, has the operand, and
only then for what some assignment reads. -/
theorem addsUp_iff {R : Type} {t : MemoryTables R} {record : R} (h : t.RecordedAdd record)
    (m a : UInt64) :
    (t.Summable record m a → t.AddsUp record m a) ∧
      (t.Adds record m a → t.AddsUp record m a → t.Summable record m a) := by
  constructor
  · rintro ⟨hknown, hstores⟩
    refine ⟨sums_ne_none h hknown, ?_⟩
    intro ρ hadded hread hoperand s hs hmem
    obtain rfl := eq_sum h.len hs
    cases hdep : t.getRevDependences record vcBaseIndex with
    | none => exact addinputfix_spec h hdep hadded hread hoperand.1 hmem
    | some src =>
      obtain ⟨val, hval, halike, hsame⟩ := hstores hmem src hdep
      rw [← hsame] at hmem ⊢
      have hval' := hknown src hdep val hval m (mem_of_encodes h.event hread) hmem
      exact addinputvar_spec h hdep hadded hread (hoperand.2 src hdep) hval hval' halike hmem
  · intro hread hadds
    exact ⟨storeSetEncoded_of_ne_none hadds.1, storesOperand_of_addsUp h hadds hread⟩

open scoped FewRecords

theorem addrVars_addOfFunction (_ : Fin 3) :
    ([] : List Nat).length = numBits ([16] : List UInt64).length := rfl

theorem rmwrValVars_addOfFunction (_ : Fin 3) :
    [3].length = numBits ([1, 3] : List UInt64).length := rfl

/-- Record 0 stores 1, record 1 is a function that returns 2 and record 2 adds 2 to the word, as a
constant or from the function; its store set has 3. -/
def addOfFunction (dependent : Bool) : MemoryTables (Fin 3) where
  info r := ⟨if r = 0 then .store else if r = 1 then .function else .rmw, 0, .add, false, 0⟩
  getSet r i :=
    if r = 0 then []
    else if r = 1 then if i = vcFuncoutIndex then [2] else []
    else if i = vcAddrIndex then [16] else if i = vcBaseIndex then [2]
    else if i = vcRmwoutIndex then [3] else []
  getRevDependences r i := if dependent ∧ r = 2 ∧ i = vcBaseIndex then some 1 else none
  equalstable _ := 0
  functiontable r := if r = 1 then [2] else []
  getStoreLoadSet _ := 0
  getValues _ := [1, 3]
  getValVars r := if r = 2 then [4] else [1]
  getRMWRValVars _ := [3]
  varindex := 5
  functionVars r := by
    by_cases h : r = 0
    · simp [h, numBits]
    · by_cases h' : r = 1 <;> simp [h, h', numBits]
  valVars r := by by_cases h : r = 2 <;> simp [h, numBits]
  rmwrValVars := rmwrValVars_addOfFunction
  valuevector _ := []
  getLen _ := 8
  getBranchAnyValue _ := false
  branch _ := none
  execcondtable _ := []
  branchtable _ := []
  inserted r hbranch := by
    by_cases h : r = 0
    · simp [h] at hbranch
    · by_cases h' : r = 1 <;> simp [h, h'] at hbranch
  getMayReadFromSet _ := [0]
  computeConflictSet _ _ := some [0]
  getOrderConstraint first second := if first < second then .ctrue else .cfalse
  getAddresses _ := [16]
  getAddrVars _ := []
  getAddr _ := 16
  addrVars := addrVars_addOfFunction

theorem recordedAdd_addOfFunction (dependent : Bool) :
    (addOfFunction dependent).RecordedAdd 2 where
  event := rfl
  op := rfl
  len := by decide +revert
  constant _ := ⟨2, rfl⟩
  vars :=
    { equals := fun _ => rfl
      functions := by decide +revert
      values := by decide +revert
      reads := by decide +revert
      branches := by decide +revert
      addresses := by decide +revert
      order := by decide +revert }

private theorem adds_addOfFunction : (addOfFunction false).Adds 2 1 2 := by
  refine ⟨fun v => v = 4, added_of_all (by decide), ⟨by decide, by decide⟩, by decide, ?_⟩
  intro src hsrc
  simp [addOfFunction] at hsrc

/-- A constant operand is added to the 1 that is read. -/
theorem addsUp_addOfFunction :
    (addOfFunction false).Adds 2 1 2 ∧ (addOfFunction false).AddsUp 2 1 2 := by
  refine ⟨adds_addOfFunction, (addsUp_iff (recordedAdd_addOfFunction false) 1 2).1 ⟨?_, ?_⟩⟩
  · intro src hdep
    simp [addOfFunction] at hdep
  · intro _ src hdep
    simp [addOfFunction] at hdep

/-- The word holds 1 and the function returns 2, but the store set has 3 only: with all variables
false, the sum 3 is known and 1 is written. -/
theorem not_addsUp : ¬ ∀ (R : Type) (t : MemoryTables R) (record : R) (m a : UInt64),
    t.RecordedAdd record → t.AddsUp record m a := by
  intro hclaim
  have hadds := hclaim _ _ _ 1 2 (recordedAdd_addOfFunction true)
  have hadded : Added (fun _ => false) ((addOfFunction true).processAdd 2) :=
    added_of_all (by decide)
  have hread : (addOfFunction true).Encodes (fun _ => false) 2 1 := ⟨by decide, by decide⟩
  have hoperand : (addOfFunction true).OperandValue (fun _ => false) 2 0 2 := by
    refine ⟨by decide, fun src hsrc => ?_⟩
    obtain rfl : 1 = src := Option.some.inj hsrc
    exact ⟨by decide, by decide⟩
  have hwrites := (hadds.2 _ hadded hread hoperand 3 (by decide) (by decide)).1
  exact absurd hwrites.2 (by decide)

end MemoryTables

end SatCheck
