import SatCheck.TableVars
import SatCheck.TransOrder
import SatCheck.ConflictSet
import SatCheck.MayReadFrom
/-!
# What a load reads

The read-from variables of a load or an RMW pick a store of its may-read-from set.  In every total
order of the memory actions the constraints of `LoadRF` can be met exactly if the load is not
executed or reads what the latest store to its address has written.
-/

namespace SatCheck

open Constraint

/-- The memory tables with the recorded sets, the graph and the order table that `LoadRF` reads
them off.  `grouped` is what `groupMemoryOperations` leaves: the addresses of a record lead to its
set. -/
structure ReadTables extends MemoryTables ExecPoint where
  planner : PlannerState ExecPoint
  conflicts : ConstGen
  links : ThreadLinks
  visits : List OrderTable.Visit
  storeloadtable : UInt64 → Option Nat
  reachable : PlannerReachable info planner
  sets : getSet = planner.sets
  addresses : ∀ r, conflicts.getSet r = planner.sets r vcAddrIndex
  traversed : conflicts.order = .traverse links visits
  orderConstraint : ∀ first second,
    getOrderConstraint first second = conflicts.order.getOrderConstraint first second
  exits : ∀ r, execcondtable r = conflicts.traversal.exits r
  branches : ∀ r, branch r =
    (conflicts.graph.getBranch r).map fun branch => (branch.record, .ofNat branch.value)
  mayReadFrom : ∀ load, getMayReadFromSet load =
    (planner.getMayReadFromSet toBranchTables.isAlwaysExecuted load).getD []
  conflictSet : ∀ store load, computeConflictSet store load =
    conflicts.computeConflictSet store load (getMayReadFromSet load)
  known : ∀ r branchval, branch r = some branchval → branchval.2 ∈ valuevector branchval.1
  exited : ∀ r, ∀ rec ∈ execcondtable r, (branch rec).isSome = true
  grouped : ∀ r, ∀ addr ∈ planner.sets r vcAddrIndex,
    storeloadtable addr = some (getStoreLoadSet r)
  taken : toMemoryTables.TableVars fun v => v < varindex

namespace ReadTables

variable (t : ReadTables)

def Executed (ρ : Nat → Bool) (record : ExecPoint) : Prop :=
  ∃ e, t.getExecutionConstraint record = some e ∧ eval ρ e = true

structure IsMemory (record : ExecPoint) : Prop where
  kind : (t.info record).isLoad ∨ (t.info record).isStore
  recorded : t.planner.sets record vcAddrIndex ≠ []

def HasAddress (ρ : Nat → Bool) (record : ExecPoint) (addr : UInt64) : Prop :=
  addr ∈ t.getAddresses (t.getStoreLoadSet record) ∧
    code ρ (t.getAddrVars record) = (t.getAddresses (t.getStoreLoadSet record)).idxOf addr

variable {ι : Type*} [LinearOrder ι]

/-- The assignment orders the memory actions by their places, and every action has one of its
recorded addresses and what it reads and writes. -/
structure Chosen (ρ : Nat → Bool) (place : ExecPoint → ι)
    (addrOf readOf writeOf : ExecPoint → UInt64) : Prop where
  order : ∀ a b, t.IsMemory a → t.IsMemory b → a ≠ b →
    (eval ρ (t.getOrderConstraint a b) = true ↔ place a < place b)
  strict : ∀ a b, t.IsMemory a → t.IsMemory b → place a = place b → a = b
  recorded : ∀ r, t.IsMemory r → addrOf r ∈ t.planner.sets r vcAddrIndex
  address : ∀ r, t.IsMemory r → t.HasAddress ρ r (addrOf r)
  written : ∀ r, t.IsMemory r → (t.info r).isStore → t.Writes ρ r (writeOf r)
  read : ∀ r, t.IsMemory r → (t.info r).isLoad → t.Encodes ρ r (readOf r)

/-- An executed store to the address of the load that precedes it. -/
structure StoresBefore (ρ : Nat → Bool) (place : ExecPoint → ι) (addrOf : ExecPoint → UInt64)
    (load store : ExecPoint) : Prop where
  memory : t.IsMemory store
  isStore : (t.info store).isStore
  executed : t.Executed ρ store
  address : addrOf store = addrOf load
  before : place store < place load

/-- The latest of the executed stores to the address of the load that precede it. -/
structure LatestStore (ρ : Nat → Bool) (place : ExecPoint → ι) (addrOf : ExecPoint → UInt64)
    (load store : ExecPoint) : Prop where
  stores : t.StoresBefore ρ place addrOf load store
  latest : ∀ other, t.StoresBefore ρ place addrOf load other → place other ≤ place store

/-- The answers of `subsumesExecutionConstraint` are right. -/
def SubsumptionSound (ρ : Nat → Bool) : Prop :=
  ∀ k c, t.conflicts.subsumesExecutionConstraint k c = true → t.Executed ρ c → t.Executed ρ k

variable {t} {ρ ρ' : Nat → Bool} {record load store conflict : ExecPoint} {place : ExecPoint → ι}
  {addrOf readOf writeOf : ExecPoint → UInt64} {rfconst : Constraint}

/-! ## Execution constraints -/

private theorem exists_mapM_id {array : List (Option Constraint)} (h : ∀ c ∈ array, c ≠ none) :
    ∃ cs, array.mapM id = some cs := by
  induction array with
  | nil => exact ⟨[], rfl⟩
  | cons c array ih =>
    rw [List.forall_mem_cons] at h
    obtain ⟨d, rfl⟩ := Option.ne_none_iff_exists'.mp h.1
    obtain ⟨cs, hcs⟩ := ih h.2
    exact ⟨d :: cs, by simp [List.mapM_cons, hcs]⟩

theorem exists_getExecutionConstraint (t : ReadTables) (record : ExecPoint) :
    ∃ e, t.getExecutionConstraint record = some e ∧ e.implicationFree = true := by
  have hbranch : ∀ r branchval, t.branch r = some branchval →
      ∃ c, t.getBranch branchval = some c := by
    intro r branchval hr
    exact ⟨_, if_pos (t.known r branchval hr)⟩
  have hconditions : ∀ c ∈ t.conditions record, c ≠ none := by
    intro c hc
    rcases List.mem_append.mp hc with hc | hc
    · obtain ⟨rec, hrec, rfl⟩ := List.mem_map.mp hc
      obtain ⟨branchval, hr⟩ := Option.isSome_iff_exists.mp (t.exited record rec hrec)
      obtain ⟨c, hc⟩ := hbranch rec branchval hr
      simp [hr, hc]
    · obtain ⟨branchval, hr, rfl⟩ := List.mem_map.mp hc
      obtain ⟨c, hc⟩ := hbranch record branchval (Option.mem_toList.mp hr)
      simp [hc]
  obtain ⟨array, harray⟩ := exists_mapM_id hconditions
  have hsome : (t.getExecutionConstraint record).isSome = true := by
    unfold BranchTables.getExecutionConstraint
    rw [harray]
    rfl
  obtain ⟨e, he⟩ := Option.isSome_iff_exists.mp hsome
  exact ⟨e, he, BranchTables.implicationFree_getExecutionConstraint he⟩

theorem executed_iff {e : Constraint} (he : t.getExecutionConstraint record = some e) :
    t.Executed ρ record ↔ eval ρ e = true := by
  unfold Executed
  simp [he]

theorem executed_of_isAlwaysExecuted (h : t.isAlwaysExecuted record = true) :
    t.Executed ρ record := by
  unfold BranchTables.isAlwaysExecuted at h
  rw [Bool.and_eq_true, List.isEmpty_iff, Option.isNone_iff_eq_none] at h
  refine ⟨.ctrue, ?_, rfl⟩
  unfold BranchTables.getExecutionConstraint BranchTables.conditions
  rw [h.1, h.2]
  rfl

theorem implicationFree_getOrderConstraint (t : ReadTables) (first second : ExecPoint) :
    (t.getOrderConstraint first second).implicationFree = true := by
  rw [t.orderConstraint, t.traversed]
  exact (OrderTable.wellFormed_traverse t.links t.visits).rptOk.implicationFree first second

/-! ## The constraints for one store -/

theorem storeaddressmatch_eq {e : Constraint} (he : t.getExecutionConstraint store = some e) :
    t.storeaddressmatch load store rfconst = some (.implies rfconst (.and
      [t.getOrderConstraint store load,
        generateEquivConstraint (t.readVars load) (t.getValVars store), e,
        generateEquivConstraint (t.getAddrVars load) (t.getAddrVars store)])) := by
  unfold MemoryTables.storeaddressmatch MemoryTables.conj
  simp [he, List.mapM_cons, EncodingTables.imply_some]

theorem confstore_eq {e : Constraint} (he : t.getExecutionConstraint conflict = some e) :
    t.confstore load store conflict rfconst =
      if (t.getOrderConstraint store conflict).isFalse = true ∨
        (t.getOrderConstraint conflict load).isFalse = true then []
      else [some (.implies (.and [t.getOrderConstraint store conflict,
          t.getOrderConstraint conflict load, rfconst, e])
        (generateEquivConstraint (t.getAddrVars load) (t.getAddrVars conflict)).negate)] := by
  unfold MemoryTables.confstore MemoryTables.conj
  simp [he, List.mapM_cons, EncodingTables.imply_some]

theorem loadRF_ne_none (t : ReadTables) (load : ExecPoint) : ∀ c ∈ t.loadRF load, c ≠ none := by
  intro c hc
  rcases List.mem_append.mp hc with hc | hc
  · obtain ⟨⟨store, storeindex⟩, -, hc⟩ := List.mem_flatMap.mp hc
    rcases List.mem_cons.mp hc with rfl | hc
    · obtain ⟨e, he, -⟩ := t.exists_getExecutionConstraint store
      rw [storeaddressmatch_eq he]
      exact Option.some_ne_none _
    · obtain ⟨conflict, -, hc⟩ := List.mem_flatMap.mp hc
      obtain ⟨e, he, -⟩ := t.exists_getExecutionConstraint conflict
      rw [confstore_eq he] at hc
      split_ifs at hc
      · simp at hc
      · rw [List.mem_singleton.mp hc]
        exact Option.some_ne_none _
  · obtain ⟨e, he, -⟩ := t.exists_getExecutionConstraint load
    rw [List.mem_singleton.mp hc, he, EncodingTables.imply_some]
    exact Option.some_ne_none _

/-- A load that reads from a store reads its value at its address, after its execution. -/
theorem added_storeaddressmatch_iff (hrf : rfconst.implicationFree = true)
    (hset : t.getStoreLoadSet store = t.getStoreLoadSet load) :
    Added ρ [t.storeaddressmatch load store rfconst] ↔ (eval ρ rfconst = true →
      eval ρ (t.getOrderConstraint store load) = true ∧
      code ρ (t.readVars load) = code ρ (t.getValVars store) ∧ t.Executed ρ store ∧
      code ρ (t.getAddrVars load) = code ρ (t.getAddrVars store)) := by
  obtain ⟨e, he, hefree⟩ := t.exists_getExecutionConstraint store
  have hvals : (t.readVars load).length = (t.getValVars store).length := by
    rw [t.valVars, hset]
    unfold EncodingTables.readVars
    split_ifs
    · exact t.rmwrValVars load
    · exact t.valVars load
  have haddrs : (t.getAddrVars load).length = (t.getAddrVars store).length := by
    rw [t.addrVars, t.addrVars, hset]
  rw [storeaddressmatch_eq he, added_implies_iff hrf]
  · simp only [eval_and, List.all_cons, List.all_nil, Bool.and_true, Bool.and_eq_true,
      eval_generateEquivConstraint hvals, eval_generateEquivConstraint haddrs, executed_iff he]
  · simp [implicationFree_getOrderConstraint, implicationFree_generateEquivConstraint, hefree]

theorem added_confstore_iff (hrf : rfconst.implicationFree = true)
    (hset : t.getStoreLoadSet conflict = t.getStoreLoadSet load) :
    Added ρ (t.confstore load store conflict rfconst) ↔
      (eval ρ (t.getOrderConstraint store conflict) = true →
        eval ρ (t.getOrderConstraint conflict load) = true → eval ρ rfconst = true →
        t.Executed ρ conflict → code ρ (t.getAddrVars load) ≠ code ρ (t.getAddrVars conflict)) := by
  obtain ⟨e, he, hefree⟩ := t.exists_getExecutionConstraint conflict
  have haddrs : (t.getAddrVars load).length = (t.getAddrVars conflict).length := by
    rw [t.addrVars, t.addrVars, hset]
  have hequivfree := implicationFree_generateEquivConstraint (t.getAddrVars load)
    (t.getAddrVars conflict)
  rw [confstore_eq he]
  split_ifs with hfalse
  · have hnot : ¬ (eval ρ (t.getOrderConstraint store conflict) = true ∧
        eval ρ (t.getOrderConstraint conflict load) = true) := by
      rintro ⟨hfirst, hsecond⟩
      rcases hfalse with hfalse | hfalse
      · rw [eq_cfalse_of_isFalse hfalse] at hfirst
        exact absurd hfirst (by simp)
      · rw [eq_cfalse_of_isFalse hfalse] at hsecond
        exact absurd hsecond (by simp)
    exact iff_of_true (by simp [Added]) fun hfirst hsecond => absurd ⟨hfirst, hsecond⟩ hnot
  · rw [added_implies_iff _ (implicationFree_negate _ hequivfree)]
    · simp only [eval_and, List.all_cons, List.all_nil, Bool.and_true, Bool.and_eq_true,
        eval_negate ρ _ hequivfree, Bool.not_eq_true', ← Bool.not_eq_true,
        eval_generateEquivConstraint haddrs, executed_iff he, and_imp, ne_eq]
    · simp [implicationFree_getOrderConstraint, hrf, hefree]

/-! ## The stores of the set -/

theorem exists_addr_of_mem (h : store ∈ t.getMayReadFromSet load) :
    ∃ addr ∈ t.planner.sets load vcAddrIndex, store ∈ t.planner.storetable addr := by
  rw [t.mayReadFrom] at h
  cases hsrs : t.planner.getMayReadFromSet t.isAlwaysExecuted load with
  | none => simp [hsrs] at h
  | some srs =>
    rw [hsrs, Option.getD_some] at h
    exact PlannerState.exists_of_mem_getMayReadFromSet hsrs h

theorem isMemory_of_storetable {addr : UInt64} (h : store ∈ t.planner.storetable addr) :
    t.IsMemory store ∧ (t.info store).isStore ∧ addr ∈ t.planner.sets store vcAddrIndex := by
  obtain ⟨hstore, haddr⟩ := t.reachable.addressed.storetable addr store h
  exact ⟨⟨.inr hstore, List.ne_nil_of_mem haddr⟩, hstore, haddr⟩

/-- The set of a load has stores that share an address with it, and so its values and addresses. -/
theorem of_mem_getMayReadFromSet (h : store ∈ t.getMayReadFromSet load) :
    t.IsMemory store ∧ (t.info store).isStore ∧
      t.getStoreLoadSet store = t.getStoreLoadSet load := by
  obtain ⟨addr, hload, hentry⟩ := exists_addr_of_mem h
  obtain ⟨hmemory, hstore, haddr⟩ := isMemory_of_storetable hentry
  refine ⟨hmemory, hstore, ?_⟩
  apply Option.some.inj
  rw [← t.grouped store addr haddr, ← t.grouped load addr hload]

theorem mem_of_computeConflictSet
    (h : conflict ∈ (t.computeConflictSet store load).getD (t.getMayReadFromSet load)) :
    conflict ∈ t.getMayReadFromSet load := by
  rw [t.conflictSet] at h
  unfold ConstGen.computeConflictSet at h
  split at h
  · exact Pruning.loop_subset _ _ _ h
  · exact h

namespace Chosen

variable (h : t.Chosen ρ place addrOf readOf writeOf)

include h

theorem eval_order_iff {a b : ExecPoint} (ha : t.IsMemory a) (hb : t.IsMemory b) :
    eval ρ (t.getOrderConstraint a b) = true ↔ place a < place b := by
  by_cases hab : a = b
  · subst hab
    rw [t.orderConstraint, OrderTable.getOrderConstraint, if_pos rfl, if_neg (by simp)]
    simp
  · exact h.order a b ha hb hab

theorem compare_iff {a b : ExecPoint} (ha : t.IsMemory a) (hb : t.IsMemory b)
    (htid : a.tid = b.tid) : a.compare b = .after ↔ place a < place b := by
  rw [← h.eval_order_iff ha hb, t.orderConstraint, OrderTable.getOrderConstraint, if_pos htid]
  split_ifs with hafter <;> simp [hafter]

theorem lt_of_isBefore {a b : ExecPoint} (ha : t.IsMemory a) (hb : t.IsMemory b)
    (hbefore : t.conflicts.isBefore a b = true) : place a < place b := by
  rw [← h.eval_order_iff ha hb, t.orderConstraint]
  unfold ConstGen.isBefore at hbefore
  rw [eq_ctrue_of_isTrue hbefore]
  rfl

theorem code_addr_iff {a b : ExecPoint} (ha : t.IsMemory a) (hb : t.IsMemory b)
    (hset : t.getStoreLoadSet b = t.getStoreLoadSet a) :
    code ρ (t.getAddrVars a) = code ρ (t.getAddrVars b) ↔ addrOf b = addrOf a := by
  obtain ⟨hmem, hcode⟩ := h.address a ha
  obtain ⟨hmem', hcode'⟩ := h.address b hb
  rw [hset] at hmem' hcode'
  rw [hcode, hcode', List.idxOf_inj hmem, eq_comm]

theorem code_value_iff (hload : t.IsMemory load) (hisLoad : (t.info load).isLoad)
    (hstore : t.IsMemory store) (hisStore : (t.info store).isStore)
    (hset : t.getStoreLoadSet store = t.getStoreLoadSet load) :
    code ρ (t.readVars load) = code ρ (t.getValVars store) ↔ writeOf store = readOf load := by
  obtain ⟨hmem, hcode⟩ := h.written store hstore hisStore
  have hread : readOf load ∈ t.getValues (t.getStoreLoadSet load) ∧
      code ρ (t.readVars load) =
        (t.getValues (t.getStoreLoadSet load)).idxOf (readOf load) := by
    have hencodes := h.read load hload hisLoad
    unfold EncodingTables.Encodes at hencodes
    rcases hisLoad with hevent | hevent <;> simpa only [hevent] using hencodes
  rw [hset] at hcode
  rw [hcode, hread.2, List.idxOf_inj hread.1, eq_comm]

/-- The pruned conflict set has a conflicting store if the may-read-from set has one. -/
theorem forall_not_conflicts_iff (hsound : t.SubsumptionSound ρ) (hload : t.IsMemory load)
    (hstore : store ∈ t.getMayReadFromSet load) (haddr : addrOf store = addrOf load) :
    (∀ conflict ∈ (t.computeConflictSet store load).getD (t.getMayReadFromSet load),
      ¬ ConstGen.Conflicts (t.Executed ρ) place addrOf store load conflict) ↔
    ∀ conflict ∈ t.getMayReadFromSet load,
      ¬ ConstGen.Conflicts (t.Executed ρ) place addrOf store load conflict := by
  cases hset : t.computeConflictSet store load with
  | none => rfl
  | some srs =>
    rw [Option.getD_some]
    have hmemory : ∀ r ∈ store :: load :: t.getMayReadFromSet load, t.IsMemory r := by
      rw [List.forall_mem_cons, List.forall_mem_cons]
      exact ⟨(of_mem_getMayReadFromSet hstore).1, hload,
        fun r hr => (of_mem_getMayReadFromSet hr).1⟩
    have hrespects : t.conflicts.Respects (t.Executed ρ) place addrOf
        (store :: load :: t.getMayReadFromSet load) := by
      constructor
      · exact fun a ha b hb => h.lt_of_isBefore (hmemory a ha) (hmemory b hb)
      · exact fun k _ c _ => hsound k c
      · intro r hr
        rw [t.addresses]
        exact h.recorded r (hmemory r hr)
    rw [t.conflictSet] at hset
    have hiff := ConstGen.exists_conflicts_iff hset hrespects haddr
    rw [← not_iff_not] at hiff
    push Not at hiff
    exact hiff.symm

/-! ## The constraints of a load -/

/-- The constraints for one store of the set, which the load reads from if its read-from variables
hold the index of the store. -/
theorem added_store_iff (hsound : t.SubsumptionSound ρ) (hload : t.IsMemory load)
    (hisLoad : (t.info load).isLoad) (hstore : store ∈ t.getMayReadFromSet load) {reads : Prop}
    (hrf : rfconst.implicationFree = true) (hreads : eval ρ rfconst = true ↔ reads) :
    Added ρ (t.storeaddressmatch load store rfconst ::
      ((t.computeConflictSet store load).getD (t.getMayReadFromSet load)).flatMap
        fun conflictstore => t.confstore load store conflictstore rfconst) ↔
    (reads → t.StoresBefore ρ place addrOf load store ∧ writeOf store = readOf load ∧
      ∀ conflict ∈ t.getMayReadFromSet load,
        ¬ ConstGen.Conflicts (t.Executed ρ) place addrOf store load conflict) := by
  obtain ⟨hmemory, hisStore, hset⟩ := of_mem_getMayReadFromSet hstore
  rw [added_cons_iff, added_storeaddressmatch_iff hrf hset, added_flatMap_iff, hreads,
    h.eval_order_iff hmemory hload, h.code_value_iff hload hisLoad hmemory hisStore hset,
    h.code_addr_iff hload hmemory hset]
  have hconfstore : ∀ conflict ∈ t.getMayReadFromSet load,
      (Added ρ (t.confstore load store conflict rfconst) ↔ (place store < place conflict →
        place conflict < place load → reads → t.Executed ρ conflict →
          addrOf conflict ≠ addrOf load)) := by
    intro conflict hconflict
    obtain ⟨hconfmemory, -, hconfset⟩ := of_mem_getMayReadFromSet hconflict
    rw [added_confstore_iff hrf hconfset, hreads, h.eval_order_iff hmemory hconfmemory,
      h.eval_order_iff hconfmemory hload, ne_eq, h.code_addr_iff hload hconfmemory hconfset]
  constructor
  · rintro ⟨hmatch, hconf⟩ hholds
    obtain ⟨hbefore, hvalue, hexecuted, haddr⟩ := hmatch hholds
    refine ⟨⟨hmemory, hisStore, hexecuted, haddr, hbefore⟩, hvalue, ?_⟩
    apply (h.forall_not_conflicts_iff hsound hload hstore haddr).mp
    intro conflict hmem hconflict
    have hmem' := mem_of_computeConflictSet hmem
    exact (hconfstore conflict hmem').mp (hconf conflict hmem) hconflict.behind hconflict.before
      hholds hconflict.executed (hconflict.address.trans haddr)
  · intro hall
    constructor
    · intro hholds
      obtain ⟨hbefore, hvalue, -⟩ := hall hholds
      exact ⟨hbefore.before, hvalue, hbefore.executed, hbefore.address⟩
    · intro conflict hmem
      have hmem' := mem_of_computeConflictSet hmem
      apply (hconfstore conflict hmem').mpr
      intro hbehind hbefore hholds hexecuted haddr
      obtain ⟨hstores, -, hnone⟩ := hall hholds
      exact hnone conflict hmem' ⟨hexecuted, haddr.trans hstores.address.symm, hbehind, hbefore⟩

/-- The read-from variables hold the index of a store that the load can read from. -/
theorem added_loadRF_iff (hsound : t.SubsumptionSound ρ) (hload : t.IsMemory load)
    (hisLoad : (t.info load).isLoad) (hne : t.getMayReadFromSet load ≠ []) :
    Added ρ (t.loadRF load) ↔
      (t.Executed ρ load → code ρ (t.rfVars load) < (t.getMayReadFromSet load).length) ∧
      ∀ store, (t.getMayReadFromSet load)[code ρ (t.rfVars load)]? = some store →
        t.StoresBefore ρ place addrOf load store ∧ writeOf store = readOf load ∧
          ∀ conflict ∈ t.getMayReadFromSet load,
            ¬ ConstGen.Conflicts (t.Executed ρ) place addrOf store load conflict := by
  have hpos := List.length_pos_iff.mpr hne
  have hsize := Nat.lt_size_self (t.getMayReadFromSet load).length
  have hlen : (t.rfVars load).length = (t.getMayReadFromSet load).length.size :=
    List.length_range'
  have hvars : ¬ (t.rfVars load).length = 0 := by
    rw [hlen, Nat.size_eq_zero]
    omega
  obtain ⟨e, he, hefree⟩ := t.exists_getExecutionConstraint load
  unfold MemoryTables.loadRF
  rw [added_append_iff, added_flatMap_iff, and_comm]
  apply and_congr
  · rw [he, EncodingTables.imply_some, added_implies_iff hefree
      (implicationFree_generateLTConstraint _ _), executed_iff he,
      eval_generateLTConstraint ρ hpos (by rw [hlen]; exact hsize.le)]
  · have hstore : ∀ store i, (t.getMayReadFromSet load)[i]? = some store →
        (Added ρ (t.storeaddressmatch load store (if (t.rfVars load).length = 0 then .ctrue
            else generateConstraint (t.rfVars load) i) ::
          ((t.computeConflictSet store load).getD (t.getMayReadFromSet load)).flatMap
            fun conflictstore => t.confstore load store conflictstore
              (generateConstraint (t.rfVars load) i)) ↔
        (code ρ (t.rfVars load) = i → t.StoresBefore ρ place addrOf load store ∧
          writeOf store = readOf load ∧ ∀ conflict ∈ t.getMayReadFromSet load,
            ¬ ConstGen.Conflicts (t.Executed ρ) place addrOf store load conflict)) := by
      intro store i hi
      have hlt := (List.getElem?_eq_some_iff.mp hi).1
      rw [if_neg hvars]
      apply h.added_store_iff hsound hload hisLoad (List.mem_of_getElem? hi)
        (implicationFree_generateConstraint _ _)
      exact eval_generateConstraint (by rw [hlen]; omega)
    constructor
    · intro hall store hi
      exact (hstore store _ hi).mp (hall (store, _) (List.mem_zipIdx_iff_getElem?.mpr hi)) rfl
    · rintro hall ⟨store, i⟩ hmem
      have hi : (t.getMayReadFromSet load)[i]? = some store := List.mem_zipIdx_iff_getElem?.mp hmem
      apply (hstore store i hi).mpr
      rintro rfl
      exact hall store hi

/-! ## The latest store -/

/-- A store before the load is in the set, or one of the thread of the load covers it. -/
theorem exists_mem (hload : t.IsMemory load) (hne : t.getMayReadFromSet load ≠ [])
    (hstore : t.StoresBefore ρ place addrOf load store) :
    ∃ kept ∈ t.getMayReadFromSet load, t.StoresBefore ρ place addrOf load kept ∧
      place store ≤ place kept := by
  have hentry : store ∈ t.planner.storetable (addrOf load) := by
    apply t.reachable.consistent.stores store hstore.isStore
    rw [← hstore.address]
    exact h.recorded store hstore.memory
  have hbefore : store.tid = load.tid → store.compare load = .after :=
    fun htid => (h.compare_iff hstore.memory hload htid).mpr hstore.before
  have haddress := h.recorded load hload
  rw [t.mayReadFrom] at hne ⊢
  cases hset : t.planner.getMayReadFromSet t.isAlwaysExecuted load with
  | none => simp [hset] at hne
  | some srs =>
    rw [Option.getD_some]
    unfold PlannerState.getMayReadFromSet at hset
    split_ifs at hset with hsingle
    · obtain ⟨addr, haddr⟩ := List.length_eq_one_iff.mp hsingle
      obtain rfl : addrOf load = addr := by simpa [haddr] using haddress
      have hmem : ∀ r, r ∈ srs ↔ r ∈ t.planner.storetable (addrOf load) ∧
          (r.tid = load.tid → r.compare load = .after ∧ ∀ ep, t.planner.latestStore
            t.isAlwaysExecuted load (t.planner.storetable (addrOf load)) = some ep →
              r.compare ep ≠ .after) :=
        fun r => PlannerState.mem_getMayReadFromSetOpt haddr hset
      by_cases hkept : store ∈ srs
      · exact ⟨store, hkept, hstore, le_rfl⟩
      · -- the latest store of the thread that is always executed is behind it
        obtain ⟨htid, ep, hep, hafter⟩ : store.tid = load.tid ∧ ∃ ep, t.planner.latestStore
            t.isAlwaysExecuted load (t.planner.storetable (addrOf load)) = some ep ∧
              store.compare ep = .after := by
          rw [hmem] at hkept
          push Not at hkept
          obtain ⟨htid, hlatest⟩ := hkept hentry
          exact ⟨htid, hlatest (hbefore htid)⟩
        obtain ⟨heptable, hcovers⟩ := PlannerState.latestStore_spec hep
        obtain ⟨hepmemory, hepstore, hepaddr⟩ := isMemory_of_storetable heptable
        refine ⟨ep, (hmem ep).mpr ⟨heptable, fun _ => ⟨hcovers.before, ?_⟩⟩, ⟨hepmemory, hepstore,
          executed_of_isAlwaysExecuted hcovers.always, ?_, ?_⟩, ?_⟩
        · intro ep' hep'
          obtain rfl := Option.some.inj (hep.symm.trans hep')
          simp
        · obtain ⟨addr, hown⟩ := List.length_eq_one_iff.mp hcovers.single
          have hrecorded := h.recorded ep hepmemory
          rw [hown, List.mem_singleton] at hepaddr hrecorded
          rw [hrecorded, hepaddr]
        · exact (h.compare_iff hepmemory hload hcovers.tid).mp hcovers.before
        · exact ((h.compare_iff hstore.memory hepmemory (htid.trans hcovers.tid.symm)).mp
            hafter).le
    · obtain rfl := Option.some.inj hset
      refine ⟨store, ?_, hstore, le_rfl⟩
      apply PlannerState.mem_mayReadFromLoop_iff.mpr
      refine ⟨addrOf load, haddress, hentry, ?_⟩
      by_cases htid : store.tid = load.tid
      · exact .inr (hbefore htid)
      · exact .inl htid

theorem latestStore_mem (hload : t.IsMemory load) (hne : t.getMayReadFromSet load ≠ [])
    (hlatest : t.LatestStore ρ place addrOf load store) : store ∈ t.getMayReadFromSet load := by
  obtain ⟨kept, hkept, hbefore, hle⟩ := h.exists_mem hload hne hlatest.stores
  have heq := le_antisymm hle (hlatest.latest kept hbefore)
  rwa [h.strict store kept hlatest.stores.memory hbefore.memory heq]

/-- A store is the latest one if no store of the set conflicts with it. -/
theorem latestStore_iff (hload : t.IsMemory load) (hne : t.getMayReadFromSet load ≠ [])
    (hstore : t.StoresBefore ρ place addrOf load store) :
    t.LatestStore ρ place addrOf load store ↔ ∀ conflict ∈ t.getMayReadFromSet load,
      ¬ ConstGen.Conflicts (t.Executed ρ) place addrOf store load conflict := by
  constructor
  · intro hlatest conflict hmem hconflict
    obtain ⟨hmemory, hisStore, -⟩ := of_mem_getMayReadFromSet hmem
    have hle := hlatest.latest conflict ⟨hmemory, hisStore, hconflict.executed,
      hconflict.address.trans hstore.address, hconflict.before⟩
    exact absurd hconflict.behind (not_lt.mpr hle)
  · intro hnone
    refine ⟨hstore, fun other hother => ?_⟩
    by_contra hlt
    obtain ⟨kept, hkept, hbefore, hle⟩ := h.exists_mem hload hne hother
    exact hnone kept hkept ⟨hbefore.executed, hbefore.address.trans hstore.address.symm,
      (not_le.mp hlt).trans_le hle, hbefore.before⟩

end Chosen

/-! ## Choosing the read-from variables -/

theorem executed_congr (hagree : ∀ v, decide (v < t.varindex) = true → ρ v = ρ' v)
    (record : ExecPoint) : t.Executed ρ record ↔ t.Executed ρ' record := by
  obtain ⟨e, he, hefree⟩ := t.exists_getExecutionConstraint record
  rw [executed_iff he, executed_iff he,
    eval_congr_vars hagree hefree (t.taken.getExecutionConstraint record e he)]

theorem Chosen.congr (h : t.Chosen ρ place addrOf readOf writeOf)
    (hagree : ∀ v, decide (v < t.varindex) = true → ρ v = ρ' v) :
    t.Chosen ρ' place addrOf readOf writeOf where
  order a b ha hb hne := by
    rw [← h.order a b ha hb hne, eval_congr_vars hagree (t.implicationFree_getOrderConstraint a b)
      (t.taken.order a b)]
  strict := h.strict
  recorded := h.recorded
  address r hr := by
    obtain ⟨hmem, hcode⟩ := h.address r hr
    exact ⟨hmem, by rw [← hcode, code_congr_vars hagree (t.taken.addresses r)]⟩
  written r hr hstore := by
    obtain ⟨hmem, hcode⟩ := h.written r hr hstore
    exact ⟨hmem, by rw [← hcode, code_congr_vars hagree (t.taken.values r)]⟩
  read r hr hload := t.taken.encodes_congr hagree (h.read r hr hload)

theorem LatestStore.congr (h : t.LatestStore ρ place addrOf load store)
    (hagree : ∀ v, decide (v < t.varindex) = true → ρ v = ρ' v) :
    t.LatestStore ρ' place addrOf load store where
  stores := { h.stores with executed := (executed_congr hagree store).mp h.stores.executed }
  latest other hother := h.latest other
    { hother with executed := (executed_congr hagree other).mpr hother.executed }

/-- The constraints of a load can be met by its read-from variables if and only if it is not
executed or reads what the latest store to its address has written. -/
theorem exists_added_loadRF_iff {t : ReadTables} {ι : Type*} [LinearOrder ι] {ρ : Nat → Bool}
    {place : ExecPoint → ι} {addrOf readOf writeOf : ExecPoint → UInt64}
    (h : t.Chosen ρ place addrOf readOf writeOf) (hsound : t.SubsumptionSound ρ)
    {load : ExecPoint} (hisLoad : (t.info load).isLoad) (hne : t.getMayReadFromSet load ≠ []) :
    (∀ c ∈ t.loadRF load, c ≠ none) ∧
      ((∃ ρ', (∀ v, v ∉ t.rfVars load → ρ' v = ρ v) ∧ Added ρ' (t.loadRF load)) ↔
        ¬ t.Executed ρ load ∨ ∃ store, t.LatestStore ρ place addrOf load store ∧
          writeOf store = readOf load) := by
  refine ⟨t.loadRF_ne_none load, ?_⟩
  obtain ⟨first, hfirst⟩ := List.exists_mem_of_ne_nil _ hne
  obtain ⟨addr, haddr, -⟩ := exists_addr_of_mem hfirst
  have hload : t.IsMemory load := ⟨.inl hisLoad, List.ne_nil_of_mem haddr⟩
  have hagree : ∀ ρ' : Nat → Bool, (∀ v, v ∉ t.rfVars load → ρ' v = ρ v) →
      ∀ v, decide (v < t.varindex) = true → ρ v = ρ' v := by
    intro ρ' hothers v hv
    apply (hothers v _).symm
    unfold MemoryTables.rfVars
    rw [List.mem_range'_1]
    have hlt := of_decide_eq_true hv
    omega
  -- whatever the read-from variables hold, the choice is the same
  have hadded : ∀ ρ' : Nat → Bool, (∀ v, v ∉ t.rfVars load → ρ' v = ρ v) →
      (Added ρ' (t.loadRF load) ↔
        (t.Executed ρ load → code ρ' (t.rfVars load) < (t.getMayReadFromSet load).length) ∧
        ∀ store, (t.getMayReadFromSet load)[code ρ' (t.rfVars load)]? = some store →
          t.LatestStore ρ place addrOf load store ∧ writeOf store = readOf load) := by
    intro ρ' hothers
    have hagree' := hagree ρ' hothers
    have h' := h.congr hagree'
    have hsound' : t.SubsumptionSound ρ' := fun k c hk hc =>
      (executed_congr hagree' k).mp (hsound k c hk ((executed_congr hagree' c).mpr hc))
    rw [h'.added_loadRF_iff hsound' hload hisLoad hne, ← executed_congr hagree']
    apply and_congr_right'
    apply forall_congr'
    intro store
    apply imp_congr_right
    intro _
    constructor
    · rintro ⟨hstores, hvalue, hnone⟩
      have hlatest := (h'.latestStore_iff hload hne hstores).mpr hnone
      exact ⟨hlatest.congr fun v hv => (hagree' v hv).symm, hvalue⟩
    · rintro ⟨hlatest, hvalue⟩
      have hlatest' := hlatest.congr hagree'
      exact ⟨hlatest'.stores, hvalue, (h'.latestStore_iff hload hne hlatest'.stores).mp hlatest'⟩
  have hlen : (t.rfVars load).length = (t.getMayReadFromSet load).length.size :=
    List.length_range'
  have hsize := Nat.lt_size_self (t.getMayReadFromSet load).length
  have hnodup : (t.rfVars load).Nodup := List.nodup_range'
  constructor
  · rintro ⟨ρ', hothers, hall⟩
    obtain ⟨hlt, hstore⟩ := (hadded ρ' hothers).mp hall
    by_cases hexecuted : t.Executed ρ load
    · exact .inr ⟨_, hstore _ (List.getElem?_eq_getElem (hlt hexecuted))⟩
    · exact .inl hexecuted
  · intro hcases
    by_cases hlatest : ∃ store, t.LatestStore ρ place addrOf load store ∧
        writeOf store = readOf load
    · obtain ⟨store, hlatest, hvalue⟩ := hlatest
      obtain ⟨i, hi⟩ := List.mem_iff_getElem?.mp (h.latestStore_mem hload hne hlatest)
      have hlt := (List.getElem?_eq_some_iff.mp hi).1
      obtain ⟨ρ', hothers, hcode⟩ := exists_code_eq ρ hnodup (n := i) (by rw [hlen]; omega)
      refine ⟨ρ', hothers, (hadded ρ' hothers).mpr ⟨fun _ => hcode ▸ hlt, ?_⟩⟩
      intro other hother
      rw [hcode, hi] at hother
      obtain rfl := Option.some.inj hother
      exact ⟨hlatest, hvalue⟩
    · -- the index behind the set picks no store
      obtain ⟨ρ', hothers, hcode⟩ := exists_code_eq ρ hnodup
        (n := (t.getMayReadFromSet load).length) (by rw [hlen]; exact hsize)
      refine ⟨ρ', hothers, (hadded ρ' hothers).mpr ⟨?_, ?_⟩⟩
      · exact fun hexecuted => absurd hexecuted (hcases.resolve_right hlatest)
      · intro store hstore
        rw [hcode, List.getElem?_eq_none le_rfl] at hstore
        contradiction

/-! ## A fetch-and-add between stores and loads -/

open ConstGen (inOrder lastCount)

/-- A thread stores, adds, loads, and stores what it has loaded. -/
def incrementEvents (r : ExecPoint) : RecordInfo :=
  ⟨if r = inOrder 1 ∨ r = inOrder 4 then .store else if r = inOrder 2 then .rmw
    else if r = inOrder 3 then .load else .function, 0, .add, false, 0⟩

/-- The thread has stored 7 at 16 and added 1 to it, read the sum and stored it again. -/
def incremented : PlannerState ExecPoint :=
  (Call.store (inOrder 4) 16 8 8 none (some (inOrder 3))).exec incrementEvents
    ((Call.load (inOrder 3) 16 (some (inOrder 2)) none).exec incrementEvents
      ((Call.rmw (inOrder 2) 16 8 7 0 1 (some (inOrder 1)) none none none).exec incrementEvents
        ((Call.store (inOrder 1) 16 7 8 none none).exec incrementEvents .empty)))

def incrementedVisits : List OrderTable.Visit :=
  [.action (inOrder 1), .action (inOrder 2), .action (inOrder 3), .action (inOrder 4),
    .newVars 1, .newVars 1, .newVars 1, .newVars 1, .newVars 1]

def incrementedGen : ConstGen where
  graph := PlannerState.straightGraph
  traversal := PlannerState.straightTraversal
  order := .traverse ⟨fun _ => none, []⟩ incrementedVisits
  getSet r := incremented.sets r vcAddrIndex

theorem varsAll_incrementedGen (p : Nat → Bool) (first second : ExecPoint) :
    varsAll p (incrementedGen.order.getOrderConstraint first second) = true := by
  unfold OrderTable.getOrderConstraint
  split_ifs
  · rfl
  · rfl
  · rfl

/-- Each action has a variable for the 7 or the 8 in memory, and the fetch-and-add has another one
for what it reads. -/
def incrementedTables : ReadTables where
  info := incrementEvents
  getSet := incremented.sets
  getRevDependences r i := if r = inOrder 4 ∧ i = vcBaseIndex then some (inOrder 3) else none
  equalstable _ := 0
  functiontable r := .replicate (numBits ((incremented.sets r vcFuncoutIndex).length + 1)) 0
  getStoreLoadSet _ := 0
  getValues _ := [7, 8]
  getValVars r := if r = inOrder 2 then [2] else if r = inOrder 3 then [4]
    else if r = inOrder 4 then [5] else [1]
  getRMWRValVars _ := [3]
  varindex := 6
  functionVars r := by simp [incrementEvents]
  valVars r := by split_ifs <;> rfl
  rmwrValVars _ := rfl
  valuevector r := if r = inOrder 1 then [7] else [8]
  getLen _ := 8
  getBranchAnyValue _ := false
  branch _ := none
  execcondtable _ := []
  branchtable _ := []
  inserted r hbranch := by
    unfold incrementEvents at hbranch
    simp only at hbranch
    split_ifs at hbranch
  getMayReadFromSet load :=
    (incremented.getMayReadFromSet (fun _ => true) load).getD []
  computeConflictSet store load := incrementedGen.computeConflictSet store load
    ((incremented.getMayReadFromSet (fun _ => true) load).getD [])
  getOrderConstraint := incrementedGen.order.getOrderConstraint
  getAddresses _ := [16]
  getAddrVars _ := []
  getAddr _ := 16
  addrVars _ := rfl
  planner := incremented
  conflicts := incrementedGen
  links := ⟨fun _ => none, []⟩
  visits := incrementedVisits
  storeloadtable _ := some 0
  reachable := .call (.call (.call (.call .empty (.store (inOrder 1) 16 7 8 none none) (by rfl))
    (.rmw (inOrder 2) 16 8 7 0 1 (some (inOrder 1)) none none none) (by rfl))
    (.load (inOrder 3) 16 (some (inOrder 2)) none) (by rfl))
    (.store (inOrder 4) 16 8 8 none (some (inOrder 3))) (by rfl)
  sets := rfl
  addresses _ := rfl
  traversed := rfl
  orderConstraint _ _ := rfl
  exits _ := rfl
  branches _ := rfl
  mayReadFrom _ := rfl
  conflictSet _ _ := rfl
  known _ _ h := by simp at h
  exited _ _ h := by simp at h
  grouped _ _ _ := rfl
  taken :=
    { equals := fun _ => rfl
      functions := fun r v hv => by simp [List.eq_of_mem_replicate hv]
      values := fun r v hv => by
        dsimp only at hv
        split_ifs at hv <;> simp_all
      reads := by simp
      branches := by simp
      addresses := by simp
      order := varsAll_incrementedGen _ }

def incrementedSolution (v : Nat) : Bool := v = 2 ∨ v = 4 ∨ v = 5

def incrementedRead (r : ExecPoint) : UInt64 := if r = inOrder 2 then 7 else 8

def incrementedWrite (r : ExecPoint) : UInt64 := if r = inOrder 1 then 7 else 8

theorem cases_incremented {r : ExecPoint} (h : incrementedTables.IsMemory r) :
    r = inOrder 1 ∨ r = inOrder 2 ∨ r = inOrder 3 ∨ r = inOrder 4 := by
  by_contra hne
  push Not at hne
  have hevent : (incrementedTables.info r).event = .function := by
    show (incrementEvents r).event = .function
    simp [incrementEvents, hne]
  have hkind := h.kind
  unfold RecordInfo.isLoad RecordInfo.isStore at hkind
  simp [hevent] at hkind

theorem isMemory_incremented : ∀ r ∈ [inOrder 1, inOrder 2, inOrder 3, inOrder 4],
    incrementedTables.IsMemory r := by
  have hsets : ∀ r ∈ [inOrder 1, inOrder 2, inOrder 3, inOrder 4],
      ((incrementEvents r).event = .store ∨ (incrementEvents r).event = .rmw ∨
        (incrementEvents r).event = .load) ∧ incremented.sets r vcAddrIndex ≠ [] := by
    decide +kernel
  intro r hr
  obtain ⟨hkind, hset⟩ := hsets r hr
  refine ⟨?_, hset⟩
  rcases hkind with hkind | hkind | hkind
  · exact .inr (.inl hkind)
  · exact .inr (.inr hkind)
  · exact .inl (.inl hkind)

theorem chosen_incremented : incrementedTables.Chosen incrementedSolution lastCount (fun _ => 16)
    incrementedRead incrementedWrite where
  order a b ha hb hne := by
    have hall : ∀ a ∈ [inOrder 1, inOrder 2, inOrder 3, inOrder 4],
        ∀ b ∈ [inOrder 1, inOrder 2, inOrder 3, inOrder 4], a ≠ b →
          (eval incrementedSolution (incrementedGen.order.getOrderConstraint a b) = true ↔
            lastCount a < lastCount b) := by decide +kernel
    exact hall a (by simpa using cases_incremented ha) b (by simpa using cases_incremented hb) hne
  strict a b ha hb hplace := by
    have hall : ∀ a ∈ [inOrder 1, inOrder 2, inOrder 3, inOrder 4],
        ∀ b ∈ [inOrder 1, inOrder 2, inOrder 3, inOrder 4], lastCount a = lastCount b → a = b := by
      decide
    exact hall a (by simpa using cases_incremented ha) b (by simpa using cases_incremented hb)
      hplace
  recorded r hr := by
    rcases cases_incremented hr with rfl | rfl | rfl | rfl <;> decide +kernel
  address _ _ := ⟨List.mem_singleton_self 16, rfl⟩
  written r hr _ := by
    rcases cases_incremented hr with rfl | rfl | rfl | rfl <;> exact ⟨by decide, by decide⟩
  read r hr hload := by
    rcases cases_incremented hr with rfl | rfl | rfl | rfl
    · rcases hload with hevent | hevent <;> exact absurd hevent (by decide)
    · exact ⟨by decide, by decide⟩
    · exact ⟨by decide, by decide⟩
    · rcases hload with hevent | hevent <;> exact absurd hevent (by decide)

theorem subsumptionSound_incremented : incrementedTables.SubsumptionSound incrementedSolution :=
  fun _ _ _ _ => executed_of_isAlwaysExecuted rfl

private theorem latestStore_incremented :
    incrementedTables.LatestStore incrementedSolution lastCount
    (fun _ => 16) (inOrder 3) (inOrder 2) := by
  have hmemory := isMemory_incremented (inOrder 2) (by simp)
  refine ⟨⟨hmemory, .inr rfl, executed_of_isAlwaysExecuted rfl, rfl, by decide⟩, ?_⟩
  intro other hother
  have hbefore : lastCount other < 3 := hother.before
  change lastCount other ≤ 2
  omega

/-- The load reads the 8 that the fetch-and-add has written. -/
theorem exists_added_incremented :
    ∃ ρ, Added ρ (incrementedTables.loadRF (inOrder 3)) := by
  have hset : incrementedTables.getMayReadFromSet (inOrder 3) ≠ [] := by decide +kernel
  obtain ⟨ρ, -, hadded⟩ := (exists_added_loadRF_iff chosen_incremented
    subsumptionSound_incremented (.inl rfl) hset).2.mpr
    (.inr ⟨inOrder 2, latestStore_incremented, rfl⟩)
  exact ⟨ρ, hadded⟩

end ReadTables

end SatCheck
