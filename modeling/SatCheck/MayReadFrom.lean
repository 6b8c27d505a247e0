import SatCheck.AddressTables
import SatCheck.Traversal
/-!
# The stores that a load may read from

`getMayReadFromSet` collects the stores to the addresses of a load.  For a load with one address
it leaves out those that are hidden by a later store of the same thread.
-/

namespace SatCheck

namespace ExecPoint

private theorem comparePairs_antisymm {ps qs : List (ExecPointType × Nat)}
    (h : comparePairs ps qs = .after) : comparePairs qs ps ≠ .after := by
  induction ps generalizing qs with
  | nil =>
    cases qs with
    | nil => exact absurd h (by decide)
    | cons q qs => exact fun h' => absurd h' (by simp [comparePairs])
  | cons p ps ih =>
    cases qs with
    | nil => exact absurd h (by simp [comparePairs])
    | cons q qs =>
      obtain ⟨type, value⟩ := p
      obtain ⟨type', value'⟩ := q
      unfold comparePairs at h ⊢
      by_cases heq : value = value'
      · simp only [heq, ne_eq, not_true_eq_false, if_false] at h ⊢
        exact ih h
      · have hlt : value < value' := by
          by_contra hge
          simp only [ne_eq, heq, not_false_eq_true, if_true, hge, if_false] at h
          split_ifs at h
        have hgt : ¬ value' < value := by omega
        simp only [ne_eq, Ne.symm heq, not_false_eq_true, if_true, hgt, if_false]
        split_ifs <;> decide

theorem compare_antisymm {e e' : ExecPoint} (h : e.compare e' = .after) :
    e'.compare e ≠ .after := comparePairs_antisymm h

end ExecPoint

namespace PlannerState

/-- `NULL` when no store has been added for the address. -/
def getStoreTable {R : Type} (s : PlannerState R) (addr : UInt64) : Option (List R) :=
  match s.storetable addr with
  | [] => none
  | rs => some rs

variable (always : ExecPoint → Bool) (s : PlannerState ExecPoint)

/-- The loop of `getMayReadFromSet`. -/
def mayReadFromLoop (load : ExecPoint) : List ExecPoint :=
  (s.sets load vcAddrIndex).foldl (fun srs addr =>
    match s.getStoreTable addr with
    | none => srs
    | some rs => rs.foldl (fun srs rec =>
        if rec.tid ≠ load.tid ∨ rec.compare load = .after then HashSet.add srs rec else srs) srs)
    []

/-- The first loop of `getMayReadFromSetOpt`; `always` is `isAlwaysExecuted`. -/
def latestStore (load : ExecPoint) (rs : List ExecPoint) : Option ExecPoint :=
  rs.foldl (fun latest store =>
    if store.tid = load.tid ∧ always store ∧ (s.sets store vcAddrIndex).length = 1 ∧
        store.compare load = .after ∧ latest.all (fun ep => ep.compare store == .after) then
      some store
    else latest) none

/-- The set of the load, which `loadtable` keeps.  A `NULL` of `getStoreTable` is not checked. -/
def getMayReadFromSetOpt (load : ExecPoint) : Option (List ExecPoint) :=
  match s.sets load vcAddrIndex with
  | [] => none
  | addr :: _ =>
      match s.getStoreTable addr with
      | none => none
      | some rs =>
          let latest := s.latestStore always load rs
          some (rs.foldl (fun srs store =>
            if store.tid = load.tid then
              if store.compare load = .after ∧
                  latest.all (fun ep => store.compare ep != .after) then HashSet.add srs store
              else srs
            else HashSet.add srs store) [])

def getMayReadFromSet (load : ExecPoint) : Option (List ExecPoint) :=
  if (s.sets load vcAddrIndex).length = 1 then s.getMayReadFromSetOpt always load
  else some (s.mayReadFromLoop load)

/-! ## Interleavings -/

/-- The executed records of an interleaving of the threads, with the addresses of its memory
actions.  A thread that runs executes all recorded stores that are always executed. -/
structure Interleaving (info : ExecPoint → RecordInfo) (run : List ExecPoint)
    (addrOf : ExecPoint → UInt64) : Prop where
  programOrder : run.Pairwise fun r r' => r.tid = r'.tid → r.compare r' = .after
  always : ∀ r ∈ run, ∀ r', r'.tid = r.tid → (info r').isStore → s.sets r' vcAddrIndex ≠ [] →
    always r' = true → r' ∈ run
  recorded : ∀ r ∈ run, (info r).isLoad ∨ (info r).isStore → addrOf r ∈ s.sets r vcAddrIndex

/-- `store` is the last one to the address before `load`. -/
def LatestStore (info : ExecPoint → RecordInfo) (run : List ExecPoint)
    (addrOf : ExecPoint → UInt64) (addr : UInt64) (store load : ExecPoint) : Prop :=
  ∃ pre mid post, run = pre ++ store :: mid ++ load :: post ∧ (info store).isStore ∧
    addrOf store = addr ∧ ∀ r ∈ mid, (info r).isStore → addrOf r ≠ addr

variable {always s} {info : ExecPoint → RecordInfo} {load store : ExecPoint}

theorem mem_foldl_add {p : ExecPoint → Prop} [DecidablePred p] {x : ExecPoint}
    (rs srs : List ExecPoint) :
    x ∈ rs.foldl (fun srs r => if p r then HashSet.add srs r else srs) srs ↔
      x ∈ srs ∨ x ∈ rs ∧ p x := by
  induction rs generalizing srs with
  | nil => simp
  | cons r rs ih =>
    rw [List.foldl_cons, ih, List.mem_cons]
    split_ifs with hp
    · rw [HashSet.mem_add]
      constructor
      · rintro ((h | rfl) | h)
        · exact .inl h
        · exact .inr ⟨.inl rfl, hp⟩
        · exact .inr ⟨.inr h.1, h.2⟩
      · rintro (h | ⟨rfl | h, hx⟩)
        · exact .inl (.inl h)
        · exact .inl (.inr rfl)
        · exact .inr ⟨h, hx⟩
    · constructor
      · rintro (h | h)
        · exact .inl h
        · exact .inr ⟨.inr h.1, h.2⟩
      · rintro (h | ⟨rfl | h, hx⟩)
        · exact .inl h
        · exact absurd hx hp
        · exact .inr ⟨h, hx⟩

/-- A store of the thread before the load that is executed, and at its only address. -/
structure Covers (always : ExecPoint → Bool) (s : PlannerState ExecPoint) (load ep : ExecPoint) :
    Prop where
  tid : ep.tid = load.tid
  always : always ep = true
  single : (s.sets ep vcAddrIndex).length = 1
  before : ep.compare load = .after

theorem latestStore_spec {rs : List ExecPoint} {ep : ExecPoint}
    (h : s.latestStore always load rs = some ep) : ep ∈ rs ∧ Covers always s load ep := by
  have hloop : ∀ x, s.latestStore always load rs = some x → x ∈ rs ∧ Covers always s load x := by
    apply List.foldlRecOn (motive := fun latest => ∀ x, latest = some x →
      x ∈ rs ∧ Covers always s load x)
    · exact fun x hx => absurd hx (by simp)
    · intro latest hlatest r hr x hx
      split_ifs at hx with hcovers
      · obtain rfl := Option.some.inj hx
        obtain ⟨htid, halways, hsingle, hbefore, -⟩ := hcovers
        exact ⟨hr, htid, halways, hsingle, hbefore⟩
      · exact hlatest x hx
  exact hloop ep h

theorem getStoreTable_eq_some {R : Type} {s : PlannerState R} {addr : UInt64} {rs : List R} :
    s.getStoreTable addr = some rs ↔ rs = s.storetable addr ∧ rs ≠ [] := by
  unfold getStoreTable
  cases s.storetable addr with
  | nil => simp
  | cons r rs' =>
    rw [Option.some_inj]
    constructor
    · rintro rfl
      exact ⟨rfl, by simp⟩
    · exact fun h => h.1.symm

theorem getMayReadFromSetOpt_eq {addr : UInt64} (haddr : s.sets load vcAddrIndex = [addr]) :
    s.getMayReadFromSetOpt always load = (s.getStoreTable addr).map fun rs =>
      rs.foldl (fun srs store => if store.tid = load.tid → store.compare load = .after ∧
        (s.latestStore always load rs).all (fun ep => store.compare ep != .after) then
          HashSet.add srs store else srs) [] := by
  unfold getMayReadFromSetOpt
  rw [haddr]
  simp only
  cases s.getStoreTable addr with
  | none => rfl
  | some rs =>
    simp only [Option.map_some]
    congr 2
    funext srs store
    by_cases htid : store.tid = load.tid
    · simp only [htid, if_true, true_imp_iff]
    · simp only [htid, if_false, false_imp_iff, if_true]

theorem mem_getMayReadFromSetOpt {addr : UInt64} (haddr : s.sets load vcAddrIndex = [addr])
    {srs : List ExecPoint} (h : s.getMayReadFromSetOpt always load = some srs) :
    store ∈ srs ↔ store ∈ s.storetable addr ∧ (store.tid = load.tid →
      store.compare load = .after ∧
        ∀ ep, s.latestStore always load (s.storetable addr) = some ep →
          store.compare ep ≠ .after) := by
  rw [getMayReadFromSetOpt_eq haddr] at h
  obtain ⟨rs, hrs, rfl⟩ := Option.map_eq_some_iff.mp h
  obtain ⟨rfl, -⟩ := getStoreTable_eq_some.mp hrs
  rw [mem_foldl_add]
  simp [Option.all_eq_true]

/-- What the loop of `getMayReadFromSet` has of the stores to each address. -/
theorem mem_mayReadFromLoop_iff : store ∈ s.mayReadFromLoop load ↔
    ∃ addr ∈ s.sets load vcAddrIndex, store ∈ s.storetable addr ∧
      (store.tid ≠ load.tid ∨ store.compare load = .after) := by
  unfold mayReadFromLoop
  have hloop : ∀ (addrs : List UInt64) (srs : List ExecPoint),
      store ∈ addrs.foldl (fun srs addr =>
        match s.getStoreTable addr with
        | none => srs
        | some rs => rs.foldl (fun srs rec =>
            if rec.tid ≠ load.tid ∨ rec.compare load = .after then HashSet.add srs rec else srs)
            srs) srs ↔
        store ∈ srs ∨ ∃ addr ∈ addrs, store ∈ s.storetable addr ∧
          (store.tid ≠ load.tid ∨ store.compare load = .after) := by
    intro addrs
    induction addrs with
    | nil => simp
    | cons addr addrs ih =>
      intro srs
      rw [List.foldl_cons, ih, List.exists_mem_cons_iff, ← or_assoc]
      apply or_congr_left
      unfold getStoreTable
      cases s.storetable addr with
      | nil => simp
      | cons r rs => exact mem_foldl_add _ _
  rw [hloop]
  simp

theorem mem_mayReadFromLoop {addr : UInt64} (haddr : s.sets load vcAddrIndex = [addr]) :
    store ∈ s.mayReadFromLoop load ↔ store ∈ s.storetable addr ∧
      (store.tid ≠ load.tid ∨ store.compare load = .after) := by
  rw [mem_mayReadFromLoop_iff, haddr]
  simp

theorem exists_of_mem_getMayReadFromSet {srs : List ExecPoint}
    (h : s.getMayReadFromSet always load = some srs) (hstore : store ∈ srs) :
    ∃ addr ∈ s.sets load vcAddrIndex, store ∈ s.storetable addr := by
  unfold getMayReadFromSet at h
  split_ifs at h with hsingle
  · obtain ⟨addr, haddr⟩ := List.length_eq_one_iff.mp hsingle
    have hmem := ((mem_getMayReadFromSetOpt haddr h).mp hstore).1
    exact ⟨addr, by simp [haddr], hmem⟩
  · obtain rfl := Option.some.inj h
    obtain ⟨addr, haddr, hmem, -⟩ := mem_mayReadFromLoop_iff.mp hstore
    exact ⟨addr, haddr, hmem⟩

/-! ## The latest store is in the set -/

/-- A store in front of a covering one of the same thread does not reach the load. -/
theorem LatestStore.not_covered {run : List ExecPoint} {addrOf : ExecPoint → UInt64}
    {addr : UInt64} (hrun : Interleaving always s info run addrOf)
    (hlatest : LatestStore info run addrOf addr store load) {ep : ExecPoint}
    (hep : (info ep).isStore) (haddr : addr ∈ s.sets ep vcAddrIndex)
    (hcovers : Covers always s load ep) (htid : store.tid = load.tid) :
    store.compare ep ≠ .after := by
  obtain ⟨pre, mid, post, rfl, -, -, hmid⟩ := hlatest
  intro hafter
  obtain ⟨hfront, hload, hbefore⟩ := List.pairwise_append.mp hrun.programOrder
  obtain ⟨-, hstore, hpre⟩ := List.pairwise_append.mp hfront
  have hmem : ep ∈ pre ++ store :: mid ++ load :: post :=
    hrun.always load (by simp) ep hcovers.tid hep (List.ne_nil_of_mem haddr) hcovers.always
  rcases List.mem_append.mp hmem with hmem | hmem
  · rcases List.mem_append.mp hmem with hmem | hmem
    · -- it is executed before the store, whose execution point is in front of its own
      have horder := hpre ep hmem store List.mem_cons_self (hcovers.tid.trans htid.symm)
      exact ExecPoint.compare_antisymm hafter horder
    · rcases List.mem_cons.mp hmem with rfl | hmem
      · exact absurd hafter (by simp)
      · have hsingle := List.length_eq_one_iff.mp hcovers.single
        obtain ⟨a, ha⟩ := hsingle
        have haddrOf := hrun.recorded ep (by simp [hmem]) (.inr hep)
        rw [ha, List.mem_singleton] at haddr haddrOf
        exact hmid ep hmem hep (haddrOf.trans haddr.symm)
  · rcases List.mem_cons.mp hmem with rfl | hmem
    · exact absurd hcovers.before (by simp)
    · have horder := (List.pairwise_cons.mp hload).1 ep hmem hcovers.tid.symm
      exact ExecPoint.compare_antisymm hcovers.before horder

/-- For a load with one address `getMayReadFromSetOpt` gives a set, with the latest store of
every interleaving and no store more than the loop of `getMayReadFromSet`, if and only if some
record stores to the address. -/
theorem getMayReadFromSetOpt_iff {info : ExecPoint → RecordInfo} {s : PlannerState ExecPoint}
    (h : PlannerReachable info s) (g : EventGraph) (t : Traversal) {load : ExecPoint}
    {addr : UInt64} (haddr : s.sets load vcAddrIndex = [addr]) :
    (∃ srs, s.getMayReadFromSetOpt (t.isAlwaysExecuted g) load = some srs ∧
      (∀ run addrOf, Interleaving (t.isAlwaysExecuted g) s info run addrOf → ∀ store,
        LatestStore info run addrOf addr store load → store ∈ srs) ∧
      ∀ store ∈ srs, store ∈ s.mayReadFromLoop load) ↔
      ∃ store, (info store).isStore ∧ addr ∈ s.sets store vcAddrIndex := by
  constructor
  · rintro ⟨srs, hsrs, -, -⟩
    rw [getMayReadFromSetOpt_eq haddr] at hsrs
    obtain ⟨rs, hrs, -⟩ := Option.map_eq_some_iff.mp hsrs
    obtain ⟨rfl, hne⟩ := getStoreTable_eq_some.mp hrs
    obtain ⟨store, hstore⟩ := List.exists_mem_of_ne_nil _ hne
    exact ⟨store, h.addressed.storetable addr store hstore⟩
  · rintro ⟨store, hstore, hmem⟩
    have htable : s.getStoreTable addr = some (s.storetable addr) :=
      getStoreTable_eq_some.mpr
        ⟨rfl, List.ne_nil_of_mem (h.consistent.stores store hstore addr hmem)⟩
    obtain ⟨srs, hsrs⟩ : ∃ srs, s.getMayReadFromSetOpt (t.isAlwaysExecuted g) load = some srs := by
      rw [getMayReadFromSetOpt_eq haddr, htable]
      exact ⟨_, rfl⟩
    refine ⟨srs, hsrs, ?_, ?_⟩
    · intro run addrOf hrun store hlatest
      have hlast := hlatest
      obtain ⟨pre, mid, post, heq, hstore, haddrOf, -⟩ := hlast
      have hrecorded := hrun.recorded store (by simp [heq]) (.inr hstore)
      rw [haddrOf] at hrecorded
      apply (mem_getMayReadFromSetOpt haddr hsrs).mpr
      refine ⟨h.consistent.stores store hstore addr hrecorded, fun htid => ⟨?_, ?_⟩⟩
      · have horder := hrun.programOrder
        rw [heq] at horder
        exact (List.pairwise_append.mp horder).2.2 store (by simp) load List.mem_cons_self htid
      · intro ep hep
        obtain ⟨hentry, hcovers⟩ := latestStore_spec hep
        obtain ⟨hisStore, hepaddr⟩ := h.addressed.storetable addr ep hentry
        exact hlatest.not_covered hrun hisStore hepaddr hcovers htid
    · intro store hmem
      obtain ⟨hentry, hsame⟩ := (mem_getMayReadFromSetOpt haddr hsrs).mp hmem
      apply (mem_mayReadFromLoop haddr).mpr
      by_cases htid : store.tid = load.tid
      · exact ⟨hentry, .inr (hsame htid).1⟩
      · exact ⟨hentry, .inl htid⟩

def storeLoadInfo (r : ExecPoint) : RecordInfo :=
  ⟨if r.tid = 0 then .store else .load, 0, .add, false, 0⟩

def loadedOnly : PlannerState ExecPoint :=
  (Call.load ⟨1, [(.counter, 0)]⟩ 16 none none).exec storeLoadInfo .empty

def storedAfterLoad : PlannerState ExecPoint :=
  (Call.store ⟨0, [(.counter, 0)]⟩ 16 7 8 none none).exec storeLoadInfo loadedOnly

theorem reachable_loadedOnly : PlannerReachable storeLoadInfo loadedOnly :=
  .call .empty (.load (⟨1, [(.counter, 0)]⟩ : ExecPoint) 16 none none) (by rfl)

def straightGraph : EventGraph := ⟨fun _ => none, fun _ => none, fun _ => 0, ⟨0, []⟩⟩

def straightTraversal : Traversal := ⟨none, [], [], fun _ => none, fun _ => none, []⟩

theorem getMayReadFromSetOpt_storedAfterLoad :
    ∃ srs, storedAfterLoad.getMayReadFromSetOpt
        (straightTraversal.isAlwaysExecuted straightGraph) ⟨1, [(.counter, 0)]⟩ = some srs ∧
      (∀ run addrOf, Interleaving (straightTraversal.isAlwaysExecuted straightGraph)
        storedAfterLoad storeLoadInfo run addrOf → ∀ store,
          LatestStore storeLoadInfo run addrOf 16 store ⟨1, [(.counter, 0)]⟩ → store ∈ srs) ∧
      ∀ store ∈ srs, store ∈ storedAfterLoad.mayReadFromLoop ⟨1, [(.counter, 0)]⟩ := by
  have hreach : PlannerReachable storeLoadInfo storedAfterLoad :=
    .call reachable_loadedOnly (.store (⟨0, [(.counter, 0)]⟩ : ExecPoint) 16 7 8 none none)
      (by rfl)
  have haddr : storedAfterLoad.sets ⟨1, [(.counter, 0)]⟩ vcAddrIndex = [16] := by decide +kernel
  have hstored : 16 ∈ storedAfterLoad.sets ⟨0, [(.counter, 0)]⟩ vcAddrIndex := by decide +kernel
  exact (getMayReadFromSetOpt_iff hreach straightGraph straightTraversal haddr).mpr
    ⟨⟨0, [(.counter, 0)]⟩, .inl rfl, hstored⟩

/-- No store has been recorded for the address of the load. -/
theorem not_getMayReadFromSetOpt :
    ¬ ∀ (info : ExecPoint → RecordInfo) (s : PlannerState ExecPoint), PlannerReachable info s →
      ∀ (g : EventGraph) (t : Traversal) (load : ExecPoint) (addr : UInt64),
        s.sets load vcAddrIndex = [addr] →
        ∃ srs, s.getMayReadFromSetOpt (t.isAlwaysExecuted g) load = some srs ∧
          (∀ run addrOf, Interleaving (t.isAlwaysExecuted g) s info run addrOf → ∀ store,
            LatestStore info run addrOf addr store load → store ∈ srs) ∧
          ∀ store ∈ srs, store ∈ s.mayReadFromLoop load := by
  intro hclaim
  obtain ⟨srs, hsrs, -⟩ := hclaim _ _ reachable_loadedOnly straightGraph straightTraversal
    ⟨1, [(.counter, 0)]⟩ 16 (by decide +kernel)
  have hnull : loadedOnly.getMayReadFromSetOpt
      (straightTraversal.isAlwaysExecuted straightGraph) ⟨1, [(.counter, 0)]⟩ = none := by
    decide +kernel
  exact absurd (hnull.symm.trans hsrs) (by simp)

end PlannerState

end SatCheck
