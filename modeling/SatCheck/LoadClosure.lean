import SatCheck.PlannerReachable
/-!
# Loads see every store to their addresses

Addresses of loads, addresses of stores and values of stores arrive in any order.
Each of the three is announced by a change, and each kind of change pushes what the
other two already know, so a missing value always has a pending change.
-/

namespace SatCheck

namespace PlannerState

open Saturation

variable {R : Type} [DecidableEq R] {info : R → RecordInfo} {s s' : PlannerState R}

/-- A load reads the values of the other stores to its addresses. -/
def LoadsClosed (info : R → RecordInfo) (s : PlannerState R) : Prop :=
  ∀ load, (info load).event = .load → ∀ addr ∈ s.sets load vcAddrIndex,
    ∀ store, (info store).isStore → store ≠ load → addr ∈ s.sets store vcAddrIndex →
      ∀ val ∈ s.getStoreSet info store, val ∈ s.sets load vcRfIndex

def loadRules (info : R → RecordInfo) (ps : Set (Fact R)) (c : Fact R) : Prop :=
  ∃ load store addr val, (info load).event = .load ∧ (info store).isStore ∧ store ≠ load ∧
    ps = {⟨load, vcAddrIndex, addr⟩, ⟨store, vcAddrIndex, addr⟩,
      ⟨store, (info store).storeIndex, val⟩} ∧
    c = ⟨load, vcRfIndex, val⟩

omit [DecidableEq R] in
theorem loadsClosed_of_closed (h : Closed (loadRules info) s.known) : LoadsClosed info s := by
  intro load hload addr haddr store hstore hne hsaddr val hval
  refine h _ _ ⟨load, store, addr, val, hload, hstore, hne, rfl, rfl⟩ ?_
  rintro f (rfl | rfl | rfl)
  · exact haddr
  · exact hsaddr
  · exact hval

omit [DecidableEq R] in
theorem watches_loadRules : Watches (watched info) (loadRules info) := by
  rintro ps c ⟨load, store, addr, val, hload, hstore, -, rfl, -⟩ f (rfl | rfl | rfl)
  · exact ⟨_, RecordInfo.announceIndex_addr (.inl hload)⟩
  · exact ⟨_, RecordInfo.announceIndex_addr (.inr hstore)⟩
  · exact ⟨_, RecordInfo.announceIndex_storeIndex hstore⟩

private theorem loadRules_fire {c : MCChange R} (h : Consistent info s) {i : Nat}
    (hi : (info c.record).announceIndex i = some c.index) {ps : Set (Fact R)} {concl : Fact R}
    (hrule : loadRules info ps concl) (hmem : ⟨c.record, i, c.value⟩ ∈ ps)
    (hps : ps ⊆ s.known) : concl ∈ (s.processChange info c).known := by
  obtain ⟨load, store, addr, val, hload, hstore, hne, rfl, rfl⟩ := hrule
  have haddr : addr ∈ s.sets load vcAddrIndex := hps (.inl rfl)
  have hsaddr : addr ∈ s.sets store vcAddrIndex := hps (.inr (.inl rfl))
  have hval : val ∈ s.getStoreSet info store := hps (.inr (.inr rfl))
  obtain ⟨record, value, index⟩ := c
  simp only [Set.mem_insert_iff, Set.mem_singleton_iff, Fact.mk.injEq] at hmem
  simp only [known, Set.mem_ofPred_eq]
  rcases hmem with ⟨rfl, rfl, rfl⟩ | ⟨rfl, rfl, rfl⟩ | ⟨rfl, rfl, rfl⟩
  · rw [RecordInfo.announceIndex_addr (.inl hload), Option.some.injEq] at hi
    subst hi
    rw [processChange, hload]
    exact mem_processNewLoadAddress (c := ⟨record, value, vcAddrIndex⟩) (.inl hload)
      (h.stores store hstore _ hsaddr) hne hval
  · rw [RecordInfo.announceIndex_addr (.inr hstore), Option.some.injEq] at hi
    subst hi
    rw [processChange_of_storeAddress hstore]
    exact mem_processNewStoreAddress h (h.loads load (.inl hload) _ haddr) hne hval
  · rw [RecordInfo.announceIndex_storeIndex hstore, Option.some.injEq] at hi
    subst hi
    rw [processChange_of_storeValue hstore]
    exact mem_processNewStoreValue h hsaddr (h.loads load (.inl hload) _ haddr) hne

def LoadInv (info : R → RecordInfo) (s : PlannerState R) : Prop :=
  Consistent info s ∧ ClosedUpTo (loadRules info) s.known (s.pending info)

theorem LoadInv.processNext {c : MCChange R} (h : LoadInv info s) (hc : c ∈ s.changeset) :
    LoadInv info (s.processNext info c) :=
  ⟨h.1.processNext hc, ClosedUpTo.processNext watches_loadRules h.1 hc h.2
    fun _ hcons _ _ _ hi _ _ hrule hmem hps => loadRules_fire hcons hi hrule hmem hps⟩

omit [DecidableEq R] in
theorem LoadInv.grows (h : LoadInv info s) (hg : Grows info s s') : LoadInv info s' :=
  ⟨h.1.grows hg, h.2.extend watches_loadRules (h.1.extends hg)⟩

theorem LoadInv.exec (h : LoadInv info s) (call : Call R) (hown : call.OnOwnRecord info) :
    LoadInv info (call.exec info s) := by
  obtain ⟨hgrows, t, hadds, hafter⟩ := Call.exec_cases h.1 call hown
  have hcontext := h.grows hgrows
  have ht : LoadInv info t := by
    refine ⟨hcontext.1.addsEdges hadds fun _ _ => Call.inputIndex_of_feeds hown, ?_⟩
    obtain ⟨deps, rfl, -⟩ := hadds
    exact hcontext.2
  exact ht.grows hafter

theorem LoadInv.processChanges (h : LoadInv info s) {fuel : Nat}
    (hrun : s.processChanges info fuel = some s') : LoadInv info s' ∧ LoadsClosed info s' := by
  obtain ⟨t, ht, hempty, rfl⟩ :=
    processChanges_induction (fun s c hs hc => hs.processNext hc) h hrun
  have hclosed := ht.2
  rw [pending_of_changeset_nil hempty, closedUpTo_empty_iff] at hclosed
  refine ⟨⟨h.1.processChanges hrun, ?_⟩, loadsClosed_of_closed hclosed⟩
  rw [pending_of_changeset_nil (by exact hempty), closedUpTo_empty_iff]
  exact hclosed

omit [DecidableEq R] in
private theorem loadInv_empty : LoadInv info (empty : PlannerState R) := by
  refine ⟨consistent_empty, ?_⟩
  rintro ps c ⟨load, store, addr, val, -, -, -, rfl, -⟩ hps
  have haddr : addr ∈ (empty : PlannerState R).sets load vcAddrIndex := hps (.inl rfl)
  simp [empty] at haddr

end PlannerState

theorem PlannerReachable.loadInv {R : Type} [DecidableEq R] {info : R → RecordInfo}
    {s : PlannerState R} (h : PlannerReachable info s) : PlannerState.LoadInv info s := by
  induction h with
  | empty => exact PlannerState.loadInv_empty
  | call _ call hown ih => exact ih.exec call hown
  | processChanges _ fuel hrun ih => exact (ih.processChanges hrun).1

/-- After every call of `processChanges` each load reads all values of the other stores
to its addresses. -/
theorem loadsClosed_processChanges {R : Type} [DecidableEq R] {info : R → RecordInfo}
    {s s' : PlannerState R} (h : PlannerReachable info s) {fuel : Nat}
    (hrun : s.processChanges info fuel = some s') : PlannerState.LoadsClosed info s' :=
  (h.loadInv.processChanges hrun).2

open scoped FewRecords

def storeThenLoadInfo (r : Fin 2) : RecordInfo :=
  ⟨if r = 0 then .store else .load, 0, .add, false, 0⟩

def storeThenLoad : PlannerState (Fin 2) :=
  (Call.load 1 16 (some 0) none).exec storeThenLoadInfo
    ((Call.store 0 16 7 8 none none).exec storeThenLoadInfo .empty)

/-- One run with a store and a load of one address, then `processChanges`. -/
theorem loadsClosed_storeThenLoad :
    ∃ s', storeThenLoad.processChanges storeThenLoadInfo 5 = some s' ∧
      PlannerState.LoadsClosed storeThenLoadInfo s' := by
  have hsome : (storeThenLoad.processChanges storeThenLoadInfo 5).isSome = true := by
    decide +kernel
  obtain ⟨s', hs'⟩ := Option.isSome_iff_exists.mp hsome
  have hreach : PlannerReachable storeThenLoadInfo storeThenLoad :=
    .call (.call .empty (.store 0 16 7 8 none none) (by rfl)) (.load 1 16 (some 0) none)
      (by rfl)
  exact ⟨s', hs', loadsClosed_processChanges hreach hs'⟩

end SatCheck
