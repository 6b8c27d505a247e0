import SatCheck.PlannerSteps
/-!
# RMWs see every store to their addresses

An address that reaches an RMW by propagation pulls the values of the stores there.  One that
the RMW runs at for the first time only pushes its own, so what the stores have announced before
is missing unless their changes are still pending.
-/

namespace SatCheck

namespace PlannerState

open Saturation

variable {R : Type} [DecidableEq R] {info : R → RecordInfo} {s s' : PlannerState R}

/-- An RMW reads the values of the other stores to its addresses. -/
def RMWsClosed (info : R → RecordInfo) (s : PlannerState R) : Prop :=
  ∀ rmw, (info rmw).event = .rmw → ∀ addr ∈ s.sets rmw vcAddrIndex,
    ∀ store, (info store).isStore → store ≠ rmw → addr ∈ s.sets store vcAddrIndex →
      ∀ val ∈ s.getStoreSet info store, val ∈ s.sets rmw vcRfIndex

/-- The same as a rule about the facts of the store, for the addresses in `addrs`. -/
def rmwRules (info : R → RecordInfo) (addrs : R → UInt64 → Prop) (ps : Set (Fact R))
    (c : Fact R) : Prop :=
  ∃ rmw store addr val, (info rmw).event = .rmw ∧ addrs rmw addr ∧ (info store).isStore ∧
    store ≠ rmw ∧ ps = {⟨store, vcAddrIndex, addr⟩, ⟨store, (info store).storeIndex, val⟩} ∧
    c = ⟨rmw, vcRfIndex, val⟩

def addresses (s : PlannerState R) (rmw : R) (addr : UInt64) : Prop :=
  addr ∈ s.sets rmw vcAddrIndex

omit [DecidableEq R] in
theorem rmwsClosed_of_closed (h : Closed (rmwRules info s.addresses) s.known) :
    RMWsClosed info s := by
  intro rmw hrmw addr haddr store hstore hne hsaddr val hval
  apply h _ _ ⟨rmw, store, addr, val, hrmw, haddr, hstore, hne, rfl, rfl⟩
  rintro f (rfl | rfl)
  · exact hsaddr
  · exact hval

omit [DecidableEq R] in
theorem watches_rmwRules (addrs : R → UInt64 → Prop) :
    Watches (watched info) (rmwRules info addrs) := by
  rintro ps c ⟨rmw, store, addr, val, -, -, hstore, -, rfl, -⟩ f (rfl | rfl)
  · exact ⟨_, RecordInfo.announceIndex_addr (.inr hstore)⟩
  · exact ⟨_, RecordInfo.announceIndex_storeIndex hstore⟩

/-! ## Changes of a store -/

theorem rmwRules_fire {c : MCChange R} (h : Consistent info s) {i : Nat}
    (hi : (info c.record).announceIndex i = some c.index) {ps : Set (Fact R)} {concl : Fact R}
    (hrule : rmwRules info s.addresses ps concl) (hmem : ⟨c.record, i, c.value⟩ ∈ ps)
    (hps : ps ⊆ s.known) : concl ∈ (s.processChange info c).known := by
  obtain ⟨rmw, store, addr, val, hrmw, haddr, hstore, hne, rfl, rfl⟩ := hrule
  have hsaddr : addr ∈ s.sets store vcAddrIndex := hps (.inl rfl)
  have hval : val ∈ s.getStoreSet info store := hps (.inr rfl)
  have hload := h.loads rmw (.inr hrmw) addr haddr
  obtain ⟨record, value, index⟩ := c
  simp only [Set.mem_insert_iff, Set.mem_singleton_iff, Fact.mk.injEq] at hmem
  simp only [known, Set.mem_ofPred_eq]
  rcases hmem with ⟨rfl, rfl, rfl⟩ | ⟨rfl, rfl, rfl⟩
  · rw [RecordInfo.announceIndex_addr (.inr hstore), Option.some.injEq] at hi
    subst hi
    rw [processChange_of_storeAddress hstore]
    exact mem_processNewStoreAddress h hload hne hval
  · rw [RecordInfo.announceIndex_storeIndex hstore, Option.some.injEq] at hi
    subst hi
    rw [processChange_of_storeValue hstore]
    exact mem_processNewStoreValue h hsaddr hload hne

/-! ## New addresses -/

theorem sets_addr_registerRMWRead (s : PlannerState R) (record : R) (val : UInt64) (r : R) :
    (s.registerRMWRead info record val).sets r vcAddrIndex = s.sets r vcAddrIndex := by
  have hindex : vcAddrIndex ≠ (info record).storeIndex :=
    (info record).storeIndex_ne (by decide) (by decide)
  unfold registerRMWRead doRMWRFChange
  simp only
  split_ifs <;> simp [addChange, addValue, hindex]

theorem sets_addr_registerRMWValue (s : PlannerState R) {record : R} (val : UInt64) {index : Nat}
    (hne : index ≠ vcAddrIndex) :
    (s.registerRMWValue info record val index).sets record vcAddrIndex =
      s.sets record vcAddrIndex := by
  have hindex : vcAddrIndex ≠ (info record).storeIndex :=
    (info record).storeIndex_ne (by decide) (by decide)
  unfold registerRMWValue
  simp only
  split_ifs
  · rfl
  · split
    · exact absurd rfl hne
    · unfold doRMWRFChange
      simp only
      split_ifs <;> simp [addChange, addValue, hindex]
    · unfold doRMWBaseChange
      split_ifs <;> simp [addChange, addValue, hindex]
    · simp [addValue, hne.symm]

/-- The loop of `doRMWNewAddrChange` reads the values of the stores in the table. -/
theorem mem_doRMWNewAddrChange {record store : R} {addr v : UInt64}
    (hevent : (info record).event = .rmw) (hstore : store ∈ s.storetable addr)
    (hne : store ≠ record) (hv : v ∈ s.getStoreSet info store) :
    v ∈ (s.doRMWNewAddrChange info record addr).sets record vcRfIndex := by
  have hread : ∀ (t : PlannerState R) (val : UInt64),
      val ∈ (t.registerRMWRead info record val).sets record vcRfIndex := by
    intro t val
    unfold registerRMWRead
    split_ifs with hmem
    · exact hmem
    · exact (RegisterSteps.doRMWRFChange _ val).subset.sets _ _ _ (mem_addValue t record _ val)
  have hstore' : store ∈ ((s.addLoadTable addr record).addStoreTable addr record).storetable
      addr := mem_storetable_addStoreTable.mpr (.inl hstore)
  unfold doRMWNewAddrChange
  simp only
  apply Grows.foldl_mem info _ hstore'
  · intro t hsteps
    rw [if_pos (by simpa [compatibleStoreLoad] using hne)]
    apply Grows.foldl_mem info _ (hsteps.sets _ _ _ hv)
    · exact fun t' _ => hread t' v
    · exact fun t' _ val _ => grows_registerRMWRead val hevent
  · intro t _ st _
    split_ifs
    · exact Grows.foldl fun t' _ val _ => grows_registerRMWRead val hevent
    · exact Grows.refl info t

/-- An address that comes in with a registered value pulls what is stored there. -/
theorem mem_registerValue_of_new_address (h : Consistent info s) {record rmw store : R}
    {val addr v : UInt64} {index : Nat} (hrmw : (info rmw).event = .rmw)
    (hstore : (info store).isStore) (hne : store ≠ rmw)
    (haddr : addr ∈ (s.registerValue info record val index).sets rmw vcAddrIndex)
    (hnew : addr ∉ s.sets rmw vcAddrIndex)
    (hsaddr : addr ∈ (s.registerValue info record val index).sets store vcAddrIndex)
    (hval : v ∈ (s.registerValue info record val index).getStoreSet info store) :
    v ∈ (s.registerValue info record val index).sets rmw vcRfIndex := by
  have hsteps := RegisterSteps.registerValue info record s val index
  by_cases hrecord : rmw = record
  · subst hrecord
    unfold getStoreSet at hval
    rw [hsteps.sets_of_ne hne] at hsaddr hval
    have htable := h.stores store hstore addr hsaddr
    have heq : s.registerValue info rmw val index = s.registerRMWValue info rmw val index := by
      simp [registerValue, hrmw]
    rw [heq] at haddr ⊢
    by_cases hindex : index = vcAddrIndex
    · subst hindex
      unfold registerRMWValue at haddr ⊢
      simp only at haddr ⊢
      split_ifs at haddr ⊢ with hknown
      · exact absurd haddr hnew
      · have hloop : addr ∈ (s.addValue rmw vcAddrIndex
            (shiftAddress info rmw val vcAddrIndex)).sets rmw vcAddrIndex := by
          unfold doRMWNewAddrChange at haddr
          simp only at haddr
          rw [sets_foldl] at haddr
          · exact haddr
          · intro t st _
            split_ifs
            · exact sets_foldl (fun t' stval _ => sets_addr_registerRMWRead t' rmw stval rmw) t
            · rfl
        obtain ⟨-, -, rfl⟩ := (mem_sets_addValue.mp hloop).resolve_left hnew
        exact mem_doRMWNewAddrChange hrmw htable hne (mem_sets_addValue.mpr (.inl hval))
    · rw [sets_addr_registerRMWValue s val hindex] at haddr
      exact absurd haddr hnew
  · rw [hsteps.sets_of_ne hrecord] at haddr
    exact absurd haddr hnew

/-! ## Processing a change -/

/-- The addresses that RMWs have got since `s₀`. -/
def newAddresses (s₀ s : PlannerState R) (rmw : R) (addr : UInt64) : Prop :=
  addr ∈ s.sets rmw vcAddrIndex ∧ addr ∉ s₀.sets rmw vcAddrIndex

/-- What the stores had announced before is pulled, and what came in since is pending. -/
theorem closedUpTo_registers {c : MCChange R} {s₀ : PlannerState R} (h : Consistent info s₀)
    (hsteps : Registers info c s₀ s) :
    Grows info s₀ s ∧
      ClosedUpTo (rmwRules info (newAddresses s₀ s)) s.known (s.pending info \ s₀.known) := by
  induction hsteps with
  | refl =>
    refine ⟨Grows.refl info s₀, ?_⟩
    rintro ps concl ⟨rmw, store, addr, val, -, ⟨hmem, hnot⟩, -⟩
    exact absurd hmem hnot
  | @tail t _ _ hlast ih =>
    obtain ⟨hgrows, hclosed⟩ := ih
    obtain ⟨record, val, index, hcall, rfl⟩ := hlast
    have hcons := h.grows hgrows
    have hstep := grows_registerValue (s := t) val (hcall.inputIndex hcons)
    have hext := hcons.extends hstep
    refine ⟨hgrows.trans hstep, ClosedUpTo.addRules (R := rmwRules info (newAddresses s₀ t)) ?_ ?_⟩
    · apply hclosed.extend (watches_rmwRules _)
      constructor
      · exact hext.knownMono
      · exact fun p hp => ⟨hext.pendingMono hp.1, hp.2⟩
      · intro p hwatched hp
        by_cases hold : p ∈ t.known
        · exact .inl hold
        · refine .inr ⟨(hext.announced p hwatched hp).resolve_left hold, fun hbefore => hold ?_⟩
          exact hgrows.sets _ _ _ hbefore
    · rintro ps concl ⟨rmw, store, addr, v, hrmw, ⟨hmem, hnot⟩, hstore, hne, rfl, rfl⟩
      by_cases hold : addr ∈ t.sets rmw vcAddrIndex
      · exact .inl ⟨rmw, store, addr, v, hrmw, ⟨hold, hnot⟩, hstore, hne, rfl, rfl⟩
      · right
        intro hps
        left
        exact mem_registerValue_of_new_address hcons hrmw hstore hne hmem hold (hps (.inl rfl))
          (hps (.inr rfl))

def RMWInv (info : R → RecordInfo) (s : PlannerState R) : Prop :=
  Consistent info s ∧ ClosedUpTo (rmwRules info s.addresses) s.known (s.pending info)

theorem RMWInv.processNext {c : MCChange R} (h : RMWInv info s) (hc : c ∈ s.changeset) :
    RMWInv info (s.processNext info c) := by
  refine ⟨h.1.processNext hc, ?_⟩
  have hold : ClosedUpTo (rmwRules info s.addresses) (s.processNext info c).known
      ((s.processNext info c).pending info) := by
    apply ClosedUpTo.processNext (watches_rmwRules _) h.1 hc h.2
    intro s₀ hcons hknown _ i hi ps concl hrule hmem hps
    have haddrs : s₀.addresses = s.addresses := by
      funext rmw addr
      exact congrArg (fun known => (⟨rmw, vcAddrIndex, addr⟩ : Fact R) ∈ known) hknown
    rw [← haddrs] at hrule
    exact rmwRules_fire hcons hi hrule hmem hps
  apply hold.addRules
  rintro ps concl ⟨rmw, store, addr, v, hrmw, haddr, hstore, hne, rfl, rfl⟩
  by_cases hbefore : s.addresses rmw addr
  · exact .inl ⟨rmw, store, addr, v, hrmw, hbefore, hstore, hne, rfl, rfl⟩
  · right
    intro hps
    have herase := h.1.erase c
    have hregisters := Registers.processChange info { s with changeset := s.changeset.erase c } c
    obtain ⟨i, hi, hv⟩ := h.1.backed c (.inl hc)
    unfold PlannerState.processNext at haddr hps ⊢
    simp only at haddr hps ⊢
    split_ifs at haddr hps ⊢ with hdone
    · exact absurd haddr hbefore
    · obtain ⟨hgrows, hclosed⟩ := closedUpTo_registers herase hregisters
      rcases hclosed _ _ ⟨rmw, store, addr, v, hrmw, ⟨haddr, hbefore⟩, hstore, hne, rfl, rfl⟩ hps
        with hmem | ⟨p, hp, ⟨idx, hidx, hchange, hnot⟩, hnew⟩
      · exact .inl hmem
      · refine .inr ⟨p, hp, idx, hidx, hchange, fun hmem => ?_⟩
        rcases HashSet.mem_add.mp hmem with hmem | rfl
        · exact hnot hmem
        · -- the value of the change that is completed was known before
          exact hnew (h.1.mem_of_change hidx (.inl hc))

theorem RMWInv.processChanges (h : RMWInv info s) {fuel : Nat}
    (hrun : s.processChanges info fuel = some s') : RMWInv info s' ∧ RMWsClosed info s' := by
  obtain ⟨t, ht, hempty, rfl⟩ :=
    processChanges_induction (fun s c hs hc => hs.processNext hc) h hrun
  have hclosed := ht.2
  rw [pending_of_changeset_nil hempty, closedUpTo_empty_iff] at hclosed
  refine ⟨⟨h.1.processChanges hrun, ?_⟩, rmwsClosed_of_closed hclosed⟩
  rw [pending_of_changeset_nil (by exact hempty), closedUpTo_empty_iff]
  exact hclosed

end PlannerState

/-! ## Runs -/

namespace Call

open PlannerState Saturation

variable {R : Type} [DecidableEq R] {info : R → RecordInfo} {s : PlannerState R}

/-- Where an RMW runs at an address for the first time, the values that are stored there have
been read or wait in a change. -/
def Pulled (info : R → RecordInfo) (s : PlannerState R) : Call R → Prop
  | rmw record addr .. => addr ∉ s.sets record vcAddrIndex →
      ∀ store, (info store).isStore → store ≠ record → addr ∈ s.sets store vcAddrIndex →
        ∀ val ∈ s.getStoreSet info store, val ∈ s.sets record vcRfIndex ∨
          (⟨store, addr, vcAddrIndex⟩ : MCChange R) ∈ s.changeset ∨
          (⟨store, val, (info store).storeIndex⟩ : MCChange R) ∈ s.changeset
  | _ => True

/-- A store to the new address of an RMW has its values read, or a change still waits. -/
theorem Pulled.covers {call : Call R} (hpulled : call.Pulled info s)
    (hown : call.OnOwnRecord info)
    (hfunctions : ∀ id, ∀ f ∈ s.sharedfuncrecords id, (info f).isFunction) {r store : R}
    {addr val : UInt64} (hr : (info r).event = .rmw)
    (haddr : addr ∈ (call.exec info s).sets r vcAddrIndex) (hnew : addr ∉ s.sets r vcAddrIndex)
    (hstore : (info store).isStore) (hne : store ≠ r)
    (hsaddr : addr ∈ (call.exec info s).sets store vcAddrIndex)
    (hval : val ∈ (call.exec info s).getStoreSet info store) :
    val ∈ s.sets r vcRfIndex ∨ (⟨store, addr, vcAddrIndex⟩ : MCChange R) ∈ s.changeset ∨
      (⟨store, val, (info store).storeIndex⟩ : MCChange R) ∈ s.changeset := by
  have hother : ∀ x : R, x ≠ call.record → (info x).event ≠ .function →
      (call.exec info s).sets x = s.sets x := fun x hx hevent =>
    sets_of_ne hfunctions call hown hx hevent
  have hrecord : r = call.record := by
    by_contra hx
    rw [hother r hx (by simp [hr])] at haddr
    exact hnew haddr
  have hstoreEvent : (info store).event ≠ .function := by
    rcases hstore with h | h <;> simp [h]
  subst hrecord
  unfold getStoreSet at hval
  rw [hother store hne hstoreEvent] at hsaddr hval
  cases call with
  | rmw record addr' len currval oldval valarg rf idAddr idValue idOldvalue =>
    have hmem := (mem_sets_rmw s record addr' len currval oldval valarg rf idAddr idValue
      idOldvalue vcAddrIndex addr).mp haddr
    have hcases : addr ∈ s.sets record vcAddrIndex ∨ addr = addr' := by simpa using hmem
    obtain rfl := hcases.resolve_left hnew
    exact hpulled hnew store hstore hne hsaddr val hval
  | function record inputs len val => exact absurd (hown.1.symm.trans hr) (by decide)
  | phi record input => exact absurd (hown.1.symm.trans hr) (by decide)
  | _ => exact absurd (hown.symm.trans hr) (by decide)

theorem rmwInv_exec (h : RMWInv info s) (hcompleted : s.completedset = []) {call : Call R}
    (hown : call.OnOwnRecord info) (hpulled : call.Pulled info s) :
    RMWInv info (call.exec info s) ∧ (call.exec info s).completedset = [] := by
  have hexec := consistent_exec h.1 call hown
  obtain ⟨hgrows, t, hadds, hafter⟩ := exec_cases h.1 call hown
  have hcontext := (h.1.grows hgrows).addsEdges hadds fun _ _ => inputIndex_of_feeds hown
  obtain ⟨deps, rfl, -⟩ := hadds
  have hdone : (call.exec info s).completedset = [] :=
    (hafter.completedset.trans hgrows.completedset).trans hcompleted
  refine ⟨⟨hexec, ?_⟩, hdone⟩
  have hchanges : ∀ c ∈ s.changeset, c ∈ (call.exec info s).changeset := fun c hc =>
    hafter.changeset c (hgrows.changeset c hc)
  have hold : ClosedUpTo (rmwRules info s.addresses) (call.exec info s).known
      ((call.exec info s).pending info) :=
    ClosedUpTo.extend (h.2.extend (watches_rmwRules _) (h.1.extends hgrows)) (watches_rmwRules _)
      (hcontext.extends hafter)
  apply hold.addRules
  rintro ps concl ⟨rmw, store, addr, v, hrmw, haddr, hstore, hne, rfl, rfl⟩
  by_cases hbefore : s.addresses rmw addr
  · exact .inl ⟨rmw, store, addr, v, hrmw, hbefore, hstore, hne, rfl, rfl⟩
  · right
    intro hps
    rcases hpulled.covers hown h.1.functions hrmw haddr hbefore hstore hne (hps (.inl rfl))
      (hps (.inr rfl)) with hread | hchange | hchange
    · exact .inl (hafter.sets _ _ _ (hgrows.sets _ _ _ hread))
    · refine .inr ⟨_, .inl rfl, vcAddrIndex, RecordInfo.announceIndex_addr (.inr hstore),
        hchanges _ hchange, ?_⟩
      rw [hdone]
      exact List.not_mem_nil
    · refine .inr ⟨_, .inr rfl, _, RecordInfo.announceIndex_storeIndex hstore,
        hchanges _ hchange, ?_⟩
      rw [hdone]
      exact List.not_mem_nil

end Call

/-- The states of runs in which no RMW misses the stores to a new address. -/
abbrev PulledReachable {R : Type} [DecidableEq R] (info : R → RecordInfo) :
    PlannerState R → Prop :=
  PlannerRun info (fun s call => call.Pulled info s) fun _ _ => True

theorem PulledReachable.rmwInv {R : Type} [DecidableEq R] {info : R → RecordInfo}
    {s : PlannerState R} (h : PulledReachable info s) :
    PlannerState.RMWInv info s ∧ s.completedset = [] := by
  induction h with
  | empty =>
    refine ⟨⟨PlannerState.consistent_empty, ?_⟩, rfl⟩
    rintro ps concl ⟨rmw, store, addr, v, -, haddr, -⟩
    exact absurd haddr List.not_mem_nil
  | call _ call hown hok ih => exact Call.rmwInv_exec ih.1 ih.2 hown hok
  | processChanges _ fuel _ hrun ih =>
    exact ⟨(ih.1.processChanges hrun).1, PlannerState.completedset_processChanges hrun⟩

/-- After every call of `processChanges` of such a run each RMW reads all values of the other
stores to its addresses. -/
theorem rmwsClosed_processChanges {R : Type} [DecidableEq R] {info : R → RecordInfo}
    {s s' : PlannerState R} (h : PulledReachable info s) {fuel : Nat}
    (hrun : s.processChanges info fuel = some s') : PlannerState.RMWsClosed info s' :=
  (h.rmwInv.1.processChanges hrun).2

open scoped FewRecords

def storeThenAddInfo (r : Fin 2) : RecordInfo :=
  ⟨if r = 0 then .store else .rmw, 0, .add, false, 0⟩

def storeThenAdd (s : PlannerState (Fin 2)) : PlannerState (Fin 2) :=
  (Call.rmw 1 16 8 7 0 1 (some 0) none none none).exec storeThenAddInfo
    ((Call.store 0 16 7 8 none none).exec storeThenAddInfo s)

/-- Both run for the first time in one run. -/
theorem rmwsClosed_storeThenAdd :
    ∃ s', (storeThenAdd .empty).processChanges storeThenAddInfo 9 = some s' ∧
      PlannerState.RMWsClosed storeThenAddInfo s' := by
  have hstore : PulledReachable storeThenAddInfo
      ((Call.store 0 16 7 8 none none).exec storeThenAddInfo .empty) :=
    .call .empty (.store 0 16 7 8 none none) (by rfl) trivial
  have hadd := PlannerRun.call hstore (.rmw 1 16 8 7 0 1 (some 0) none none none) (by rfl) (by
    intro _ store _ hne _ val _
    obtain rfl : store = 0 := by omega
    exact .inr (.inl (by decide)))
  have hsome : ((storeThenAdd .empty).processChanges storeThenAddInfo 9).isSome = true := by
    decide +kernel
  obtain ⟨s', hs'⟩ := Option.isSome_iff_exists.mp hsome
  exact ⟨s', hs', rmwsClosed_processChanges hadd hs'⟩

/-- The store is known from a run before, and the add does not read its value. -/
theorem not_rmwsClosed :
    ¬ ∀ (R : Type) [DecidableEq R] (info : R → RecordInfo) (s s' : PlannerState R) (fuel : Nat),
      PlannerReachable info s → s.processChanges info fuel = some s' →
        PlannerState.RMWsClosed info s' := by
  intro hclaim
  have hrun : (((Call.store 0 16 7 8 none none).exec storeThenAddInfo .empty).processChanges
      storeThenAddInfo 9).isSome = true := by decide +kernel
  obtain ⟨s, hs⟩ := Option.isSome_iff_exists.mp hrun
  have hmiss : (((Call.store 0 16 7 8 none none).exec storeThenAddInfo .empty).processChanges
      storeThenAddInfo 9).all (fun s =>
        ((storeThenAdd s).processChanges storeThenAddInfo 9).any fun s' =>
          (16 ∈ s'.sets 1 vcAddrIndex ∧ 16 ∈ s'.sets 0 vcAddrIndex ∧ 7 ∈ s'.sets 0 vcBaseIndex ∧
            7 ∉ s'.sets 1 vcRfIndex : Bool)) = true := by
    decide +kernel
  rw [hs, Option.all_some] at hmiss
  cases hs' : (storeThenAdd s).processChanges storeThenAddInfo 9 with
  | none => simp [hs'] at hmiss
  | some s' =>
    rw [hs', Option.any_some, decide_eq_true_eq] at hmiss
    obtain ⟨haddr, hsaddr, hval, hnot⟩ := hmiss
    have hfirst : PlannerReachable storeThenAddInfo
        ((Call.store 0 16 7 8 none none).exec storeThenAddInfo .empty) :=
      .call .empty (.store 0 16 7 8 none none) (by rfl)
    have hsecond : PlannerReachable storeThenAddInfo (storeThenAdd s) :=
      .call (.call (.processChanges hfirst 9 hs) (.store 0 16 7 8 none none) (by rfl))
        (.rmw 1 16 8 7 0 1 (some 0) none none none) (by rfl)
    have hclosed := hclaim (Fin 2) storeThenAddInfo _ s' 9 hsecond hs'
    exact hnot (hclosed 1 (by rfl) 16 haddr 0 (.inl rfl) (by decide) hsaddr 7 hval)

end SatCheck
