import SatCheck.AddressTables
import SatCheck.LoadClosure
import Mathlib.Logic.Function.Basic
/-!
# Where the values that are read come from

The store tables bring values to the loads of an address.  Besides, the write that a load reads
passes on what it returns, and an RMW returns what it has read, not what it has written.
-/

namespace SatCheck

namespace PlannerState

variable {R : Type} [DecidableEq R] {info : R → RecordInfo} {s s' : PlannerState R} {record : R}

def SharesAddress (s : PlannerState R) (r r' : R) : Prop :=
  ∃ addr ∈ s.sets r vcAddrIndex, addr ∈ s.sets r' vcAddrIndex

def FromStore (info : R → RecordInfo) (s : PlannerState R) (r : R) (val : UInt64) : Prop :=
  ∃ store, (info store).isStore ∧ SharesAddress s store r ∧ val ∈ s.getStoreSet info store

/-- Every value that is read comes from a store. -/
def ReadsStored (info : R → RecordInfo) (s : PlannerState R) : Prop :=
  ∀ r, (info r).isLoad → ∀ v ∈ s.sets r vcRfIndex, FromStore info s r v

omit [DecidableEq R] in
theorem SharesAddress.mono (hsets : ∀ r i, ∀ v ∈ s.sets r i, v ∈ s'.sets r i) {r r' : R}
    (h : SharesAddress s r r') : SharesAddress s' r r' := by
  obtain ⟨addr, hr, hr'⟩ := h
  exact ⟨addr, hsets _ _ _ hr, hsets _ _ _ hr'⟩

omit [DecidableEq R] in
theorem FromStore.mono (hsets : ∀ r i, ∀ v ∈ s.sets r i, v ∈ s'.sets r i) {r : R} {val : UInt64}
    (h : FromStore info s r val) : FromStore info s' r val := by
  obtain ⟨store, hstore, hshares, hval⟩ := h
  exact ⟨store, hstore, hshares.mono hsets, hsets _ _ _ hval⟩

omit [DecidableEq R] in
theorem ReadsStored.mono (h : ReadsStored info s) (hsets : ∀ r i, ∀ v ∈ s.sets r i, v ∈ s'.sets r i)
    (hreads : ∀ r, (info r).isLoad → ∀ v ∈ s'.sets r vcRfIndex,
      v ∈ s.sets r vcRfIndex ∨ FromStore info s' r v) : ReadsStored info s' := by
  intro r hr v hv
  exact (hreads r hr v hv).elim (fun hold => (h r hr v hold).mono hsets) id

/-! ## Registering a value -/

theorem mem_reads_doRMWRFChange (s : PlannerState R) (val : UInt64) (v : UInt64) :
    v ∈ (s.doRMWRFChange info record val).sets record vcRfIndex ↔ v ∈ s.sets record vcRfIndex := by
  have hne : vcRfIndex ≠ (info record).storeIndex :=
    (info record).storeIndex_ne (by decide) (by decide)
  unfold PlannerState.doRMWRFChange
  simp only
  split_ifs
  · rfl
  · simp [PlannerState.addChange, mem_sets_addValue, hne]
  · rfl

theorem mem_reads_doRMWBaseChange (s : PlannerState R) (val : UInt64) (v : UInt64) :
    v ∈ (s.doRMWBaseChange info record val).sets record vcRfIndex ↔
      v ∈ s.sets record vcRfIndex := by
  have hne : vcRfIndex ≠ (info record).storeIndex :=
    (info record).storeIndex_ne (by decide) (by decide)
  unfold PlannerState.doRMWBaseChange
  split_ifs
  · rfl
  · simp [PlannerState.addChange, mem_sets_addValue, hne]
  · rfl

private theorem mem_reads_registerRMWRead (s : PlannerState R) (val : UInt64) (v : UInt64) :
    v ∈ (s.registerRMWRead info record val).sets record vcRfIndex →
      v ∈ s.sets record vcRfIndex ∨ v = val := by
  unfold PlannerState.registerRMWRead
  split_ifs
  · exact .inl
  · rw [mem_reads_doRMWRFChange, mem_sets_addValue]
    simp

/-- A new address of an RMW brings values of the stores to this address. -/
theorem mem_reads_doRMWNewAddrChange (h : Addressed info s) (hrmw : (info record).event = .rmw)
    {addr : UInt64} (haddr : addr ∈ s.sets record vcAddrIndex) :
    ∀ v ∈ (s.doRMWNewAddrChange info record addr).sets record vcRfIndex,
      v ∈ s.sets record vcRfIndex ∨
        FromStore info (s.doRMWNewAddrChange info record addr) record v := by
  have htables : Addressed info (((s.addLoadTable addr record).addStoreTable addr
      record).addChange ⟨record, addr, vcAddrIndex⟩) :=
    ((h.addLoadTable haddr).addStoreTable (.inr hrmw) haddr).addChange _
  unfold PlannerState.doRMWNewAddrChange
  simp only
  set t₀ := ((s.addLoadTable addr record).addStoreTable addr record).addChange
    ⟨record, addr, vcAddrIndex⟩
  refine (List.foldlRecOn (motive := fun t => Subset t₀ t ∧ ∀ v ∈ t.sets record vcRfIndex,
    v ∈ s.sets record vcRfIndex ∨ FromStore info t record v) _ _
    ⟨Subset.refl t₀, fun v hv => .inl hv⟩ ?_).2
  rintro t ⟨hsub, hreads⟩ store hmem
  split_ifs
  · refine (List.foldlRecOn (motive := fun u => (Subset t₀ u ∧ ∀ v ∈ u.sets record vcRfIndex,
      v ∈ s.sets record vcRfIndex ∨ FromStore info u record v) ∧ Subset t u) _ _
      ⟨⟨hsub, hreads⟩, Subset.refl t⟩ ?_).1
    rintro u ⟨⟨hsubset, hold⟩, hsince⟩ val hval
    have hstep : Subset u (u.registerRMWRead info record val) :=
      (RegisterSteps.registerRMWRead u val).subset
    refine ⟨⟨hsubset.trans hstep, fun v hv => ?_⟩, hsince.trans hstep⟩
    rcases mem_reads_registerRMWRead u val v hv with hv | rfl
    · exact (hold v hv).imp_right fun hfrom => hfrom.mono hstep.sets
    · have hstore := htables.storetable addr store hmem
      have hfrom : FromStore info t record v :=
        ⟨store, hstore.1, ⟨addr, hsub.sets _ _ _ hstore.2, hsub.sets _ _ _ haddr⟩, hval⟩
      exact .inr (hfrom.mono (hsince.trans hstep).sets)
  · exact ⟨hsub, hreads⟩

theorem mem_reads_addValue {index : Nat} {val v : UInt64}
    (hv : v ∈ (s.addValue record index (shiftAddress info record val index)).sets record
      vcRfIndex) : v ∈ s.sets record vcRfIndex ∨ index = vcRfIndex ∧ v = val := by
  rcases mem_sets_addValue.mp hv with hv | ⟨-, hindex, rfl⟩
  · exact .inl hv
  · exact .inr ⟨hindex.symm, shiftAddress_of_ne (by rw [← hindex]; decide)⟩

private theorem mem_reads_registerLoadValue {index : Nat} {val v : UInt64}
    (hv : v ∈ (s.registerLoadValue info record val index).sets record vcRfIndex) :
    v ∈ s.sets record vcRfIndex ∨ index = vcRfIndex ∧ v = val := by
  unfold registerLoadValue at hv
  simp only at hv
  split_ifs at hv
  · exact .inl hv
  · split at hv <;> exact mem_reads_addValue hv

private theorem mem_reads_registerRMWValue (h : Addressed info s)
    (hrmw : (info record).event = .rmw) {index : Nat} {val v : UInt64}
    (hv : v ∈ (s.registerRMWValue info record val index).sets record vcRfIndex) :
    (v ∈ s.sets record vcRfIndex ∨ index = vcRfIndex ∧ v = val) ∨
      FromStore info (s.registerRMWValue info record val index) record v := by
  unfold registerRMWValue at hv ⊢
  simp only at hv ⊢
  split_ifs at hv ⊢ with hknown
  · exact .inl (.inl hv)
  · split at hv
    · rcases mem_reads_doRMWNewAddrChange (h.addValue _ _ _) hrmw
        (mem_sets_addValue.mpr (.inr ⟨rfl, rfl, rfl⟩)) v hv with hv | hv
      · exact .inl (mem_reads_addValue hv)
      · exact .inr hv
    · exact .inl (mem_reads_addValue ((mem_reads_doRMWRFChange _ _ v).mp hv))
    · exact .inl (mem_reads_addValue ((mem_reads_doRMWBaseChange _ _ v).mp hv))
    · exact .inl (mem_reads_addValue hv)

theorem ReadsStored.registerValue (h : ReadsStored info s) (haddr : Addressed info s)
    {val : UInt64} {index : Nat}
    (hfrom : index = vcRfIndex → (info record).isLoad → FromStore info s record val) :
    ReadsStored info (s.registerValue info record val index) := by
  have hsteps := RegisterSteps.registerValue info record s val index
  apply h.mono hsteps.subset.sets
  intro r hr v hv
  by_cases hne : r = record
  · subst hne
    have hnew : v ∈ s.sets r vcRfIndex ∨ index = vcRfIndex ∧ v = val →
        v ∈ s.sets r vcRfIndex ∨ FromStore info (s.registerValue info r val index) r v := by
      rintro (hv | ⟨hindex, rfl⟩)
      · exact .inl hv
      · exact .inr ((hfrom hindex hr).mono hsteps.subset.sets)
    rcases hr with hevent | hevent
    · have heq : s.registerValue info r val index = s.registerLoadValue info r val index := by
        simp [PlannerState.registerValue, hevent]
      rw [heq] at hv
      exact hnew (mem_reads_registerLoadValue hv)
    · have heq : s.registerValue info r val index = s.registerRMWValue info r val index := by
        simp [PlannerState.registerValue, hevent]
      rw [heq] at hv hnew ⊢
      exact (mem_reads_registerRMWValue haddr hevent hv).elim hnew .inr
  · rw [hsteps.sets_of_ne hne] at hv
    exact .inl hv

/-! ## Processing a change -/

def ReadDependences (info : R → RecordInfo) (s : PlannerState R) : Prop :=
  ∀ r, ∀ dep ∈ s.eprecorddep r, dep.2 = vcRfIndex → (info dep.1).isLoad →
    (info r).isStore ∧ SharesAddress s r dep.1

/-- What an RMW returns to a reader is what it stores, or all its addresses are the reader's. -/
def ReturnsStored (info : R → RecordInfo) (s : PlannerState R) (c : MCChange R) : Prop :=
  (info c.record).event = .rmw → c.index = vcValoutIndex → ∀ dep ∈ s.eprecorddep c.record,
    dep.2 = vcRfIndex → (info dep.1).isLoad →
      c.value ∈ s.sets dep.1 vcRfIndex ∨ c.value ∈ s.getStoreSet info c.record ∨
        ∀ addr ∈ s.sets c.record vcAddrIndex, addr ∈ s.sets dep.1 vcAddrIndex

instance (info : R → RecordInfo) (s : PlannerState R) (c : MCChange R) :
    Decidable (ReturnsStored info s c) :=
  inferInstanceAs (Decidable (_ → _ → ∀ dep ∈ _, _ → _ → _))

structure ReadInv (info : R → RecordInfo) (s : PlannerState R) : Prop where
  consistent : Consistent info s
  addressed : Addressed info s
  reads : ReadsStored info s
  dependences : ReadDependences info s

omit [DecidableEq R] in
theorem ReadDependences.grows (h : ReadDependences info s) (hgrows : Grows info s s') :
    ReadDependences info s' := by
  intro r dep hdep hindex hload
  rw [hgrows.eprecorddep] at hdep
  have hold := h r dep hdep hindex hload
  exact ⟨hold.1, hold.2.mono hgrows.sets⟩

omit [DecidableEq R] in
/-- What a reader is passed from the write it has read comes from a store. -/
theorem ReadInv.fromStore_of_return (h : ReadInv info s) {c : MCChange R}
    (hc : ∃ i, (info c.record).announceIndex i = some c.index ∧ c.value ∈ s.sets c.record i)
    (hok : ReturnsStored info s c) (hreturn : IsReturn info c) {dep : R × Nat}
    (hdep : dep ∈ s.eprecorddep c.record) (hindex : dep.2 = vcRfIndex)
    (hload : (info dep.1).isLoad) : FromStore info s dep.1 c.value := by
  obtain ⟨hstore, hshares⟩ := h.dependences _ dep hdep hindex hload
  have hrmw : (info c.record).event = .rmw ∧ c.index = vcValoutIndex := by
    rcases hstore with hevent | hevent
    · simp [IsReturn, hevent] at hreturn
    · simpa [IsReturn, hevent] using hreturn
  rcases hok hrmw.1 hrmw.2 dep hdep hindex hload with hread | hstored | haddrs
  · exact h.reads _ hload _ hread
  · exact ⟨c.record, hstore, hshares, hstored⟩
  · have hvalue : c.value ∈ s.sets c.record vcRfIndex := by
      obtain ⟨i, hi, hmem⟩ := hc
      have hrf : (info c.record).announceIndex vcRfIndex = some c.index := by
        simp [RecordInfo.announceIndex, hrmw.1, hrmw.2]
      rwa [← RecordInfo.announceIndex_injective _ hi hrf]
    obtain ⟨store, hst, ⟨addr, haddr, hmem⟩, hval⟩ :=
      h.reads _ (.inr hrmw.1) _ hvalue
    exact ⟨store, hst, ⟨addr, haddr, haddrs addr hmem⟩, hval⟩

theorem ReadInv.registers {c : MCChange R} {s₀ : PlannerState R} (h : ReadInv info s₀)
    (hc : ∃ i, (info c.record).announceIndex i = some c.index ∧ c.value ∈ s₀.sets c.record i)
    (hok : ReturnsStored info s₀ c) (hsteps : Registers info c s₀ s) :
    Grows info s₀ s ∧ Addressed info s ∧ ReadsStored info s := by
  induction hsteps with
  | refl => exact ⟨Grows.refl info s₀, h.addressed, h.reads⟩
  | @tail t _ _ hlast ih =>
    obtain ⟨hgrows, haddressed, hreads⟩ := ih
    obtain ⟨record, val, index, hcall, rfl⟩ := hlast
    have hcons := h.consistent.grows hgrows
    have hvalue : ∀ i, (info c.record).announceIndex i = some c.index →
        c.value ∈ t.sets c.record i := by
      intro i hi
      obtain ⟨j, hj, hmem⟩ := hc
      rw [RecordInfo.announceIndex_injective _ hi hj]
      exact hgrows.sets _ _ _ hmem
    refine ⟨hgrows.trans (grows_registerValue val (hcall.inputIndex hcons)),
      haddressed.registerValue record val index, ?_⟩
    apply hreads.registerValue haddressed
    intro hindex hload
    cases hcall with
    | @dependence dep hreturn hdep =>
      rw [hgrows.eprecorddep] at hdep
      exact (h.fromStore_of_return hc hok hreturn hdep hindex hload).mono hgrows.sets
    | @loadAddress store _ hevent hidx hstore _ hval =>
      have haddr := hvalue vcAddrIndex (hidx ▸ RecordInfo.announceIndex_addr (.inl hevent))
      have hentry := haddressed.storetable _ _ hstore
      exact ⟨store, hentry.1, ⟨c.value, hentry.2, haddr⟩, hval⟩
    | storeAddress hstore hidx hmem _ hval =>
      have haddr := hvalue vcAddrIndex (hidx ▸ RecordInfo.announceIndex_addr (.inr hstore))
      exact ⟨c.record, hstore, ⟨c.value, haddr, haddressed.loadtable _ _ hmem⟩, hval⟩
    | @storeValue addr _ hstore hidx haddr hmem _ =>
      have hval : c.value ∈ t.getStoreSet info c.record := by
        apply hvalue
        rw [hidx]
        exact RecordInfo.announceIndex_storeIndex hstore
      exact ⟨c.record, hstore, ⟨addr, haddr, haddressed.loadtable _ _ hmem⟩, hval⟩

theorem ReadInv.processNext {c : MCChange R} (h : ReadInv info s) (hc : c ∈ s.changeset)
    (hok : c ∉ s.completedset → ReturnsStored info s c) :
    ReadInv info (s.processNext info c) := by
  have hcons := h.consistent.processNext hc
  unfold PlannerState.processNext at hcons ⊢
  simp only at hcons ⊢
  split_ifs at hcons ⊢ with hdone
  · exact ⟨hcons, h.addressed.congr rfl rfl rfl, h.reads, h.dependences⟩
  · have herase : ReadInv info { s with changeset := s.changeset.erase c } :=
      ⟨h.consistent.erase c, h.addressed.congr rfl rfl rfl, h.reads, h.dependences⟩
    have hregisters := Registers.processChange info { s with changeset := s.changeset.erase c } c
    obtain ⟨hgrows, haddressed, hreads⟩ :=
      herase.registers (h.consistent.backed c (.inl hc)) (hok hdone) hregisters
    have hdependences := herase.dependences.grows hgrows
    exact ⟨hcons, haddressed.congr rfl rfl rfl, hreads, hdependences⟩

theorem ReadInv.processChanges (h : ReadInv info s) {fuel : Nat}
    (hok : s.EachChange info (ReturnsStored info) fuel)
    (hrun : s.processChanges info fuel = some s') : ReadInv info s' := by
  obtain ⟨t, ht, -, rfl⟩ :=
    processChanges_induction_of (fun s c hs hc hok => hs.processNext hc hok) h hok hrun
  exact ⟨h.consistent.processChanges hrun, ht.addressed.congr rfl rfl rfl, ht.reads,
    ht.dependences⟩

end PlannerState

namespace Call

open PlannerState

variable {R : Type} [DecidableEq R] {info : R → RecordInfo} {s : PlannerState R}

/-- Reads go to the last writer in `memtable`. -/
def ReadsMemtable (memtable : UInt64 → Option R) : Call R → Prop
  | load _ addr rf _ => rf = memtable addr
  | rmw _ addr _ _ _ _ rf .. => rf = memtable addr
  | _ => True

/-- `memtable` after the call. -/
def putMemtable (memtable : UInt64 → Option R) : Call R → UInt64 → Option R
  | store record addr .. | rmw record addr .. => Function.update memtable addr (some record)
  | _ => memtable

theorem readsStored_exec (h : ReadInv info s) {call : Call R} (hown : call.OnOwnRecord info) :
    ReadsStored info (call.exec info s) := by
  obtain ⟨hgrows, t, ⟨deps, rfl, -⟩, hafter⟩ := exec_cases h.consistent call hown
  apply h.reads.mono fun r i v hv => hafter.sets r i v (hgrows.sets r i v hv)
  intro r hr v hv
  left
  by_cases hne : r = call.record
  · subst hne
    cases call with
    | load record addr rf idAddr =>
      obtain ⟨deps, heq⟩ := recordContext_eq (s.loadChanges record addr) record rf idAddr []
      change v ∈ ((s.loadChanges record addr).recordContext record rf idAddr []).sets record
        vcRfIndex at hv
      rw [heq] at hv
      exact (mem_sets_recordNewValue.mp hv).resolve_right fun hv => absurd hv.2.1 (by decide)
    | rmw record addr len currval oldval valarg rf idAddr idValue idOldvalue =>
      have hmem := (mem_sets_rmw s record addr len currval oldval valarg rf idAddr idValue
        idOldvalue vcRfIndex v).mp hv
      have hold : v ∈ s.sets record vcRfIndex := by
        simpa [vcAddrIndex, vcBaseIndex, vcOldvalcasIndex, vcRmwoutIndex, vcRfIndex] using hmem
      exact hold
    | function record inputs len val =>
      rcases hr with hr | hr <;> exact absurd (hown.1.symm.trans hr) (by decide)
    | phi record input =>
      rcases hr with hr | hr <;> exact absurd (hown.1.symm.trans hr) (by decide)
    | _ => rcases hr with hr | hr <;> exact absurd (hown.symm.trans hr) (by decide)
  · have hevent : (info r).event ≠ .function := by
      rcases hr with hr | hr <;> simp [hr]
    rwa [sets_of_ne h.consistent.functions call hown hne hevent] at hv

def StoresAt (info : R → RecordInfo) (s : PlannerState R) (memtable : UInt64 → Option R) : Prop :=
  ∀ addr r, memtable addr = some r → (info r).isStore ∧ addr ∈ s.sets r vcAddrIndex

omit [DecidableEq R] in
theorem StoresAt.mono {s' : PlannerState R} {memtable : UInt64 → Option R}
    (h : StoresAt info s memtable) (hsets : ∀ r i, ∀ v ∈ s.sets r i, v ∈ s'.sets r i) :
    StoresAt info s' memtable := fun addr r hr => ⟨(h addr r hr).1, hsets _ _ _ (h addr r hr).2⟩

theorem StoresAt.put {memtable : UInt64 → Option R} {call : Call R}
    (h : StoresAt info (call.exec info s) memtable) (haddressed : Addressed info s)
    (hown : call.OnOwnRecord info) :
    StoresAt info (call.exec info s) (call.putMemtable memtable) := by
  have hput : ∀ addr, call.address = some addr → (info call.record).isStore →
      StoresAt info (call.exec info s) (Function.update memtable addr (some call.record)) := by
    intro addr haddr hstore a r hr
    by_cases heq : a = addr
    · subst heq
      rw [Function.update_self] at hr
      obtain rfl := Option.some.inj hr
      exact ⟨hstore, mem_sets_exec haddressed haddr⟩
    · rw [Function.update_of_ne heq] at hr
      exact h a r hr
  cases call with
  | store record addr => exact hput addr rfl (.inl hown)
  | rmw record addr => exact hput addr rfl (.inr hown)
  | _ => exact h

theorem readDependences_exec (h : ReadInv info s) {memtable : UInt64 → Option R}
    (hmem : StoresAt info s memtable) {call : Call R} (hown : call.OnOwnRecord info)
    (hreads : call.ReadsMemtable memtable) : ReadDependences info (call.exec info s) := by
  obtain ⟨hgrows, t, hadds, hafter⟩ := exec_cases h.consistent call hown
  obtain ⟨deps, rfl, hdeps⟩ := hadds
  have hsets : ∀ r i, ∀ v ∈ s.sets r i, v ∈ (call.exec info s).sets r i :=
    fun r i v hv => hafter.sets r i v (hgrows.sets r i v hv)
  intro r dep hdep hindex hload
  rw [hafter.eprecorddep] at hdep
  rcases hdeps r dep hdep with hold | ⟨hrecord, hfeeds⟩
  · rw [hgrows.eprecorddep] at hold
    have hbefore := h.dependences r dep hold hindex hload
    exact ⟨hbefore.1, hbefore.2.mono hsets⟩
  · rw [hrecord] at hload ⊢
    rw [hindex] at hfeeds
    have hrf : ∀ {rf addr mcids}, ContextEdge rf addr mcids r vcRfIndex → rf = some r := by
      rintro rf addr mcids (⟨hrf, -⟩ | ⟨-, hidx⟩ | ⟨k, -, hidx⟩)
      · exact hrf
      · exact absurd hidx (by decide)
      · exact absurd hidx (by simp only [vcRfIndex, vcBaseIndex]; omega)
    have hread : ∀ addr, call.address = some addr → memtable addr = some r →
        (info r).isStore ∧ SharesAddress (call.exec info s) r call.record := by
      intro addr haddr hwriter
      have hstore := hmem addr r hwriter
      exact ⟨hstore.1, addr, hsets _ _ _ hstore.2, mem_sets_exec h.addressed haddr⟩
    cases call with
    | load record addr rf idAddr => exact hread addr rfl (hreads ▸ hrf hfeeds)
    | rmw record addr len currval oldval valarg rf => exact hread addr rfl (hreads ▸ hrf hfeeds)
    | store record addr => exact absurd (hrf hfeeds) (by simp)
    | function record inputs => exact absurd (hrf hfeeds) (by simp)
    | phi record input => exact absurd (hrf hfeeds) (by simp)
    | equals record op1 op2 => exact absurd (hrf hfeeds) (by simp)
    | branchDir record dirid => exact absurd (hrf hfeeds) (by simp)

end Call

/-! ## Runs -/

/-- The states of runs with their `memtable`, which every run starts empty.  The changes that
`processChanges` handles meet a condition. -/
inductive MemoryRun {R : Type} [DecidableEq R] (info : R → RecordInfo)
    (changeOk : PlannerState R → MCChange R → Prop) : PlannerState R → (UInt64 → Option R) → Prop
  | empty : MemoryRun info changeOk .empty fun _ => none
  | start {s : PlannerState R} {memtable : UInt64 → Option R}
      (h : MemoryRun info changeOk s memtable) : MemoryRun info changeOk s fun _ => none
  | call {s : PlannerState R} {memtable : UInt64 → Option R}
      (h : MemoryRun info changeOk s memtable) (call : Call R) (hown : call.OnOwnRecord info)
      (hreads : call.ReadsMemtable memtable) :
      MemoryRun info changeOk (call.exec info s) (call.putMemtable memtable)
  | processChanges {s s' : PlannerState R} {memtable : UInt64 → Option R}
      (h : MemoryRun info changeOk s memtable) (fuel : Nat)
      (hok : s.EachChange info changeOk fuel) (hrun : s.processChanges info fuel = some s') :
      MemoryRun info changeOk s' memtable

theorem MemoryRun.processChanges_of_forall {R : Type} [DecidableEq R] {info : R → RecordInfo}
    {changeOk : PlannerState R → MCChange R → Prop} {s s' : PlannerState R}
    {memtable : UInt64 → Option R} (hany : ∀ s c, changeOk s c)
    (h : MemoryRun info changeOk s memtable) {fuel : Nat}
    (hrun : s.processChanges info fuel = some s') : MemoryRun info changeOk s' memtable :=
  .processChanges h fuel (PlannerState.eachChange_of_forall hany s fuel) hrun

open PlannerState in
theorem MemoryRun.readInv {R : Type} [DecidableEq R] {info : R → RecordInfo}
    {s : PlannerState R} {memtable : UInt64 → Option R}
    (h : MemoryRun info (ReturnsStored info) s memtable) :
    ReadInv info s ∧ Call.StoresAt info s memtable := by
  induction h with
  | empty =>
    refine ⟨⟨consistent_empty, PlannerReachable.empty.addressed, ?_, ?_⟩, ?_⟩
    · exact fun _ _ _ hv => absurd hv List.not_mem_nil
    · exact fun _ _ hdep => absurd hdep List.not_mem_nil
    · exact fun _ _ hr => absurd hr (by simp)
  | start _ ih => exact ⟨ih.1, fun _ _ hr => absurd hr (by simp)⟩
  | @call s memtable _ call hown hreads ih =>
    obtain ⟨hgrows, t, hadds, hafter⟩ := Call.exec_cases ih.1.consistent call hown
    obtain ⟨deps, rfl, -⟩ := hadds
    refine ⟨⟨Call.consistent_exec ih.1.consistent call hown,
      Call.addressed_exec ih.1.addressed call hown, Call.readsStored_exec ih.1 hown,
      Call.readDependences_exec ih.1 ih.2 hown hreads⟩, ?_⟩
    apply Call.StoresAt.put _ ih.1.addressed hown
    exact ih.2.mono fun r i v hv => hafter.sets r i v (hgrows.sets r i v hv)
  | processChanges _ fuel hok hrun ih =>
    exact ⟨ih.1.processChanges hok hrun, ih.2.mono (subset_processChanges hrun).sets⟩

/-- In the states of such a run no value that a load reads is invented. -/
theorem read_from_store {R : Type} [DecidableEq R] {info : R → RecordInfo} {s : PlannerState R}
    {memtable : UInt64 → Option R}
    (h : MemoryRun info (PlannerState.ReturnsStored info) s memtable) {l : R}
    (hl : (info l).event = .load) {val : UInt64} (hval : val ∈ s.sets l vcRfIndex) :
    ∃ store, (info store).isStore ∧ store ≠ l ∧ PlannerState.SharesAddress s store l ∧
      val ∈ s.getStoreSet info store := by
  obtain ⟨store, hstore, hshares, hstored⟩ := h.readInv.1.reads l (.inl hl) val hval
  refine ⟨store, hstore, ?_, hshares, hstored⟩
  rintro rfl
  rcases hstore with hstore | hstore <;> exact absurd (hl.symm.trans hstore) (by decide)

/-- Records 0 and 4 are stores, 1 adds to a word and 2 and 3 are loads. -/
def addThenLoadInfo (r : Fin 5) : RecordInfo :=
  ⟨if r = 0 ∨ r = 4 then .store else if r = 1 then .rmw else .load, 0, .add, false, 0⟩

/-- A run that stores 7, adds 1, loads the sum and stores 5 at the same address. -/
def addToStored : PlannerState (Fin 5) :=
  (Call.store 4 16 5 8 none none).exec addThenLoadInfo
    ((Call.load 2 16 (some 1) none).exec addThenLoadInfo
      ((Call.rmw 1 16 8 7 0 1 (some 0) none none none).exec addThenLoadInfo
        ((Call.store 0 16 7 8 none none).exec addThenLoadInfo .empty)))

/-- The 8 that the load reads is what the RMW stores. -/
theorem read_from_store_addToStored :
    ∃ s, addToStored.processChanges addThenLoadInfo 20 = some s ∧
      ∃ store, (addThenLoadInfo store).isStore ∧ store ≠ 2 ∧
        PlannerState.SharesAddress s store 2 ∧ 8 ∈ s.getStoreSet addThenLoadInfo store := by
  have hrun : MemoryRun addThenLoadInfo (PlannerState.ReturnsStored addThenLoadInfo) addToStored
      _ :=
    .call (.call (.call (.call .empty (.store 0 16 7 8 none none) (by rfl) trivial)
      (.rmw 1 16 8 7 0 1 (some 0) none none none) (by rfl) (by rfl))
      (.load 2 16 (some 1) none) (by rfl) (by rfl)) (.store 4 16 5 8 none none) (by rfl) trivial
  have hok : addToStored.EachChange addThenLoadInfo (PlannerState.ReturnsStored addThenLoadInfo)
      20 := by decide +kernel
  have hread : (addToStored.processChanges addThenLoadInfo 20).any (fun s =>
      (8 ∈ s.sets 2 vcRfIndex : Bool)) = true := by
    decide +kernel
  rw [Option.any_eq_true] at hread
  obtain ⟨s, hs, hval⟩ := hread
  rw [decide_eq_true_eq] at hval
  exact ⟨s, hs, read_from_store (.processChanges hrun 20 hok hs) rfl hval⟩

/-- A run that adds to the word at 16, whose address is read at 100, and loads the sum. -/
def addToLoaded : PlannerState (Fin 5) :=
  (Call.load 2 16 (some 1) none).exec addThenLoadInfo
    ((Call.rmw 1 16 8 0 0 1 none (some 3) none none).exec addThenLoadInfo
      ((Call.load 3 100 none none).exec addThenLoadInfo .empty))

def addToOther (s : PlannerState (Fin 5)) : PlannerState (Fin 5) :=
  (Call.load 2 16 none none).exec addThenLoadInfo
    ((Call.rmw 1 24 8 7 0 1 (some 0) (some 3) none none).exec addThenLoadInfo
      ((Call.load 3 100 (some 4) none).exec addThenLoadInfo
        ((Call.store 0 24 7 8 none none).exec addThenLoadInfo
          ((Call.store 4 100 24 8 none none).exec addThenLoadInfo s))))

/-- The load is passed the 7 that the RMW has read, and only at 24 is a 7 stored. -/
theorem not_read_from_store :
    ¬ ∀ (R : Type) [DecidableEq R] (info : R → RecordInfo) (s : PlannerState R)
      (memtable : UInt64 → Option R), MemoryRun info (fun _ _ => True) s memtable →
        ∀ l, (info l).event = .load → ∀ val ∈ s.sets l vcRfIndex,
          ∃ store, (info store).isStore ∧ store ≠ l ∧ PlannerState.SharesAddress s store l ∧
            val ∈ s.getStoreSet info store := by
  intro hclaim
  have hany : ∀ s c, (fun (_ : PlannerState (Fin 5)) (_ : MCChange (Fin 5)) => True) s c :=
    fun _ _ => trivial
  have hfirst : MemoryRun addThenLoadInfo (fun _ _ => True) addToLoaded
      (Function.update (fun _ => none) 16 (some 1)) :=
    .call (.call (.call .empty (.load 3 100 none none) (by rfl) (by rfl))
      (.rmw 1 16 8 0 0 1 none (some 3) none none) (by rfl) (by rfl)) (.load 2 16 (some 1) none)
      (by rfl) (by rfl)
  have hplan : (addToLoaded.processChanges addThenLoadInfo 20).isSome = true := by decide +kernel
  obtain ⟨s, hs⟩ := Option.isSome_iff_exists.mp hplan
  have hmiss : (addToLoaded.processChanges addThenLoadInfo 20).all (fun s =>
      ((addToOther s).processChanges addThenLoadInfo 20).any fun s' =>
        (7 ∈ s'.sets 2 vcRfIndex ∧ ∀ store, (addThenLoadInfo store).event = .store ∨
          (addThenLoadInfo store).event = .rmw →
            (∃ addr ∈ s'.sets store vcAddrIndex, addr ∈ s'.sets 2 vcAddrIndex) →
              7 ∉ s'.getStoreSet addThenLoadInfo store : Bool)) = true := by
    decide +kernel
  rw [hs, Option.all_some] at hmiss
  cases hs' : (addToOther s).processChanges addThenLoadInfo 20 with
  | none => simp [hs'] at hmiss
  | some s' =>
    rw [hs', Option.any_some, decide_eq_true_eq] at hmiss
    have hsecond : MemoryRun addThenLoadInfo (fun _ _ => True) (addToOther s) _ :=
      .call (.call (.call (.call (.call
        (.start (hfirst.processChanges_of_forall hany hs))
        (.store 4 100 24 8 none none) (by rfl) trivial) (.store 0 24 7 8 none none) (by rfl)
        trivial) (.load 3 100 (some 4) none) (by rfl) (by rfl))
        (.rmw 1 24 8 7 0 1 (some 0) (some 3) none none) (by rfl) (by rfl))
        (.load 2 16 none none) (by rfl) (by rfl)
    have hrun := hsecond.processChanges_of_forall hany hs'
    obtain ⟨store, hstore, -, hshares, hval⟩ := hclaim _ _ _ _ hrun 2 rfl 7 hmiss.1
    exact hmiss.2 store hstore hshares hval

end SatCheck
