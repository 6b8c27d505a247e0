import SatCheck.PlannerSteps
/-!
# What an RMW may store

A CAS stores its new value or keeps the one it reads, and an exchange stores its operand.  The
running operation puts the operand into its slot itself, so the planner does not see it as new.
-/

namespace SatCheck

namespace PlannerState

variable {R : Type} [DecidableEq R] {info : R → RecordInfo} {s s' : PlannerState R} {m : R}

/-- The store set of the record has what it may store. -/
structure StoresKnown (info : R → RecordInfo) (s : PlannerState R) (m : R) : Prop where
  operand : (info m).op ≠ .add → ∀ v ∈ s.sets m vcBaseIndex, v ∈ s.sets m vcRmwoutIndex
  read : (info m).op = .cas → ∀ v ∈ s.sets m vcRfIndex, v ∈ s.sets m vcRmwoutIndex

/-- This holds of all RMWs. -/
def StoresClosed (info : R → RecordInfo) (s : PlannerState R) : Prop :=
  ∀ m, (info m).event = .rmw → StoresKnown info s m

/-! ## Register operations -/

omit [DecidableEq R] in
theorem storeIndex_of_rmw (hevent : (info m).event = .rmw) :
    (info m).storeIndex = vcRmwoutIndex := if_pos hevent

variable (info) in
private theorem mem_sets_doRMWRFChange (s : PlannerState R) (m : R) (val : UInt64) (i : Nat)
    (v : UInt64) :
    v ∈ (s.doRMWRFChange info m val).sets m i ↔
      v ∈ s.sets m i ∨ (info m).op = .cas ∧ i = (info m).storeIndex ∧ v = val := by
  unfold doRMWRFChange
  simp only
  split_ifs with hcas hmem
  · simp only [addChange, hcas, true_and, iff_self_or]
    rintro ⟨rfl, rfl⟩
    exact hmem
  · show v ∈ ((s.addChange _).addValue m (info m).storeIndex val).sets m i ↔ _
    rw [mem_sets_addValue]
    simp [addChange, hcas]
  · simp [addChange, hcas]

variable (info) in
theorem mem_sets_doRMWBaseChange (s : PlannerState R) (m : R) (val : UInt64) (i : Nat)
    (v : UInt64) :
    v ∈ (s.doRMWBaseChange info m val).sets m i ↔
      v ∈ s.sets m i ∨ (info m).op = .cas ∧ i = (info m).storeIndex ∧ v = val := by
  unfold doRMWBaseChange
  split_ifs with hcas hmem
  · simp only [hcas, true_and, iff_self_or]
    rintro ⟨rfl, rfl⟩
    exact hmem
  · show v ∈ (s.addValue m (info m).storeIndex val).sets m i ↔ _
    rw [mem_sets_addValue]
    simp [hcas]
  · simp [hcas]

theorem StoresKnown.doRMWRFChange (h : StoresKnown info s m) (hevent : (info m).event = .rmw)
    (val : UInt64) :
    StoresKnown info ((s.addValue m vcRfIndex val).doRMWRFChange info m val) m := by
  have hmem := fun i v => mem_sets_doRMWRFChange info (s.addValue m vcRfIndex val) m val
    i v
  simp only [storeIndex_of_rmw hevent, mem_sets_addValue, true_and] at hmem
  constructor
  · intro hop v hv
    have hold : v ∈ s.sets m vcBaseIndex := by
      simpa [vcBaseIndex, vcRfIndex, vcRmwoutIndex] using (hmem _ v).mp hv
    exact (hmem _ v).mpr (.inl (.inl (h.operand hop v hold)))
  · intro hop v hv
    have hcases : v ∈ s.sets m vcRfIndex ∨ v = val := by
      simpa [vcBaseIndex, vcRfIndex, vcRmwoutIndex] using (hmem _ v).mp hv
    rcases hcases with hold | rfl
    · exact (hmem _ v).mpr (.inl (.inl (h.read hop v hold)))
    · exact (hmem _ v).mpr (.inr ⟨hop, rfl, rfl⟩)

theorem StoresKnown.registerRMWRead (h : StoresKnown info s m) (hevent : (info m).event = .rmw)
    (val : UInt64) : StoresKnown info (s.registerRMWRead info m val) m := by
  unfold PlannerState.registerRMWRead
  split_ifs
  · exact h
  · exact h.doRMWRFChange hevent val

omit [DecidableEq R] in
theorem StoresKnown.foldl {α : Type*} {f : PlannerState R → α → PlannerState R} (l : List α)
    (hf : ∀ s x, StoresKnown info s m → StoresKnown info (f s x) m)
    (h : StoresKnown info s m) : StoresKnown info (l.foldl f s) m := by
  induction l generalizing s with
  | nil => exact h
  | cons x l ih => exact ih (hf s x h)

theorem StoresKnown.addValue (h : StoresKnown info s m) {index : Nat} (val : UInt64)
    (hbase : index ≠ vcBaseIndex) (hread : index ≠ vcRfIndex) :
    StoresKnown info (s.addValue m index val) m := by
  constructor
  · intro hop v hv
    have hold := (mem_sets_addValue.mp hv).resolve_right fun h => hbase h.2.1.symm
    exact mem_sets_addValue.mpr (.inl (h.operand hop v hold))
  · intro hop v hv
    have hold := (mem_sets_addValue.mp hv).resolve_right fun h => hread h.2.1.symm
    exact mem_sets_addValue.mpr (.inl (h.read hop v hold))

/-- An operand comes into the store set of a CAS; the one of an exchange has to be there. -/
theorem StoresKnown.doRMWBaseChange (h : StoresKnown info s m) (hevent : (info m).event = .rmw)
    {val : UInt64} (hexc : (info m).op = .exc → val ∈ s.sets m vcRmwoutIndex) :
    StoresKnown info ((s.addValue m vcBaseIndex val).doRMWBaseChange info m val) m := by
  have hmem := fun i v => mem_sets_doRMWBaseChange info (s.addValue m vcBaseIndex val) m
    val i v
  simp only [storeIndex_of_rmw hevent, mem_sets_addValue, true_and] at hmem
  constructor
  · intro hop v hv
    have hcases : v ∈ s.sets m vcBaseIndex ∨ v = val := by
      simpa [vcBaseIndex, vcRfIndex, vcRmwoutIndex] using (hmem _ v).mp hv
    rcases hcases with hold | rfl
    · exact (hmem _ v).mpr (.inl (.inl (h.operand hop v hold)))
    · cases hcase : (info m).op with
      | add => exact absurd hcase hop
      | cas => exact (hmem _ v).mpr (.inr ⟨hcase, rfl, rfl⟩)
      | exc => exact (hmem _ v).mpr (.inl (.inl (hexc hcase)))
  · intro hop v hv
    have hold : v ∈ s.sets m vcRfIndex := by
      simpa [vcBaseIndex, vcRfIndex, vcRmwoutIndex] using (hmem _ v).mp hv
    exact (hmem _ v).mpr (.inl (.inl (h.read hop v hold)))

theorem StoresKnown.registerRMWValue (h : StoresKnown info s m) (hevent : (info m).event = .rmw)
    {val : UInt64} {index : Nat} (hindex : index < vcRmwoutIndex)
    (hexc : (info m).op = .exc → index = vcBaseIndex → val ∉ s.sets m vcBaseIndex →
      val ∈ s.sets m vcRmwoutIndex) :
    StoresKnown info (s.registerRMWValue info m val index) m := by
  unfold PlannerState.registerRMWValue
  simp only
  split_ifs with hknown
  · exact h
  · split
    · unfold doRMWNewAddrChange
      simp only
      apply StoresKnown.foldl
      · intro t store ht
        split_ifs
        · exact StoresKnown.foldl _ (fun t stval ht => ht.registerRMWRead hevent stval) ht
        · exact ht
      · have haddr : StoresKnown info (s.addValue m vcAddrIndex
            (shiftAddress info m val vcAddrIndex)) m := h.addValue _ (by decide) (by decide)
        exact ⟨haddr.operand, haddr.read⟩
    · exact h.doRMWRFChange hevent _
    · rw [shiftAddress_of_ne (by decide)] at hknown ⊢
      exact h.doRMWBaseChange hevent fun hop => hexc hop rfl hknown
    next hne hne' hne'' => exact h.addValue _ hne'' hne'

/-! ## Processing a change -/

def ExchangesStore (info : R → RecordInfo) (s : PlannerState R) (c : MCChange R) : Prop :=
  IsReturn info c → ∀ dep ∈ s.eprecorddep c.record, (info dep.1).event = .rmw →
    (info dep.1).op = .exc → dep.2 = vcBaseIndex → c.value ∉ s.sets dep.1 vcBaseIndex →
      c.value ∈ s.sets dep.1 vcRmwoutIndex

omit [DecidableEq R] in
theorem StoresKnown.congr (h : StoresKnown info s m) (hsets : s'.sets m = s.sets m) :
    StoresKnown info s' m := by
  constructor
  · rw [hsets]
    exact h.operand
  · rw [hsets]
    exact h.read

theorem StoresClosed.registers {c : MCChange R} {s₀ : PlannerState R} (h : StoresClosed info s₀)
    (hcons : Consistent info s₀) (hok : ExchangesStore info s₀ c)
    (hsteps : Registers info c s₀ s) : Grows info s₀ s ∧ StoresClosed info s := by
  induction hsteps with
  | refl => exact ⟨Grows.refl info s₀, h⟩
  | @tail t _ _ hlast ih =>
    obtain ⟨hgrows, hclosed⟩ := ih
    obtain ⟨record, val, index, hcall, rfl⟩ := hlast
    have hindex := hcall.inputIndex (hcons.grows hgrows)
    refine ⟨hgrows.trans (grows_registerValue val hindex), fun m hm => ?_⟩
    by_cases hne : m = record
    · subst hne
      have heq : t.registerValue info m val index = t.registerRMWValue info m val index := by
        simp [registerValue, hm]
      rw [heq]
      simp only [RecordInfo.InputIndex, hm] at hindex
      apply (hclosed m hm).registerRMWValue hm hindex
      intro hop hbase hnew
      cases hcall with
      | @dependence dep hreturn hdep =>
        rw [hgrows.eprecorddep] at hdep
        apply hgrows.sets
        apply hok hreturn dep hdep hm hop hbase
        exact fun hmem => hnew (hgrows.sets _ _ _ hmem)
      | _ => exact absurd hbase (by decide)
    · exact (hclosed m hm).congr
        ((RegisterSteps.registerValue info record t val index).sets_of_ne hne)

theorem StoresClosed.processNext {c : MCChange R} (h : StoresClosed info s)
    (hcons : Consistent info s) (hok : c ∉ s.completedset → ExchangesStore info s c) :
    StoresClosed info (s.processNext info c) := by
  unfold PlannerState.processNext
  simp only
  split_ifs with hdone
  · exact fun m hm => (h m hm).congr rfl
  · have hregisters := Registers.processChange info { s with changeset := s.changeset.erase c } c
    have herase : StoresClosed info { s with changeset := s.changeset.erase c } :=
      fun m hm => (h m hm).congr rfl
    have hclosed := (herase.registers (hcons.erase c) (hok hdone) hregisters).2
    exact fun m hm => (hclosed m hm).congr rfl

theorem StoresClosed.processChanges (h : StoresClosed info s) (hcons : Consistent info s)
    {fuel : Nat} (hok : s.EachChange info (ExchangesStore info) fuel)
    (hrun : s.processChanges info fuel = some s') : Consistent info s' ∧ StoresClosed info s' := by
  have hnext : ∀ (t : PlannerState R) c, Consistent info t ∧ StoresClosed info t →
      c ∈ t.changeset → (c ∉ t.completedset → ExchangesStore info t c) →
      Consistent info (t.processNext info c) ∧ StoresClosed info (t.processNext info c) :=
    fun t c ht hc hok => ⟨ht.1.processNext hc, ht.2.processNext ht.1 hok⟩
  obtain ⟨t, ⟨-, ht⟩, -, rfl⟩ := processChanges_induction_of hnext ⟨hcons, h⟩ hok hrun
  exact ⟨hcons.processChanges hrun, fun m hm => (ht m hm).congr rfl⟩

end PlannerState

/-! ## Runs -/

namespace Call

open PlannerState

variable {R : Type} [DecidableEq R] {info : R → RecordInfo} {s : PlannerState R}

/-- The operand of a CAS or an exchange fits into the word and is stored, or has been before. -/
def StoresOperand (info : R → RecordInfo) (s : PlannerState R) : Call R → Prop
  | rmw record _ len currval oldval valarg .. => (info record).op ≠ .add →
      valarg ∈ s.sets record vcRmwoutIndex ∨
        valarg &&& getmask len = valarg ∧
          ((info record).op = .cas → currval = oldval ∨ currval = valarg)
  | _ => True

private theorem dormwaction_eq {op : AtomicOp} {len : Nat} {currval oldval valarg : UInt64}
    (hop : op ≠ .add) (hfits : valarg &&& getmask len = valarg)
    (hcas : op = .cas → currval = oldval ∨ currval = valarg) :
    dormwaction op len currval oldval valarg = valarg := by
  unfold dormwaction
  cases op with
  | add => exact absurd rfl hop
  | cas =>
    simp only
    rcases hcas rfl with rfl | rfl
    · rw [if_pos rfl, hfits]
    · rw [ite_self, hfits]
  | exc => exact hfits

theorem storesClosed_exec (h : StoresClosed info s) (hcons : Consistent info s) {call : Call R}
    (hown : call.OnOwnRecord info) (hok : call.StoresOperand info s) :
    StoresClosed info (call.exec info s) := by
  intro m hm
  by_cases hrecord : m = call.record
  · subst hrecord
    cases call with
    | rmw record addr len currval oldval valarg rf idAddr idValue idOldvalue =>
      have hmem : ∀ i v, v ∈ (s.rmw info record addr len currval oldval valarg rf idAddr idValue
          idOldvalue).sets record i ↔ _ :=
        mem_sets_rmw s record addr len currval oldval valarg rf idAddr idValue idOldvalue
      have hold : StoresKnown info s record := h record hm
      constructor
      · intro hop v hv
        have hcases : v ∈ s.sets record vcBaseIndex ∨ v = valarg := by
          simpa [vcBaseIndex, vcAddrIndex, vcOldvalcasIndex, vcRmwoutIndex] using
            (hmem vcBaseIndex v).mp hv
        apply (hmem vcRmwoutIndex v).mpr
        rcases hcases with hv | rfl
        · exact .inl (hold.operand hop v hv)
        · rcases hok hop with hstored | ⟨hfits, hcas⟩
          · exact .inl hstored
          · exact .inr (.inr (.inr (.inr ⟨rfl, (dormwaction_eq hop hfits hcas).symm⟩)))
      · intro hop v hv
        have hread : v ∈ s.sets record vcRfIndex := by
          simpa [vcRfIndex, vcBaseIndex, vcAddrIndex, vcOldvalcasIndex, vcRmwoutIndex] using
            (hmem vcRfIndex v).mp hv
        exact (hmem vcRmwoutIndex v).mpr (.inl (hold.read hop v hread))
    | function record inputs len val => exact absurd (hown.1.symm.trans hm) (by decide)
    | phi record input => exact absurd (hown.1.symm.trans hm) (by decide)
    | _ => exact absurd (hown.symm.trans hm) (by decide)
  · exact (h m hm).congr (sets_of_ne hcons.functions call hown hrecord (by simp [hm]))

end Call

/-- The states of runs in which every CAS and exchange stores its operands. -/
abbrev StoringReachable {R : Type} [DecidableEq R] (info : R → RecordInfo) :
    PlannerState R → Prop :=
  PlannerRun info (fun s call => call.StoresOperand info s) (PlannerState.ExchangesStore info)

open PlannerState in
theorem StoringReachable.storesClosed {R : Type} [DecidableEq R] {info : R → RecordInfo}
    {s : PlannerState R} (h : StoringReachable info s) :
    Consistent info s ∧ StoresClosed info s := by
  induction h with
  | empty =>
    refine ⟨consistent_empty, fun m _ => ?_⟩
    constructor <;> exact fun _ v hv => absurd hv List.not_mem_nil
  | call _ call hown hok ih =>
    exact ⟨call.consistent_exec ih.1 hown, Call.storesClosed_exec ih.2 ih.1 hown hok⟩
  | processChanges _ fuel hok hrun ih => exact ih.2.processChanges ih.1 hok hrun

/-- After every call of `processChanges` of such a run. -/
theorem storesClosed_processChanges {R : Type} [DecidableEq R] {info : R → RecordInfo}
    {s s' : PlannerState R} (h : StoringReachable info s) {fuel : Nat}
    (hok : s.EachChange info (PlannerState.ExchangesStore info) fuel)
    (hrun : s.processChanges info fuel = some s') : PlannerState.StoresClosed info s' :=
  (h.storesClosed.2.processChanges h.storesClosed.1 hok hrun).2

open scoped FewRecords

def storeThenCasInfo (r : Fin 2) : RecordInfo :=
  ⟨if r = 0 then .store else .rmw, 0, .cas, false, 0⟩

/-- A run that stores 0 and compares the word with `oldval` to write 9. -/
def storeThenCas (oldval : UInt64) : PlannerState (Fin 2) :=
  (Call.rmw 1 16 8 0 oldval 9 (some 0) none none none).exec storeThenCasInfo
    ((Call.store 0 16 0 8 none none).exec storeThenCasInfo .empty)

/-- The comparison succeeds. -/
theorem storesClosed_storeThenCas :
    ∃ s', (storeThenCas 0).processChanges storeThenCasInfo 9 = some s' ∧
      PlannerState.StoresClosed storeThenCasInfo s' := by
  have hstore : StoringReachable storeThenCasInfo
      ((Call.store 0 16 0 8 none none).exec storeThenCasInfo .empty) :=
    .call .empty (.store 0 16 0 8 none none) (by rfl) trivial
  have hcas := PlannerRun.call hstore (.rmw 1 16 8 0 0 9 (some 0) none none none) (by rfl)
    fun _ => .inr ⟨by decide, fun _ => .inl rfl⟩
  have hok : ∀ s c, PlannerState.ExchangesStore storeThenCasInfo s c := by
    intro s c _ dep _ _ hexc
    exact absurd (show AtomicOp.cas = .exc from hexc) (by decide)
  have hsome : ((storeThenCas 0).processChanges storeThenCasInfo 9).isSome = true := by
    decide +kernel
  obtain ⟨s', hs'⟩ := Option.isSome_iff_exists.mp hsome
  exact ⟨s', hs', storesClosed_processChanges hcas (PlannerState.eachChange_of_forall hok _ 9) hs'⟩

/-- The comparison fails: the new value is an operand that is not stored. -/
theorem not_storesClosed :
    ¬ ∀ (R : Type) [DecidableEq R] (info : R → RecordInfo) (s s' : PlannerState R) (fuel : Nat),
      PlannerReachable info s → s.processChanges info fuel = some s' →
        PlannerState.StoresClosed info s' := by
  intro hclaim
  have hreach : PlannerReachable storeThenCasInfo (storeThenCas 5) :=
    .call (.call .empty (.store 0 16 0 8 none none) (by rfl))
      (.rmw 1 16 8 0 5 9 (some 0) none none none) (by rfl)
  have hmiss : ((storeThenCas 5).processChanges storeThenCasInfo 9).any (fun s' =>
      (9 ∈ s'.sets 1 vcBaseIndex ∧ 9 ∉ s'.sets 1 vcRmwoutIndex : Bool)) = true := by
    decide +kernel
  cases hs' : (storeThenCas 5).processChanges storeThenCasInfo 9 with
  | none => simp [hs'] at hmiss
  | some s' =>
    rw [hs', Option.any_some, decide_eq_true_eq] at hmiss
    exact hmiss.2 (((hclaim _ _ _ _ _ hreach hs') 1 rfl).operand (by decide) 9 hmiss.1)

end SatCheck
