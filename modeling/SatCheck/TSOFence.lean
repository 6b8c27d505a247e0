import SatCheck.OutsideBranches
import SatCheck.TSOOrder
import Mathlib.Data.List.Nodup
/-!
# Fences, TSO build

A fence that always runs takes the order variables of the pairs around it away.  For any other
one `processFence` prints a single clause, about the last store before it and the first load
behind it.
-/

namespace SatCheck

/-- What `ConstGen` asks the records of a graph about. -/
def EventGraph.facts (g : EventGraph) (execcondtable : ExecPoint → Option (List ExecPoint)) :
    ActionFacts where
  getType record := (g.getType record).getD .function
  isAlwaysExecuted record :=
    ((execcondtable record).getD []).isEmpty && (g.getBranch record).isNone

/-- The records that `visitRecord` inserts, TSO build. -/
def EventGraph.isAction (g : EventGraph) (record : ExecPoint) : Bool :=
  g.getType record = some .load ∨ g.getType record = some .store ∨
    g.getType record = some .rmw ∨ g.getType record = some .fence

namespace TSO

open Constraint OrderTable

variable (facts : ActionFacts) (links : ThreadLinks)

/-- The first loop of `processFence`: the last store up to the record, and what is behind the
record. -/
def findPrevStore (record : ExecPoint) :
    Option ExecPoint → List ExecPoint → Option ExecPoint × List ExecPoint
  | prevstore, [] => (prevstore, [])
  | prevstore, oldrec :: tvec =>
    let prevstore := if facts.getType oldrec = .store then some oldrec else prevstore
    if oldrec = record then (prevstore, tvec) else findPrevStore record prevstore tvec

/-- `processFence`, with `getExecutionConstraint` as `condition`. -/
def processFence (condition : ExecPoint → Constraint) (s : OrderTable) (record : ExecPoint) :
    List Constraint :=
  if facts.isAlwaysExecuted record then []
  else
    match findPrevStore facts record none ((s.threadactions[record.tid]?).getD []) with
    | (none, _) => []
    | (some prevstore, later) =>
      (later.find? fun load => facts.getType load = .load).toList.map fun load =>
        .implies (condition record) (getOrderConstraint s prevstore load)

variable {facts links} {s : OrderTable} {ρ : Nat → Bool} {visits : List OrderTable.Visit}

/-! ## The clause -/

def lastStore (facts : ActionFacts) : Option ExecPoint → List ExecPoint → Option ExecPoint
  | prevstore, [] => prevstore
  | prevstore, oldrec :: tvec =>
    lastStore facts (if facts.getType oldrec = .store then some oldrec else prevstore) tvec

theorem findPrevStore_eq {record : ExecPoint} (hrecord : facts.getType record ≠ .store)
    {before : List ExecPoint} (hbefore : record ∉ before) (later : List ExecPoint)
    (prevstore : Option ExecPoint) :
    findPrevStore facts record prevstore (before ++ record :: later) =
      (lastStore facts prevstore before, later) := by
  induction before generalizing prevstore with
  | nil => simp [findPrevStore, lastStore, hrecord]
  | cons r before ih =>
    have hne : r ≠ record := fun heq => hbefore (by simp [heq])
    rw [List.cons_append, findPrevStore, if_neg hne, lastStore]
    exact ih (fun hmem => hbefore (List.mem_cons_of_mem _ hmem)) _

theorem lastStore_append (prevstore : Option ExecPoint) (xs ys : List ExecPoint) :
    lastStore facts prevstore (xs ++ ys) = lastStore facts (lastStore facts prevstore xs) ys := by
  induction xs generalizing prevstore with
  | nil => rfl
  | cons x xs ih => exact ih _

theorem lastStore_some (facts : ActionFacts) (st : ExecPoint) (mid : List ExecPoint) :
    ∃ p, lastStore facts (some st) mid = some p ∧ (p = st ∨
      ∃ mid1 mid2, mid = mid1 ++ p :: mid2 ∧ facts.getType p = .store) := by
  induction mid generalizing st with
  | nil => exact ⟨st, rfl, Or.inl rfl⟩
  | cons r mid ih =>
    by_cases hr : facts.getType r = .store
    · obtain ⟨p, hp, hcases⟩ := ih r
      refine ⟨p, by rw [lastStore, if_pos hr, hp], Or.inr ?_⟩
      rcases hcases with rfl | ⟨mid1, mid2, rfl, htype⟩
      · exact ⟨[], mid, rfl, hr⟩
      · exact ⟨r :: mid1, mid2, rfl, htype⟩
    · obtain ⟨p, hp, hcases⟩ := ih st
      refine ⟨p, by rw [lastStore, if_neg hr, hp], hcases.imp_right ?_⟩
      rintro ⟨mid1, mid2, rfl, htype⟩
      exact ⟨r :: mid1, mid2, rfl, htype⟩

private theorem find_load {l : ExecPoint} (hl : facts.getType l = .load)
    (mid post : List ExecPoint) :
    ∃ l0, (mid ++ l :: post).find? (fun load => facts.getType load = .load) = some l0 ∧
      facts.getType l0 = .load ∧ (l0 = l ∨ ∃ mid1 mid2, mid = mid1 ++ l0 :: mid2) := by
  induction mid with
  | nil => exact ⟨l, by simp [hl], hl, Or.inl rfl⟩
  | cons r mid ih =>
    by_cases hr : facts.getType r = .load
    · exact ⟨r, by simp [hr], hr, Or.inr ⟨[], mid, rfl⟩⟩
    · obtain ⟨l0, hfind, htype, hcases⟩ := ih
      refine ⟨l0, by simpa [hr] using hfind, htype, hcases.imp_right ?_⟩
      rintro ⟨mid1, mid2, rfl⟩
      exact ⟨r :: mid1, mid2, rfl⟩

/-- In a buffer that is first in, first out the clause of a fence orders all stores before it
before all loads behind it. -/
theorem order_of_clause (hfifo : Fifo facts s ρ) {vec pre mid mid' post : List ExecPoint}
    {st f l : ExecPoint} {condition : ExecPoint → Constraint} (hvec : vec ∈ s.threadactions)
    (hthread : (s.threadactions[f.tid]?).getD [] = vec)
    (hsplit : vec = pre ++ st :: mid ++ f :: mid' ++ l :: post) (hnodup : vec.Nodup)
    (hst : facts.getType st = .store) (hf : facts.getType f ≠ .store)
    (hl : facts.getType l = .load) (halways : facts.isAlwaysExecuted f = false)
    (hnofence : NoFence facts (mid ++ f :: mid'))
    (hclause : ∀ c ∈ processFence facts condition s f, eval ρ c = true)
    (hcondition : eval ρ (condition f) = true) :
    eval ρ (getOrderConstraint s st l) = true := by
  have hbefore : f ∉ pre ++ st :: mid := by
    intro hmem
    rw [hsplit, List.append_assoc, List.cons_append] at hnodup
    exact (List.nodup_append.mp hnodup).2.2 f hmem f List.mem_cons_self rfl
  obtain ⟨p, hp, hpcases⟩ := lastStore_some facts st mid
  obtain ⟨l0, hfind, hl0, hlcases⟩ := find_load hl mid' post
  have hprev : findPrevStore facts f none vec = (some p, mid' ++ l :: post) := by
    rw [hsplit, List.append_assoc, List.cons_append, findPrevStore_eq hf hbefore,
      lastStore_append, lastStore, if_pos hst, hp]
  have hpair : eval ρ (getOrderConstraint s p l0) = true := by
    have hmem : .implies (condition f) (getOrderConstraint s p l0) ∈
        processFence facts condition s f := by
      unfold processFence
      rw [halways, hthread, hprev]
      simp [hfind]
    simpa [hcondition] using hclause _ hmem
  have hlater : ∃ m post', vec = pre ++ st :: mid ++ f :: m ++ l0 :: post' ∧ NoFence facts m ∧
      (l0 = l ∨ ∃ m', post' = m' ++ l :: post ∧ NoFence facts m') := by
    rcases hlcases with rfl | ⟨m, m', rfl⟩
    · exact ⟨mid', post, hsplit, fun r hr => hnofence r (by simp [hr]), Or.inl rfl⟩
    · exact ⟨m, m' ++ l :: post, by simpa using hsplit, fun r hr => hnofence r (by simp [hr]),
        Or.inr ⟨m', rfl, fun r hr => hnofence r (by simp [hr])⟩⟩
  obtain ⟨m, post', hsplit', hm, hlast⟩ := hlater
  have hmid : NoFence facts mid := fun r hr => hnofence r (by simp [hr])
  have hfence : facts.isFence f = false := hnofence f (by simp)
  have hstore : eval ρ (getOrderConstraint s st l0) = true := by
    rcases hpcases with rfl | ⟨mid1, mid2, rfl, hptype⟩
    · exact hpair
    · apply hfifo.earlystore vec hvec st p l0 _ hpair
      refine ⟨pre, mid1, mid2 ++ f :: m, post', by simpa using hsplit', hst, hptype, hl0, ?_, ?_⟩
      · exact fun r hr => hmid r (by simp [hr])
      · intro r hr
        rcases List.mem_append.mp hr with hr | hr
        · exact hmid r (by simp [hr])
        · rcases List.mem_cons.mp hr with rfl | hr
          · exact hfence
          · exact hm r hr
  rcases hlast with rfl | ⟨m', rfl, hm'⟩
  · exact hstore
  · apply hfifo.earlyload vec hvec st l0 l _ hstore
    refine ⟨pre, mid ++ f :: m, m', post, by simpa using hsplit', hst, hl0, hl, ?_, hm'⟩
    intro r hr
    rcases List.mem_append.mp hr with hr | hr
    · exact hmid r hr
    · rcases List.mem_cons.mp hr with rfl | hr
      · exact hfence
      · exact hm r hr

/-! ## Pairs without an order variable -/

theorem Reaches.append {vec : List ExecPoint} {st load : ExecPoint} (h : Reaches facts vec st load)
    (record : ExecPoint) : Reaches facts (vec ++ [record]) st load := by
  obtain ⟨pre, between, post, hsplit, hrest⟩ := h
  exact ⟨pre, between, post ++ [record], by simp [hsplit], hrest⟩

/-- An entry for a pair of one thread is one of a load, with a store since the last fence that
always runs. -/
def OwnPairs (facts : ActionFacts) (s : OrderTable) : Prop :=
  ∀ p ∈ s.rpt, p.epr1.tid = p.epr2.tid →
    Reaches facts ((s.threadactions[p.epr2.tid]?).getD []) p.epr1 p.epr2

theorem reaches_of_mem {vec : List ExecPoint} {st load : ExecPoint}
    (hload : facts.getType load = .load)
    (h : st ∈ (vec.reverse.takeWhile fun r => !facts.isFence r).filter
      fun r => facts.getType r = .store) : Reaches facts (vec ++ [load]) st load := by
  obtain ⟨htake, hstore⟩ := List.mem_filter.mp h
  obtain ⟨xs, ys, hsplit⟩ := List.append_of_mem htake
  obtain ⟨rest, hrest⟩ : ∃ rest,
      vec.reverse = (vec.reverse.takeWhile fun r => !facts.isFence r) ++ rest :=
    ⟨_, List.takeWhile_append_dropWhile.symm⟩
  rw [hsplit] at hrest
  refine ⟨(ys ++ rest).reverse, xs.reverse, [], ?_, by simpa using hstore, hload, ?_⟩
  · rw [← List.reverse_reverse vec, hrest]
    simp
  · intro r hr
    have hall := List.all_takeWhile (p := fun r => !facts.isFence r) (l := vec.reverse)
    rw [hsplit, List.all_eq_true] at hall
    simpa using hall r (List.mem_append_left _ (List.mem_reverse.mp hr))

theorem OwnPairs.insertAction (h : OwnPairs facts s) (hwf : WellFormed links s)
    (record : ExecPoint) : OwnPairs facts (TSO.insertAction facts links s record) := by
  have hpushed : ∀ (t : Nat) (st load : ExecPoint),
      Reaches facts ((s.threadactions[t]?).getD []) st load →
      Reaches facts (((pushAction s.threadactions record)[t]?).getD []) st load := by
    intro t st load hreaches
    rw [pushAction_getD]
    split_ifs
    · exact hreaches.append record
    · simpa using hreaches
  have hother : ∀ p ∈ (s.insertAction links record).rpt, p.epr1.tid = p.epr2.tid →
      Reaches facts (((pushAction s.threadactions record)[p.epr2.tid]?).getD [])
        p.epr1 p.epr2 := by
    intro p hp htid
    rw [insertAction_eq] at hp
    rcases mem_rpt_createAll hp with hp | ⟨hp1, hp2⟩
    · exact hpushed _ _ _ (h p hp htid)
    · -- the other actions are those of the other threads
      obtain ⟨⟨vec, t⟩, hvec, hmem⟩ := List.mem_flatMap.mp hp1
      obtain ⟨hzip, hne⟩ := List.mem_filter.mp hvec
      rw [List.mk_mem_zipIdx_iff_getElem?] at hzip
      have hthread := (hwf.byThread.pushAction record) t vec hzip _ hmem
      rw [hp2] at htid
      simp [← hthread, htid] at hne
  intro p hp htid
  rw [insertAction_threadactions]
  unfold TSO.insertAction insertTSOAction at hp
  split_ifs at hp with hload
  · exact hother p hp htid
  · rw [orderStores_eq] at hp
    rcases mem_rpt_createAll hp with hp | ⟨hp1, hp2⟩
    · exact hother p hp htid
    · have hpush : (((s.insertAction links record).threadactions[record.tid]?).getD []).dropLast =
          (s.threadactions[record.tid]?).getD [] := by
        rw [insertAction_eq, createAll_threadactions, pushAction_getD, if_pos rfl,
          List.dropLast_concat]
      rw [hpush] at hp1
      rw [hp2, pushAction_getD, if_pos rfl]
      exact reaches_of_mem (not_not.mp hload) hp1

theorem ownPairs_traverse (facts : ActionFacts) (links : ThreadLinks)
    (visits : List OrderTable.Visit) :
    OwnPairs facts (traverse facts links visits) := by
  induction visits using List.reverseRecOn with
  | nil => simp [OwnPairs, traverse, empty]
  | append_singleton visits v ih =>
    have hwf := (ordered_traverse facts links visits).wellFormed
    rw [traverse, List.foldl_append]
    cases v with
    | action record => exact ih.insertAction hwf record
    | newVars num => exact ih

theorem vectors_traverse (facts : ActionFacts) (links : ThreadLinks)
    (visits : List OrderTable.Visit)
    (t : Nat) : ((traverse facts links visits).threadactions[t]?).getD [] =
      (actions visits).filter (·.tid = t) := by
  have heq : (traverse facts links visits).threadactions =
      (OrderTable.traverse links visits).threadactions := by
    induction visits using List.reverseRecOn with
    | nil => rfl
    | append_singleton visits v ih =>
      rw [traverse, OrderTable.traverse, List.foldl_append, List.foldl_append]
      cases v with
      | action record =>
        show (insertAction facts links (traverse facts links visits) record).threadactions =
          (OrderTable.insertAction links (OrderTable.traverse links visits) record).threadactions
        rw [insertAction_threadactions, insertAction_eq, createAll_threadactions, ih]
      | newVars num => exact ih
  rw [heq]
  exact (traversed_traverse links visits).vectors t

private theorem eq_of_split {xs ys xs' ys' : List ExecPoint} {a : ExecPoint}
    (hnodup : (xs ++ a :: ys).Nodup) (h : xs ++ a :: ys = xs' ++ a :: ys') :
    xs = xs' ∧ ys = ys' := by
  have hnot := (List.nodup_cons.mp (List.nodup_middle.mp hnodup)).1
  rw [List.mem_append, not_or] at hnot
  obtain ⟨hxs, -, hys⟩ := (List.append_cons_inj_of_notMem hnot.1 hnot.2).mp h
  exact ⟨hxs, hys⟩

/-- Behind a fence that always runs there is no order variable with a store before it. -/
theorem getRecPair_of_fence (hown : OwnPairs facts s) {t : Nat} {pre mid mid' post : List ExecPoint}
    {st f l : ExecPoint} (hst : st.tid = t) (hl : l.tid = t)
    (hvec : (s.threadactions[t]?).getD [] = pre ++ st :: mid ++ f :: mid' ++ l :: post)
    (hnodup : (pre ++ st :: mid ++ f :: mid' ++ l :: post).Nodup)
    (hsttype : facts.getType st = .store) (hltype : facts.getType l = .load)
    (hf : facts.isFence f = true) : s.getRecPair st l = none := by
  rw [getRecPair, List.find?_eq_none]
  intro p hp hequals
  rcases (equals_iff p st l).mp hequals with ⟨rfl, rfl⟩ | ⟨rfl, rfl⟩
  · obtain ⟨pre', between, post', hsplit, -, -, hbetween⟩ := hown p hp (hst.trans hl.symm)
    rw [hl, hvec] at hsplit
    obtain ⟨hbefore, -⟩ := eq_of_split hnodup hsplit
    rw [List.append_assoc, List.cons_append] at hbefore
    have hnodup' := (List.nodup_append.mp hnodup).1
    rw [List.append_assoc, List.cons_append] at hnodup'
    obtain ⟨-, hmid⟩ := eq_of_split hnodup' hbefore
    have hnofence := hbetween f (by rw [← hmid]; simp)
    simp [hf] at hnofence
  · obtain ⟨-, -, -, -, hstore, -⟩ := hown p hp (hl.trans hst.symm)
    rw [hltype] at hstore
    simp at hstore

/-! ## Fences in the recorded graph -/

/-- The clauses of the fences and RMWs hold. -/
def FenceClauses (facts : ActionFacts) (condition : ExecPoint → Constraint) (s : OrderTable)
    (ρ : Nat → Bool) : Prop :=
  ∀ vec ∈ s.threadactions, ∀ f ∈ vec, facts.getType f = .fence ∨ facts.getType f = .rmw →
    ∀ c ∈ processFence facts condition s f, eval ρ c = true

theorem Fifo.of_one (st l : ExecPoint)
    (hst : ∀ vec ∈ s.threadactions, ∀ r ∈ vec, facts.getType r = .store → r = st)
    (hl : ∀ vec ∈ s.threadactions, ∀ r ∈ vec, facts.getType r = .load → r = l) :
    Fifo facts s ρ := by
  constructor
  · rintro vec hvec s1 s2 l' ⟨pre, between, between', post, rfl, hs1, hs2, -⟩ horder
    rw [hst _ hvec s1 (by simp) hs1, ← hst _ hvec s2 (by simp) hs2]
    exact horder
  · rintro vec hvec st' l1 l2 ⟨pre, between, between', post, rfl, -, hl1, hl2, -⟩ horder
    rw [hl _ hvec l2 (by simp) hl2, ← hl _ hvec l1 (by simp) hl1]
    exact horder

/-- Every store before a fence that runs is ordered before every load behind it. -/
def FenceOrdered (facts : ActionFacts) (condition : ExecPoint → Constraint) (s : OrderTable)
    (ρ : Nat → Bool) : Prop :=
  ∀ vec ∈ s.threadactions, ∀ pre st mid f mid' l post,
    vec = pre ++ st :: mid ++ f :: mid' ++ l :: post → facts.getType st = .store →
    facts.getType f = .fence ∨ facts.getType f = .rmw → facts.getType l = .load →
    eval ρ (condition f) = true → eval ρ (getOrderConstraint s st l) = true

/-- The vectors of a table have each action once, in the order of the visits. -/
structure InVectors (code : Nat → Code) (g : EventGraph) (s : OrderTable) : Prop where
  tid : ∀ t vec, s.threadactions[t]? = some vec → ∀ r : ExecPoint, r ∈ vec → r.tid = t
  inOrder : ∀ vec ∈ s.threadactions, vec.Pairwise InOrder
  typed : ∀ vec ∈ s.threadactions, ∀ r : ExecPoint, r ∈ vec → ∃ site : Site, r = site.ep r.tid ∧
    Path.Typed (code r.tid) site.path ∧ g.getBranch r = branchOf r.tid site.path

theorem InVectors.nodup {code : Nat → Code} {g : EventGraph} (h : InVectors code g s)
    {vec : List ExecPoint} (hvec : vec ∈ s.threadactions) : vec.Nodup := by
  apply (h.inOrder vec hvec).imp
  rintro a b hab rfl
  exact not_inOrder_self a hab

theorem InVectors.order_of_fence {code : Nat → Code} {g : EventGraph} (h : InVectors code g s)
    {execcondtable : ExecPoint → Option (List ExecPoint)}
    (hown : OwnPairs (g.facts execcondtable) s) {vec pre mid mid' post : List ExecPoint}
    {st f l : ExecPoint} (hvec : vec ∈ s.threadactions)
    (hsplit : vec = pre ++ st :: mid ++ f :: mid' ++ l :: post)
    (hst : (g.facts execcondtable).getType st = .store)
    (hl : (g.facts execcondtable).getType l = .load)
    (hf : (g.facts execcondtable).isFence f = true) :
    eval ρ (getOrderConstraint s st l) = true := by
  obtain ⟨t, ht⟩ := List.mem_iff_getElem?.mp hvec
  have hnodup := h.nodup hvec
  have htid : st.tid = t ∧ f.tid = t ∧ l.tid = t :=
    ⟨h.tid t vec ht st (by simp [hsplit]), h.tid t vec ht f (by simp [hsplit]),
      h.tid t vec ht l (by simp [hsplit])⟩
  have hnone : s.getRecPair st l = none :=
    getRecPair_of_fence hown htid.1 htid.2.2 (by rw [ht, Option.getD_some, hsplit])
      (hsplit ▸ hnodup) hst hl hf
  have hcompare : st.compare l = .after := by
    obtain ⟨sst, hsst, hstTyped, -⟩ := h.typed vec hvec st (by simp [hsplit])
    obtain ⟨sf, hsf, hfTyped, hbranch⟩ := h.typed vec hvec f (by simp [hsplit])
    have hnobranch : sf.path.branches = [] := by
      have hnone : branchOf f.tid sf.path = none := by
        rw [← hbranch]
        simp only [ActionFacts.isFence, EventGraph.facts, Bool.and_eq_true] at hf
        exact Option.isNone_iff_eq_none.mp hf.2.2
      exact Site.branches_eq_nil hnone
    have hpairs := h.inOrder vec hvec
    rw [hsplit] at hpairs
    obtain ⟨hbefore, -, hbehind⟩ := List.pairwise_append.mp hpairs
    have hstf : InOrder st f :=
      (List.pairwise_append.mp hbefore).2.2 st (by simp) f List.mem_cons_self
    have hfl : InOrder f l := hbehind f (by simp) l List.mem_cons_self
    rw [hsst, htid.1] at hstf ⊢
    rw [hsf, htid.2.1] at hstf hfl
    rw [htid.1] at hstTyped
    rw [htid.2.1] at hfTyped
    exact compare_of_between hstTyped hfTyped hnobranch hstf hfl htid.2.2
  unfold getOrderConstraint
  simp [hnone, htid, hcompare]

/-- The clauses and the buffer order stores and loads around every fence that runs. -/
theorem InVectors.fenceOrdered {code : Nat → Code} {g : EventGraph} (h : InVectors code g s)
    {execcondtable : ExecPoint → Option (List ExecPoint)}
    (hown : OwnPairs (g.facts execcondtable) s) {condition : ExecPoint → Constraint}
    (hclauses : FenceClauses (g.facts execcondtable) condition s ρ)
    (hfifo : Fifo (g.facts execcondtable) s ρ) :
    FenceOrdered (g.facts execcondtable) condition s ρ := by
  intro vec hvec pre st mid f mid' l post hsplit hst hf hl hcondition
  by_cases hnofence : NoFence (g.facts execcondtable) (mid ++ f :: mid')
  · obtain ⟨t, ht⟩ := List.mem_iff_getElem?.mp hvec
    have htid : f.tid = t := h.tid t vec ht f (by simp [hsplit])
    have halways : (g.facts execcondtable).isAlwaysExecuted f = false := by
      have := hnofence f (by simp)
      rcases hf with hf | hf <;> simpa [ActionFacts.isFence, hf] using this
    have hnotStore : (g.facts execcondtable).getType f ≠ .store := by
      rcases hf with hf | hf <;> simp [hf]
    exact order_of_clause hfifo hvec (by rw [htid, ht, Option.getD_some]) hsplit (h.nodup hvec)
      hst hnotStore hl halways hnofence (hclauses vec hvec f (by simp [hsplit]) hf) hcondition
  · -- a fence that always runs lies between the two
    simp only [NoFence, not_forall, Bool.not_eq_false] at hnofence
    obtain ⟨f', hmem, hf'⟩ := hnofence
    obtain ⟨m, m', hm⟩ := List.append_of_mem hmem
    have hsplit' : vec = pre ++ st :: m ++ f' :: m' ++ l :: post := by
      have hregroup : pre ++ st :: mid ++ f :: mid' ++ l :: post =
          pre ++ st :: (mid ++ f :: mid') ++ l :: post := by simp
      rw [hsplit, hregroup, hm]
      simp
    exact h.order_of_fence hown hvec hsplit' hst hl hf'

/-- The vectors of the first traversal of the graph that some runs have recorded. -/
theorem inVectors_traverse {executions : List (List (Nat × Annotation))} {code : Nat → Code}
    {creator : Nat → Option ExecPoint} (h : ∀ tid, Recorded executions tid (code tid))
    (hcreated : CreatedBy executions creator) {len : ExecPoint → Nat} {t : Nat} {first : Site}
    {g : EventGraph} (hg : g = (Recorder.empty.runs executions).graph len (first.ep t))
    (noexecyields : Bool) (n : Nat) (facts : ActionFacts) (links : ThreadLinks)
    {visits : List OrderTable.Visit}
    (hvisits : actions visits =
      (Traversal.traverse g noexecyields n).visited.filter g.isAction) :
    InVectors code g (traverse facts links visits) := by
  have hshaped : g.Shaped code creator := hg ▸ shaped_runs h hcreated len (first.ep t)
  obtain ⟨hlinked, hlogged⟩ := Recorder.logged_runs (h 0).nested
  have hlog : g.Logged (Recorder.runsLog executions) := hg ▸ hlogged len (first.ep t)
  obtain ⟨hinOrder, hsites⟩ :=
    Traversal.visited_inOrder hshaped (by rw [hg]; rfl : g.first = first.ep t) noexecyields n
  have hvec : ∀ t vec, (traverse facts links visits).threadactions[t]? = some vec →
      vec = (((Traversal.traverse g noexecyields n).visited.filter g.isAction).filter
        fun r => r.tid = t) := by
    intro t vec ht
    rw [← hvisits, ← vectors_traverse facts links visits t, ht, Option.getD_some]
  constructor
  · intro t vec ht r hr
    rw [hvec t vec ht] at hr
    simpa using (List.mem_filter.mp hr).2
  · intro vec hmem
    obtain ⟨t, ht⟩ := List.mem_iff_getElem?.mp hmem
    rw [hvec t vec ht]
    exact (hinOrder.sublist List.filter_sublist).sublist List.filter_sublist
  · intro vec hmem r hr
    obtain ⟨t, ht⟩ := List.mem_iff_getElem?.mp hmem
    rw [hvec t vec ht] at hr
    obtain ⟨hvisited, haction⟩ := List.mem_filter.mp (List.mem_filter.mp hr).1
    obtain ⟨t', site, rfl⟩ := hsites r hvisited
    have htype : g.getType (site.ep t') ≠ none := by
      intro hnone
      simp [EventGraph.isAction, hnone] at haction
    refine ⟨site, rfl, (h t').typed hlog htype, ?_⟩
    subst hg
    apply hlinked.getBranch
    intro hnone
    exact htype (by simp [EventGraph.getType, Recorder.graph, hnone])

/-- In the graph of threads that are created once, the clauses and the buffer order stores and
loads around every fence that runs. -/
theorem fenceOrdered_runs {executions : List (List (Nat × Annotation))} {code : Nat → Code}
    {creator : Nat → Option ExecPoint} (h : ∀ tid, Recorded executions tid (code tid))
    (hcreated : CreatedBy executions creator) (len : ExecPoint → Nat) (t : Nat) (first : Site)
    {g : EventGraph} (hg : g = (Recorder.empty.runs executions).graph len (first.ep t))
    (noexecyields : Bool) (n : Nat) (execcondtable : ExecPoint → Option (List ExecPoint))
    (links : ThreadLinks) (visits : List OrderTable.Visit)
    (hvisits : actions visits =
      (Traversal.traverse g noexecyields n).visited.filter g.isAction)
    (condition : ExecPoint → Constraint) (ρ : Nat → Bool)
    (hclauses : FenceClauses (g.facts execcondtable) condition
      (traverse (g.facts execcondtable) links visits) ρ)
    (hfifo : Fifo (g.facts execcondtable) (traverse (g.facts execcondtable) links visits) ρ) :
    FenceOrdered (g.facts execcondtable) condition
      (traverse (g.facts execcondtable) links visits) ρ :=
  (inVectors_traverse h hcreated hg noexecyields n _ links hvisits).fenceOrdered
    (ownPairs_traverse _ links visits) hclauses hfifo

def storeFenceLoad : List (Nat × Annotation) :=
  [(0, .threadStart none), (0, .event .store 2), (0, .event .fence 0), (0, .event .load 1)]

def storeFenceLoadCode : Nat → Code
  | 0 => fun s =>
    if s = ⟨[], 0⟩ then some .threadStart
    else if s = ⟨[], 1⟩ then some (.event .store 2)
    else if s = ⟨[], 2⟩ then some (.event .fence 0)
    else if s = ⟨[], 3⟩ then some (.event .load 1)
    else none
  | _ => fun _ => none

private theorem recorded_storeFenceLoad (tid : Nat) :
    Recorded [storeFenceLoad] tid (storeFenceLoadCode tid) := by
  constructor
  · simp [storeFenceLoad, Threads.WellNested, Threads.Legal, Threads.move, Threads.start,
      Control.Legal, Control.move, Control.start, Control.behind, Control.IsPlain, Site.start,
      Site.next]
  · cases tid with
    | zero =>
      simp [storeFenceLoad, threadCalls, storeFenceLoadCode, Code.Runs, Instruction.Allows,
        Control.Legal, Control.move, Control.start, Control.behind, Control.IsPlain, Site.start,
        Site.next]
    | succ tid => simp [storeFenceLoad, threadCalls]

def storeFenceLoadGraph : EventGraph :=
  (Recorder.empty.runs [storeFenceLoad]).graph (fun _ => 0) (Site.ep 0 ⟨[], 1⟩)

def storeFenceLoadVisits : List OrderTable.Visit :=
  [.action (Site.ep 0 ⟨[], 1⟩), .action (Site.ep 0 ⟨[], 2⟩), .action (Site.ep 0 ⟨[], 3⟩)]

theorem fenceOrdered_storeFenceLoad :
    FenceOrdered (storeFenceLoadGraph.facts fun _ => none) (fun _ => .ctrue)
      (traverse (storeFenceLoadGraph.facts fun _ => none) ⟨fun _ => none, []⟩
        storeFenceLoadVisits) (fun _ => true) := by
  have hvec : (traverse (storeFenceLoadGraph.facts fun _ => none) ⟨fun _ => none, []⟩
      storeFenceLoadVisits).threadactions =
      [[Site.ep 0 ⟨[], 1⟩, Site.ep 0 ⟨[], 2⟩, Site.ep 0 ⟨[], 3⟩]] := by decide +kernel
  apply fenceOrdered_runs recorded_storeFenceLoad
    (⟨by simp, by simp [storeFenceLoad]⟩ : CreatedBy [storeFenceLoad] fun _ => none)
    (fun _ => 0) 0 ⟨[], 1⟩ (rfl : storeFenceLoadGraph = _) false 10
    (fun _ => none) ⟨fun _ => none, []⟩
    storeFenceLoadVisits (by decide +kernel)
  · unfold FenceClauses
    rw [hvec]
    decide +kernel
  · apply Fifo.of_one (Site.ep 0 ⟨[], 1⟩) (Site.ep 0 ⟨[], 3⟩)
    · rw [hvec]
      decide +kernel
    · rw [hvec]
      decide +kernel

/-! ## A thread that is created in both directions of a branch -/

def createInBoth (direction : Nat) : List (Nat × Annotation) :=
  [(0, .threadStart none), (0, .branchDir direction), (0, .threadCreate),
    (1, .threadStart (some (Site.ep 0 ⟨[.arm 1 direction], 0⟩))), (1, .event .load 1),
    (1, .event .store 2), (1, .event .fence 0)]

def createInBothCode : Nat → Code
  | 0 => fun s =>
    if s = ⟨[], 0⟩ then some .threadStart
    else if s = ⟨[], 1⟩ then some .branch
    else if s = ⟨[.arm 1 0], 0⟩ ∨ s = ⟨[.arm 1 1], 0⟩ then some .threadCreate
    else none
  | 1 => fun s =>
    if s = ⟨[], 0⟩ then some .threadStart
    else if s = ⟨[], 1⟩ then some (.event .load 1)
    else if s = ⟨[], 2⟩ then some (.event .store 2)
    else if s = ⟨[], 3⟩ then some (.event .fence 0)
    else none
  | _ => fun _ => none

theorem recorded_createInBoth (tid : Nat) :
    Recorded [createInBoth 0, createInBoth 1] tid (createInBothCode tid) := by
  have hboth : ∀ direction, direction < 2 →
      Threads.start.WellNested (createInBoth direction) ∧
        (threadCalls tid (createInBoth direction) ≠ [] →
          (createInBothCode tid).Runs Control.start
            (threadCalls tid (createInBoth direction))) := by
    intro direction hlt
    constructor
    · simp [createInBoth, Threads.WellNested, Threads.Legal, Threads.move, Threads.start,
        Control.Legal, Control.move, Control.start, Control.behind, Control.IsPlain, Site.start,
        Site.next, Site.arm]
    · rcases tid with _ | _ | tid
      · have hcases : direction = 0 ∨ direction = 1 := by omega
        rcases hcases with rfl | rfl <;>
          simp [createInBoth, threadCalls, createInBothCode, Code.Runs, Instruction.Allows,
            Control.Legal, Control.move, Control.start, Control.behind, Site.start, Site.next,
            Site.arm]
      · simp [createInBoth, threadCalls, createInBothCode, Code.Runs, Instruction.Allows,
          Control.Legal, Control.move, Control.start, Control.behind, Control.IsPlain, Site.start,
          Site.next]
      · simp [createInBoth, threadCalls]
  constructor
  · intro calls hcalls
    simp only [List.mem_cons, List.not_mem_nil, or_false] at hcalls
    rcases hcalls with rfl | rfl
    · exact (hboth 0 (by omega)).1
    · exact (hboth 1 (by omega)).1
  · intro calls hcalls
    simp only [List.mem_cons, List.not_mem_nil, or_false] at hcalls
    rcases hcalls with rfl | rfl
    · exact (hboth 0 (by omega)).2
    · exact (hboth 1 (by omega)).2

/-- The graph of both runs; the branch is the first record with an MCID. -/
def createdTwice : EventGraph :=
  (Recorder.empty.runs [createInBoth 0, createInBoth 1]).graph (fun _ => 2) (Site.ep 0 ⟨[], 1⟩)

def createdTwiceVisits : List OrderTable.Visit :=
  ((Traversal.traverse createdTwice false 30).visited.filter createdTwice.isAction).map .action

def createdTwiceTable : OrderTable :=
  traverse (createdTwice.facts fun _ => none) ⟨fun _ => none, []⟩ createdTwiceVisits

private theorem createdTwiceTable_threadactions : createdTwiceTable.threadactions =
    [[], [Site.ep 1 ⟨[], 1⟩, Site.ep 1 ⟨[], 2⟩, Site.ep 1 ⟨[], 3⟩,
      Site.ep 1 ⟨[], 1⟩, Site.ep 1 ⟨[], 2⟩, Site.ep 1 ⟨[], 3⟩]] := by decide +kernel

/-- The load is visited again behind the fence, and the store before the fence is never ordered
before it. -/
theorem not_fenceOrdered_createdTwice :
    (∀ tid, Recorded [createInBoth 0, createInBoth 1] tid (createInBothCode tid)) ∧
      ∀ ρ, FenceClauses (createdTwice.facts fun _ => none) (fun _ => .ctrue)
          createdTwiceTable ρ ∧
        Fifo (createdTwice.facts fun _ => none) createdTwiceTable ρ ∧
        ¬ FenceOrdered (createdTwice.facts fun _ => none) (fun _ => .ctrue)
          createdTwiceTable ρ := by
  refine ⟨recorded_createInBoth, fun ρ => ⟨?_, ?_, ?_⟩⟩
  · intro vec hvec f hf _ c hc
    have hall : ∀ vec ∈ createdTwiceTable.threadactions, ∀ f ∈ vec,
        (createdTwice.facts fun _ => none).isAlwaysExecuted f = true := by
      rw [createdTwiceTable_threadactions]
      decide +kernel
    simp [processFence, hall vec hvec f hf] at hc
  · apply Fifo.of_one (Site.ep 1 ⟨[], 2⟩) (Site.ep 1 ⟨[], 1⟩)
    · rw [createdTwiceTable_threadactions]
      decide +kernel
    · rw [createdTwiceTable_threadactions]
      decide +kernel
  · intro hordered
    have heval := hordered _ (by rw [createdTwiceTable_threadactions]; simp)
      [Site.ep 1 ⟨[], 1⟩] (Site.ep 1 ⟨[], 2⟩) [] (Site.ep 1 ⟨[], 3⟩) [] (Site.ep 1 ⟨[], 1⟩)
      [Site.ep 1 ⟨[], 2⟩, Site.ep 1 ⟨[], 3⟩] rfl (by decide +kernel) (by decide +kernel)
      (by decide +kernel) rfl
    have hnone : (createdTwiceTable.getRecPair (Site.ep 1 ⟨[], 2⟩) (Site.ep 1 ⟨[], 1⟩)).isNone =
        true := by decide +kernel
    have hcompare : (Site.ep 1 ⟨[], 2⟩).compare (Site.ep 1 ⟨[], 1⟩) = .before := by decide +kernel
    have htid : (Site.ep 1 ⟨[], 2⟩).tid = (Site.ep 1 ⟨[], 1⟩).tid := rfl
    simp only [getOrderConstraint, htid, Option.isNone_iff_eq_none.mp hnone, hcompare] at heval
    simp at heval

end TSO

end SatCheck
