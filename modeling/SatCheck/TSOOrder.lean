import SatCheck.ThreadOrder
import SatCheck.EventRecord
/-!
# Store and load order, TSO build

In the TSO build a load also gets an order variable with every earlier store of its
own thread, as far back as the last fence that always runs.  The clauses that should
keep these variables in the order of the store buffer are never printed: the loop
over the loads reads the store again.
-/

namespace SatCheck

/-- What `ConstGen` asks a record about. -/
structure ActionFacts where
  getType : ExecPoint → EventType
  isAlwaysExecuted : ExecPoint → Bool

def ActionFacts.isFence (facts : ActionFacts) (record : ExecPoint) : Bool :=
  (facts.getType record == .rmw || facts.getType record == .fence) &&
    facts.isAlwaysExecuted record

/-- A thread is created by another thread, and a join is recorded once the joined thread
is complete, so by another thread too. -/
structure ThreadLinks.Foreign (links : ThreadLinks) : Prop where
  create : ∀ t start, links.parentRecord t = some start → start.tid ≠ t
  join : ∀ join ∈ links.joins, join.jointhread ≠ some join.ep.tid

namespace TSO

open Constraint OrderTable

variable (facts : ActionFacts) (links : ThreadLinks)

/-- The loop of `insertTSOAction`, from the entry before the load down to the first. -/
def orderStores (load : ExecPoint) : List ExecPoint → OrderTable → OrderTable
  | [], s => s
  | oldrec :: vector, s =>
    if facts.isFence oldrec then s
    else if facts.getType oldrec = .store then
      orderStores load vector (s.createOrderConstraint links oldrec load)
    else orderStores load vector s

def insertTSOAction (s : OrderTable) (load : ExecPoint) : OrderTable :=
  if facts.getType load ≠ .load then s
  else
    orderStores facts links load ((s.threadactions[load.tid]?).getD []).dropLast.reverse s

def insertAction (s : OrderTable) (record : ExecPoint) : OrderTable :=
  insertTSOAction facts links (s.insertAction links record) record

def visit (s : OrderTable) : Visit → OrderTable
  | .action record => insertAction facts links s record
  | .newVars num => { s with varindex := s.varindex + num }

/-- The table at the end of the first traversal; a FENCE is an action here. -/
def traverse (visits : List Visit) : OrderTable :=
  visits.foldl (visit facts links) (empty 1)

def getOrderConstraint (s : OrderTable) (first second : ExecPoint) : Constraint :=
  match s.getRecPair first second with
  | some rpc => if rpc.epr1 ≠ first then rpc.constraint.negate else rpc.constraint
  | none =>
    if first.tid = second.tid then
      if first.compare second = .after then .ctrue else .cfalse
    else .cfalse

/-- The loop of `genTSOTransOrderConstraints` over `load_i`. -/
def loadClauses (s : OrderTable) (store : ExecPoint) (laststore : Option ExecPoint)
    (rec : ExecPoint) : Option ExecPoint → List ExecPoint → List Constraint
  | _, [] => []
  | lastload, _ :: later =>
    if facts.isFence rec then []
    else if facts.getType rec ≠ .load then loadClauses s store laststore rec lastload later
    else
      (laststore.toList.map fun earlystore =>
        .implies (getOrderConstraint s store rec) (getOrderConstraint s earlystore rec)) ++
      (lastload.toList.map fun earlyload =>
        .implies (getOrderConstraint s store earlyload) (getOrderConstraint s store rec)) ++
      loadClauses s store laststore rec (some rec) later

/-- The loop over `store_i`. -/
def storeClauses (s : OrderTable) : Option ExecPoint → List ExecPoint → List Constraint
  | _, [] => []
  | laststore, store :: later =>
    if facts.getType store ≠ .store then storeClauses s laststore later
    else
      -- `rec` is `(*tvec)[store_i]` in every round, and not `(*tvec)[load_i]`
      loadClauses facts s store laststore store none later ++ storeClauses s (some store) later

/-- Every constraint that `genTSOTransOrderConstraints` hands to `addConstraint`. -/
def genTSOTransOrderConstraints (s : OrderTable) : List Constraint :=
  s.threadactions.flatMap (storeClauses facts s none)

/-! ## First in, first out -/

def NoFence (records : List ExecPoint) : Prop := ∀ r ∈ records, facts.isFence r = false

/-- Two stores and a load behind them, with no fence in between that always runs. -/
def StoresLoad (vec : List ExecPoint) (s1 s2 l : ExecPoint) : Prop :=
  ∃ pre between between' post, vec = pre ++ s1 :: between ++ s2 :: between' ++ l :: post ∧
    facts.getType s1 = .store ∧ facts.getType s2 = .store ∧ facts.getType l = .load ∧
    NoFence facts between ∧ NoFence facts between'

/-- A store and two loads behind it, with no fence in between that always runs. -/
def StoreLoads (vec : List ExecPoint) (s l1 l2 : ExecPoint) : Prop :=
  ∃ pre between between' post, vec = pre ++ s :: between ++ l1 :: between' ++ l2 :: post ∧
    facts.getType s = .store ∧ facts.getType l1 = .load ∧ facts.getType l2 = .load ∧
    NoFence facts between ∧ NoFence facts between'

/-- The store buffer is first in, first out: a store that has left it for a load has the
earlier stores before it, and a store is in front of the later loads once it is in front of one. -/
structure Fifo (s : OrderTable) (ρ : Nat → Bool) : Prop where
  earlystore : ∀ vec ∈ s.threadactions, ∀ s1 s2 l, StoresLoad facts vec s1 s2 l →
    eval ρ (getOrderConstraint s s2 l) = true → eval ρ (getOrderConstraint s s1 l) = true
  earlyload : ∀ vec ∈ s.threadactions, ∀ st l1 l2, StoreLoads facts vec st l1 l2 →
    eval ρ (getOrderConstraint s st l1) = true → eval ρ (getOrderConstraint s st l2) = true

/-- No two stores before a load, and no two loads after a store. -/
structure OnePair (s : OrderTable) : Prop where
  store : ∀ vec ∈ s.threadactions, ∀ s1 s2 l, StoresLoad facts vec s1 s2 l → s1 = s2
  load : ∀ vec ∈ s.threadactions, ∀ st l1 l2, StoreLoads facts vec st l1 l2 → l1 = l2

/-! ## No clause is printed -/

variable {facts links} {s : OrderTable} {ρ : Nat → Bool} {visits : List Visit}

private theorem loadClauses_eq_nil {store rec : ExecPoint} (hrec : facts.getType rec = .store)
    (laststore lastload : Option ExecPoint) (later : List ExecPoint) :
    loadClauses facts s store laststore rec lastload later = [] := by
  induction later with
  | nil => rfl
  | cons r later ih =>
    rw [loadClauses, if_neg (by simp [ActionFacts.isFence, hrec]), if_pos (by simp [hrec])]
    exact ih

private theorem storeClauses_eq_nil (laststore : Option ExecPoint) (vec : List ExecPoint) :
    storeClauses facts s laststore vec = [] := by
  induction vec generalizing laststore with
  | nil => rfl
  | cons store later ih =>
    rw [storeClauses]
    split_ifs with hstore
    · exact ih laststore
    · rw [loadClauses_eq_nil (not_not.mp hstore), ih]
      rfl

theorem genTSOTransOrderConstraints_eq_nil (s : OrderTable) :
    genTSOTransOrderConstraints facts s = [] := by
  unfold genTSOTransOrderConstraints
  exact List.flatMap_eq_nil_iff.mpr fun vec _ => storeClauses_eq_nil none vec

/-! ## What the first traversal leaves in the table -/

theorem orderStores_eq (load : ExecPoint) (vector : List ExecPoint) (s : OrderTable) :
    orderStores facts links load vector s =
      s.createAll links ((vector.takeWhile fun r => !facts.isFence r).filter
        fun r => facts.getType r = .store) load := by
  induction vector generalizing s with
  | nil => rfl
  | cons r vector ih =>
    rw [orderStores, List.takeWhile_cons]
    cases hfence : facts.isFence r with
    | true => simp [createAll]
    | false =>
      by_cases hstore : facts.getType r = .store
      · simp only [Bool.false_eq_true, if_false, if_pos hstore, Bool.not_false, if_true]
        rw [List.filter_cons_of_pos (by simp [hstore]), ih]
        rfl
      · simp only [Bool.false_eq_true, if_false, if_neg hstore, Bool.not_false, if_true]
        rw [List.filter_cons_of_neg (by simp [hstore]), ih]

theorem insertTSOAction_threadactions (s : OrderTable) (load : ExecPoint) :
    (insertTSOAction facts links s load).threadactions = s.threadactions := by
  unfold insertTSOAction
  split_ifs
  · rfl
  · rw [orderStores_eq, createAll_threadactions]

private theorem rptOk_insertTSOAction (h : RptOk links s) (load : ExecPoint) :
    RptOk links (insertTSOAction facts links s load) := by
  unfold insertTSOAction
  split_ifs
  · exact h
  · rw [orderStores_eq]
    exact h.createAll _ load

theorem getRecPair_insertTSOAction_of_isSome (load : ExecPoint) {x y : ExecPoint}
    (h : (s.getRecPair x y).isSome = true) :
    ((insertTSOAction facts links s load).getRecPair x y).isSome = true := by
  unfold insertTSOAction
  split_ifs
  · exact h
  · rw [orderStores_eq]
    exact getRecPair_createAll_of_isSome _ load h

theorem mem_reached {pre between : List ExecPoint} {store : ExecPoint}
    (hstore : facts.getType store = .store) (hbetween : NoFence facts between) :
    store ∈ ((pre ++ store :: between).reverse.takeWhile fun r => !facts.isFence r).filter
      fun r => facts.getType r = .store := by
  rw [List.mem_filter]
  refine ⟨?_, by simp [hstore]⟩
  rw [List.reverse_append, List.reverse_cons, List.append_assoc, List.takeWhile_append_of_pos]
  · apply List.mem_append_right
    rw [List.singleton_append, List.takeWhile_cons]
    simp [ActionFacts.isFence, hstore]
  · intro r hr
    simp [hbetween r (List.mem_reverse.mp hr)]

/-- Every load has an order constraint with the stores up to the last fence before it. -/
structure Ordered (facts : ActionFacts) (links : ThreadLinks) (s : OrderTable) : Prop where
  wellFormed : WellFormed links s
  own : ∀ vec ∈ s.threadactions, ∀ pre between post store load,
    vec = pre ++ store :: between ++ load :: post → facts.getType store = .store →
      facts.getType load = .load → NoFence facts between →
      (s.getRecPair store load).isSome = true

private theorem wellFormed_insertTSOAction (h : WellFormed links s) (load : ExecPoint) :
    WellFormed links (insertTSOAction facts links s load) := by
  refine ⟨rptOk_insertTSOAction h.rptOk load, ?_, ?_⟩
  · rw [insertTSOAction_threadactions]
    exact h.byThread
  · rw [insertTSOAction_threadactions]
    intro a ha b hb hne
    exact getRecPair_insertTSOAction_of_isSome load (h.covered a ha b hb hne)

theorem insertAction_threadactions (s : OrderTable) (record : ExecPoint) :
    (insertAction facts links s record).threadactions = pushAction s.threadactions record := by
  unfold insertAction
  rw [insertTSOAction_threadactions, insertAction_eq, createAll_threadactions]

private theorem getRecPair_insertAction_of_isSome (record : ExecPoint) {x y : ExecPoint}
    (h : (s.getRecPair x y).isSome = true) :
    ((insertAction facts links s record).getRecPair x y).isSome = true := by
  unfold insertAction
  apply getRecPair_insertTSOAction_of_isSome
  rw [insertAction_eq]
  exact getRecPair_createAll_of_isSome _ record h

private theorem getRecPair_insertAction_load {pre between : List ExecPoint} {store load : ExecPoint}
    (hvec : (s.threadactions[load.tid]?).getD [] = pre ++ store :: between)
    (hstore : facts.getType store = .store) (hload : facts.getType load = .load)
    (hbetween : NoFence facts between) :
    ((insertAction facts links s load).getRecPair store load).isSome = true := by
  have hpush : (((s.insertAction links load).threadactions[load.tid]?).getD []).dropLast =
      pre ++ store :: between := by
    rw [insertAction_eq, createAll_threadactions, pushAction_getD, if_pos rfl, hvec,
      List.dropLast_concat]
  unfold insertAction insertTSOAction
  rw [if_neg (by simp [hload]), hpush, orderStores_eq]
  exact getRecPair_createAll_of_mem _ load (mem_reached hstore hbetween)

theorem Ordered.insertAction (h : Ordered facts links s) (record : ExecPoint) :
    Ordered facts links (insertAction facts links s record) := by
  refine ⟨wellFormed_insertTSOAction (h.wellFormed.insertAction record) record, ?_⟩
  rw [insertAction_threadactions]
  intro vec hvec pre between post store load hsplit hstore hload hbetween
  obtain ⟨t, ht⟩ := List.mem_iff_getElem?.mp hvec
  rw [getElem?_pushAction] at ht
  have hold : ∀ vec' : List ExecPoint, s.threadactions[t]? = some vec' → ∀ post',
      vec' = pre ++ store :: between ++ load :: post' →
      ((TSO.insertAction facts links s record).getRecPair store load).isSome = true := by
    intro vec' ht' post' hsplit'
    exact getRecPair_insertAction_of_isSome record (h.own vec' (List.mem_of_getElem? ht') pre
      between post' store load hsplit' hstore hload hbetween)
  split_ifs at ht with htid
  · obtain rfl := Option.some_inj.mp ht
    cases post using List.reverseRecOn with
    | nil =>
      obtain ⟨hpre, hlast⟩ := List.append_inj' hsplit rfl
      obtain rfl : record = load := by simpa using hlast
      exact getRecPair_insertAction_load (htid ▸ hpre) hstore hload hbetween
    | append_singleton post' r =>
      rw [← List.cons_append, ← List.append_assoc] at hsplit
      obtain ⟨hpre, -⟩ := List.append_inj' hsplit rfl
      cases hvec' : s.threadactions[t]? with
      | none => simp [hvec'] at hpre
      | some vec' => exact hold vec' hvec' post' (by simpa [hvec'] using hpre)
  · have hmem : load ∈ vec := by simp [hsplit]
    exact hold vec (mem_of_resize ht hmem) post hsplit

theorem ordered_traverse (facts : ActionFacts) (links : ThreadLinks) (visits : List Visit) :
    Ordered facts links (traverse facts links visits) := by
  induction visits using List.reverseRecOn with
  | nil => exact ⟨wellFormed_empty links 1, by simp [traverse, empty]⟩
  | append_singleton visits v ih =>
    rw [traverse, List.foldl_append]
    cases v with
    | action record => exact ih.insertAction record
    | newVars num => exact ⟨ih.wellFormed.visit (.newVars num), ih.own⟩

/-! ## The order variables are free -/

private theorem orderThread_of_tid_eq (hlinks : links.Foreign) {a b : ExecPoint}
    (h : a.tid = b.tid) :
    links.orderThread a b = false := by
  have hjoin : (links.joins.any fun join =>
      join.ep.tid == b.tid && join.ep.compare b == .after && join.jointhread == some a.tid) =
        false := by
    rw [List.any_eq_false]
    intro join hmem
    have hne := hlinks.join join hmem
    by_cases htid : join.ep.tid = b.tid
    · rw [htid, ← h] at hne
      simp [hne]
    · simp [htid]
  rw [ThreadLinks.orderThread, hjoin, Bool.or_false]
  cases hparent : links.parentRecord b.tid with
  | none => rfl
  | some start =>
    have hne : start.tid ≠ a.tid := h ▸ hlinks.create b.tid start hparent
    simp [hne]

/-- The assignment made from a relation follows it on a pair of one thread. -/
theorem eval_own (hlinks : links.Foreign) (h : RptOk links s) {a b : ExecPoint}
    (htid : a.tid = b.tid) (hsome : (s.getRecPair a b).isSome = true)
    {order : ExecPoint → ExecPoint → Prop} (horder : order a b ↔ ¬ order b a) :
    eval (s.assignmentOf order) (getOrderConstraint s a b) = true ↔ order a b := by
  obtain ⟨p, hp⟩ := Option.isSome_iff_exists.mp hsome
  have hmem := List.mem_of_find?_eq_some hp
  have hne : b ≠ a := fun heq => by simp [heq] at horder
  unfold getOrderConstraint
  rw [hp]
  have hentry := h.entry p hmem
  obtain ⟨rfl, rfl⟩ | ⟨rfl, rfl⟩ := equals_of_getRecPair hp
  · simp only [ne_eq, not_true_eq_false, if_false]
    cases hentry with
    | ctrue hdecided => simp [orderThread_of_tid_eq hlinks htid] at hdecided
    | cfalse _ hdecided => simp [orderThread_of_tid_eq hlinks htid.symm] at hdecided
    | var => exact h.eval_var_assignmentOf hmem
  · simp only [ne_eq, hne, not_false_eq_true, if_true]
    cases hentry with
    | ctrue hdecided => simp [orderThread_of_tid_eq hlinks htid.symm] at hdecided
    | cfalse _ hdecided => simp [orderThread_of_tid_eq hlinks htid] at hdecided
    | var =>
      have hvar : eval (s.assignmentOf order) _ = true ↔ order _ _ := h.eval_var_assignmentOf hmem
      rw [horder, ← hvar]
      simp [negate]

def rank (first second x : ExecPoint) : Nat :=
  if x = first then 0 else if x = second then 1 else 2

theorem rank_lt_iff {first second a b : ExecPoint} (hab : a ≠ b)
    (h : a = first ∨ a = second ∨ b = first ∨ b = second) :
    rank first second a < rank first second b ↔ ¬ rank first second b < rank first second a := by
  unfold rank
  split_ifs <;> first | omega | simp_all

/-! ## When the buffer is first in, first out -/

/-- A store and a load behind it, with no fence in between that always runs. -/
def Reaches (facts : ActionFacts) (vec : List ExecPoint) (store load : ExecPoint) : Prop :=
  ∃ pre between post, vec = pre ++ store :: between ++ load :: post ∧
    facts.getType store = .store ∧ facts.getType load = .load ∧ NoFence facts between

theorem noFence_append {r : ExecPoint} {between between' : List ExecPoint}
    (hr : facts.getType r = .store ∨ facts.getType r = .load)
    (h : NoFence facts between) (h' : NoFence facts between') :
    NoFence facts (between ++ r :: between') := by
  intro x hx
  rcases List.mem_append.mp hx with hx | hx
  · exact h x hx
  · rcases List.mem_cons.mp hx with rfl | hx
    · rcases hr with hr | hr <;> simp [ActionFacts.isFence, hr]
    · exact h' x hx

theorem StoresLoad.reaches {vec : List ExecPoint} {s1 s2 l : ExecPoint}
    (h : StoresLoad facts vec s1 s2 l) : Reaches facts vec s1 l ∧ Reaches facts vec s2 l := by
  obtain ⟨pre, between, between', post, hsplit, hs1, hs2, hl, hb, hb'⟩ := h
  constructor
  · exact ⟨pre, between ++ s2 :: between', post, by simpa using hsplit, hs1, hl,
      noFence_append (.inl hs2) hb hb'⟩
  · exact ⟨pre ++ s1 :: between, between', post, hsplit, hs2, hl, hb'⟩

theorem StoreLoads.reaches {vec : List ExecPoint} {st l1 l2 : ExecPoint}
    (h : StoreLoads facts vec st l1 l2) : Reaches facts vec st l1 ∧ Reaches facts vec st l2 := by
  obtain ⟨pre, between, between', post, hsplit, hst, hl1, hl2, hb, hb'⟩ := h
  constructor
  · exact ⟨pre, between, between' ++ l2 :: post, by simpa using hsplit, hst, hl1, hb⟩
  · exact ⟨pre, between ++ l1 :: between', post, by simpa using hsplit, hst, hl2,
      noFence_append (.inr hl1) hb hb'⟩

/-- The assignment that puts `first` before `second` and both before all the others. -/
noncomputable def ranked (s : OrderTable) (first second : ExecPoint) : Nat → Bool :=
  s.assignmentOf fun x y => rank first second x < rank first second y

theorem Ordered.eval_ranked (hlinks : links.Foreign) (h : Ordered facts links s)
    {vec : List ExecPoint} (hvec : vec ∈ s.threadactions) {store load : ExecPoint}
    (first second : ExecPoint) (hreaches : Reaches facts vec store load)
    (hranked : store = first ∨ store = second ∨ load = first ∨ load = second) :
    eval (ranked s first second) (getOrderConstraint s store load) = true ↔
      rank first second store < rank first second load := by
  obtain ⟨pre, between, post, hsplit, hstore, hload, hbetween⟩ := hreaches
  obtain ⟨t, ht⟩ := List.mem_iff_getElem?.mp hvec
  have htid : store.tid = load.tid := by
    rw [h.wellFormed.byThread t vec ht store (by simp [hsplit]),
      h.wellFormed.byThread t vec ht load (by simp [hsplit])]
  have hne : store ≠ load := by
    rintro rfl
    rw [hstore] at hload
    exact absurd hload (by decide)
  exact eval_own hlinks h.wellFormed.rptOk htid
    (h.own vec hvec pre between post store load hsplit hstore hload hbetween)
    (rank_lt_iff hne hranked)

theorem Reaches.ne {vec : List ExecPoint} {store load store' load' : ExecPoint}
    (h : Reaches facts vec store load) (h' : Reaches facts vec store' load') : store ≠ load' := by
  rintro rfl
  obtain ⟨-, -, -, -, hstore, -, -⟩ := h
  obtain ⟨-, -, -, -, -, hload, -⟩ := h'
  rw [hstore] at hload
  exact absurd hload (by decide)

/-- Every assignment satisfies the clauses, so the buffer is first in, first out for all of
them exactly when no thread has two pairs to compare. -/
theorem forall_fifo_iff (hlinks : links.Foreign) (facts : ActionFacts) (visits : List Visit) :
    (∀ ρ, (∀ c ∈ genTSOTransOrderConstraints facts (traverse facts links visits),
        eval ρ c = true) → Fifo facts (traverse facts links visits) ρ) ↔
      OnePair facts (traverse facts links visits) := by
  have h := ordered_traverse facts links visits
  set s := traverse facts links visits
  constructor
  · intro hall
    have hfifo := fun ρ => hall ρ (by simp [genTSOTransOrderConstraints_eq_nil])
    refine ⟨?_, ?_⟩
    · intro vec hvec s1 s2 l hstores
      obtain ⟨h1, h2⟩ := hstores.reaches
      by_contra hne
      -- only the second store has left the buffer when the load runs
      have hlate := (h.eval_ranked hlinks hvec s2 l h2 (.inl rfl)).mpr
        (by simp [rank, (h2.ne h2).symm])
      have hearly := (h.eval_ranked hlinks hvec s2 l h1 (.inr (.inr (.inr rfl)))).mp
        ((hfifo _).earlystore vec hvec s1 s2 l hstores hlate)
      simp [rank, hne, h1.ne h1, (h2.ne h2).symm] at hearly
    · intro vec hvec st l1 l2 hloads
      obtain ⟨h1, h2⟩ := hloads.reaches
      by_contra hne
      -- the store leaves the buffer between the second load and the first
      have hearly := (h.eval_ranked hlinks hvec l2 st h1 (.inr (.inl rfl))).mpr
        (by simp [rank, hne, h2.ne h2, (h1.ne h1).symm])
      have hlate := (h.eval_ranked hlinks hvec l2 st h2 (.inr (.inl rfl))).mp
        ((hfifo _).earlyload vec hvec st l1 l2 hloads hearly)
      simp [rank, h2.ne h2] at hlate
  · intro hone ρ _
    refine ⟨?_, ?_⟩
    · intro vec hvec s1 s2 l hstores horder
      rwa [hone.store vec hvec s1 s2 l hstores]
    · intro vec hvec st l1 l2 hloads horder
      rwa [← hone.load vec hvec st l1 l2 hloads]

def twoStores : ActionFacts where
  getType ep := if ep.pairs = [(.counter, 2)] then .load else .store
  isAlwaysExecuted _ := true

def twoStoresVisits : List Visit :=
  [.action ⟨0, [(.counter, 0)]⟩, .action ⟨0, [(.counter, 1)]⟩, .action ⟨0, [(.counter, 2)]⟩]

theorem forall_fifo_iff_twoStores :
    (∀ ρ, (∀ c ∈ genTSOTransOrderConstraints twoStores
        (traverse twoStores ⟨fun _ => none, []⟩ twoStoresVisits), eval ρ c = true) →
      Fifo twoStores (traverse twoStores ⟨fun _ => none, []⟩ twoStoresVisits) ρ) ↔
        OnePair twoStores (traverse twoStores ⟨fun _ => none, []⟩ twoStoresVisits) :=
  forall_fifo_iff ⟨by simp, by simp⟩ twoStores twoStoresVisits

/-- The second store is ordered before the load and the first one is not. -/
theorem not_forall_fifo :
    ¬ ∀ (links : ThreadLinks) (facts : ActionFacts) (visits : List Visit), links.Foreign →
      ∀ ρ, (∀ c ∈ genTSOTransOrderConstraints facts (traverse facts links visits),
        eval ρ c = true) → Fifo facts (traverse facts links visits) ρ := by
  intro h
  have hfifo := h ⟨fun _ => none, []⟩ twoStores twoStoresVisits ⟨by simp, by simp⟩
    (fun v => v == 1) (by simp [genTSOTransOrderConstraints_eq_nil])
  have hearly := hfifo.earlystore
    [⟨0, [(.counter, 0)]⟩, ⟨0, [(.counter, 1)]⟩, ⟨0, [(.counter, 2)]⟩] (by decide)
    ⟨0, [(.counter, 0)]⟩ ⟨0, [(.counter, 1)]⟩ ⟨0, [(.counter, 2)]⟩
    ⟨[], [], [], [], by simp [twoStores, NoFence]⟩ (by decide)
  exact absurd hearly (by decide)

end TSO

end SatCheck
