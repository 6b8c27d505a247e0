import SatCheck.OrderTable
/-!
# The order table is well formed

What every traversal leaves in the table: each vector holds the actions of its
thread, every two actions of different threads have an entry, and an entry is a
constant exactly when `orderThread` decides the pair.
-/

namespace SatCheck

namespace OrderTable

variable {links : ThreadLinks} {s : OrderTable}

private theorem equals_comm (p : RecPair) (a b : ExecPoint) : p.equals a b = p.equals b a := by
  simp only [RecPair.equals, Bool.or_comm]

theorem getRecPair_comm (s : OrderTable) (a b : ExecPoint) :
    s.getRecPair a b = s.getRecPair b a := by
  simp only [getRecPair, equals_comm _ a b]

theorem equals_iff (p : RecPair) (a b : ExecPoint) :
    p.equals a b = true ↔ (p.epr1 = a ∧ p.epr2 = b) ∨ (p.epr1 = b ∧ p.epr2 = a) := by
  simp [RecPair.equals]

theorem equals_of_getRecPair {a b : ExecPoint} {p : RecPair} (h : s.getRecPair a b = some p) :
    (p.epr1 = a ∧ p.epr2 = b) ∨ (p.epr1 = b ∧ p.epr2 = a) := by
  have hfound : p.equals a b = true := List.find?_some (p := fun q : RecPair => q.equals a b) h
  exact (equals_iff p a b).mp hfound

/-- The entry behind a lookup, stored for the pair or for its reverse. -/
theorem getOrderConstraint_cases {a b : ExecPoint} (hne : a.tid ≠ b.tid)
    (hsome : (s.getRecPair a b).isSome = true) :
    ∃ c, (⟨a, b, c⟩ ∈ s.rpt ∧ s.getOrderConstraint a b = c ∧
        s.getOrderConstraint b a = c.negate) ∨
      (⟨b, a, c⟩ ∈ s.rpt ∧ s.getOrderConstraint b a = c ∧
        s.getOrderConstraint a b = c.negate) := by
  obtain ⟨p, hp⟩ := Option.isSome_iff_exists.mp hsome
  have hab : a ≠ b := fun heq => hne (by rw [heq])
  have hmem := List.mem_of_find?_eq_some hp
  have hmatch := equals_of_getRecPair hp
  have hp' := hp
  rw [getRecPair_comm] at hp'
  refine ⟨p.constraint, ?_⟩
  simp only [getOrderConstraint, if_neg hne, if_neg (Ne.symm hne), hp, hp']
  rcases hmatch with ⟨rfl, rfl⟩ | ⟨rfl, rfl⟩
  · exact .inl ⟨hmem, by simp, by simp [hab]⟩
  · exact .inr ⟨hmem, by simp, by simp [Ne.symm hab]⟩

/-- An entry for a pair with the constraint `createOrderConstraint` chooses. -/
inductive EntryOk (links : ThreadLinks) (bound : Nat) : RecPair → Prop
  | ctrue {a b : ExecPoint} (h : links.orderThread a b = true) : EntryOk links bound ⟨a, b, .ctrue⟩
  | cfalse {a b : ExecPoint} (h : links.orderThread a b = false)
      (h' : links.orderThread b a = true) : EntryOk links bound ⟨a, b, .cfalse⟩
  | var {a b : ExecPoint} {v : Nat} (h : links.orderThread a b = false)
      (h' : links.orderThread b a = false) (hv : v < bound) : EntryOk links bound ⟨a, b, .var v⟩

theorem EntryOk.mono {bound bound' : Nat} {p : RecPair} (hle : bound ≤ bound')
    (h : EntryOk links bound p) : EntryOk links bound' p := by
  cases h with
  | ctrue h => exact .ctrue h
  | cfalse h h' => exact .cfalse h h'
  | var h h' hv => exact .var h h' (by omega)

def SeparateVars (p q : RecPair) : Prop :=
  ∀ v w, p.constraint = .var v → q.constraint = .var w → v ≠ w

structure RptOk (links : ThreadLinks) (s : OrderTable) : Prop where
  entry : ∀ p ∈ s.rpt, EntryOk links s.varindex p
  vars : s.rpt.Pairwise SeparateVars

def ActionsByThread (vecs : List (List ExecPoint)) : Prop :=
  ∀ (t : Nat) (vec : List ExecPoint), vecs[t]? = some vec → ∀ a ∈ vec, a.tid = t

structure WellFormed (links : ThreadLinks) (s : OrderTable) : Prop where
  rptOk : RptOk links s
  byThread : ActionsByThread s.threadactions
  covered : ∀ a ∈ s.threadactions.flatten, ∀ b ∈ s.threadactions.flatten,
    a.tid ≠ b.tid → (s.getRecPair a b).isSome = true

/-! ## One order constraint -/

theorem createOrderConstraint_threadactions (links : ThreadLinks) (s : OrderTable)
    (a b : ExecPoint) :
    (s.createOrderConstraint links a b).threadactions = s.threadactions := by
  unfold createOrderConstraint getNewVar
  split
  · rfl
  · split_ifs <;> rfl

/-- A new entry goes to the end of the table, and only for a pair without one. -/
theorem createOrderConstraint_cases (links : ThreadLinks) (s : OrderTable)
    (a b : ExecPoint) :
    ((s.getRecPair a b).isSome = true ∧ s.createOrderConstraint links a b = s) ∨
    ∃ p : RecPair, ∃ n, p.epr1 = a ∧ p.epr2 = b ∧ s.varindex ≤ n ∧ EntryOk links n p ∧
      (∀ v, p.constraint = .var v → s.varindex ≤ v) ∧
      s.createOrderConstraint links a b = { s with rpt := s.rpt ++ [p], varindex := n } := by
  unfold createOrderConstraint getNewVar
  cases hfound : s.getRecPair a b with
  | some p => exact .inl ⟨rfl, rfl⟩
  | none =>
    right
    cases hab : links.orderThread a b with
    | true =>
      exact ⟨⟨a, b, .ctrue⟩, s.varindex, rfl, rfl, Nat.le_refl _, .ctrue hab, by simp, by simp⟩
    | false =>
      cases hba : links.orderThread b a with
      | true =>
        exact ⟨⟨a, b, .cfalse⟩, s.varindex, rfl, rfl, Nat.le_refl _, .cfalse hab hba, by simp,
          by simp⟩
      | false =>
        exact ⟨⟨a, b, .var s.varindex⟩, s.varindex + 1, rfl, rfl, by omega,
          .var hab hba (by omega), by simp, by simp⟩

theorem RptOk.createOrderConstraint (h : RptOk links s) (a b : ExecPoint) :
    RptOk links (s.createOrderConstraint links a b) := by
  rcases createOrderConstraint_cases links s a b with ⟨-, heq⟩ | ⟨p, n, -, -, hn, hp, hv, heq⟩
  · rwa [heq]
  · rw [heq]
    refine ⟨?_, ?_⟩
    · intro q hq
      rcases List.mem_append.mp hq with hq | hq
      · exact (h.entry q hq).mono hn
      · rwa [List.mem_singleton.mp hq]
    · rw [List.pairwise_append]
      refine ⟨h.vars, List.pairwise_singleton _ _, ?_⟩
      intro q hq p' hp' v w hqv hpw
      rw [List.mem_singleton.mp hp'] at hpw
      have hw := hv w hpw
      have hlt : v < s.varindex := by
        cases h.entry q hq <;> simp_all
      omega

theorem getRecPair_createOrderConstraint_of_isSome (links : ThreadLinks) (s : OrderTable)
    (a b : ExecPoint) {x y : ExecPoint} (h : (s.getRecPair x y).isSome = true) :
    ((s.createOrderConstraint links a b).getRecPair x y).isSome = true := by
  rcases createOrderConstraint_cases links s a b with ⟨-, heq⟩ | ⟨p, n, -, -, -, -, -, heq⟩
  · rwa [heq]
  · rw [heq]
    simp only [getRecPair, List.find?_append]
    simp only [getRecPair] at h
    rw [Option.isSome_or, h, Bool.true_or]

theorem getRecPair_createOrderConstraint_self (links : ThreadLinks) (s : OrderTable)
    (a b : ExecPoint) :
    ((s.createOrderConstraint links a b).getRecPair a b).isSome = true := by
  rcases createOrderConstraint_cases links s a b with
    ⟨hsome, heq⟩ | ⟨p, n, hp1, hp2, -, -, -, heq⟩
  · rwa [heq]
  · rw [heq]
    have hp : p.equals a b = true := (equals_iff p a b).mpr (.inl ⟨hp1, hp2⟩)
    simp [getRecPair, List.find?_append, hp]

/-! ## One inserted action -/

/-- The loop of `insertAction` over the actions of the other threads. -/
def createAll (links : ThreadLinks) (s : OrderTable) (others : List ExecPoint)
    (record : ExecPoint) : OrderTable :=
  others.foldl (fun s oldrec => s.createOrderConstraint links oldrec record) s

theorem createAll_threadactions (links : ThreadLinks) (s : OrderTable)
    (others : List ExecPoint) (record : ExecPoint) :
    (s.createAll links others record).threadactions = s.threadactions := by
  induction others generalizing s with
  | nil => rfl
  | cons o others ih =>
    rw [createAll, List.foldl_cons]
    exact (ih _).trans (createOrderConstraint_threadactions links s o record)

theorem RptOk.createAll (h : RptOk links s) (others : List ExecPoint) (record : ExecPoint) :
    RptOk links (s.createAll links others record) := by
  induction others generalizing s with
  | nil => exact h
  | cons o others ih => exact ih (h.createOrderConstraint o record)

theorem getRecPair_createAll_of_isSome (others : List ExecPoint) (record : ExecPoint)
    {x y : ExecPoint} (h : (s.getRecPair x y).isSome = true) :
    ((s.createAll links others record).getRecPair x y).isSome = true := by
  induction others generalizing s with
  | nil => exact h
  | cons o others ih =>
    exact ih (getRecPair_createOrderConstraint_of_isSome links s o record h)

theorem getRecPair_createAll_of_mem (others : List ExecPoint) (record : ExecPoint)
    {o : ExecPoint} (ho : o ∈ others) :
    ((s.createAll links others record).getRecPair o record).isSome = true := by
  induction others generalizing s with
  | nil => simp at ho
  | cons o' others ih =>
    rw [OrderTable.createAll, List.foldl_cons]
    rcases List.mem_cons.mp ho with rfl | hmem
    · exact getRecPair_createAll_of_isSome others record
        (getRecPair_createOrderConstraint_self links s o record)
    · exact ih hmem

/-- `threadactions` after the record is pushed. -/
def pushAction (vecs : List (List ExecPoint)) (record : ExecPoint) : List (List ExecPoint) :=
  (resize vecs record.tid).modify record.tid (· ++ [record])

theorem getElem?_resize (vecs : List (List ExecPoint)) (thread t : Nat) :
    (resize vecs thread)[t]? =
      if t < vecs.length then vecs[t]? else if t ≤ thread then some [] else none := by
  unfold resize
  rw [List.getElem?_append]
  split
  · rfl
  · rw [List.getElem?_replicate]
    split_ifs <;> first | rfl | omega

theorem getElem?_pushAction (vecs : List (List ExecPoint)) (record : ExecPoint) (t : Nat) :
    (pushAction vecs record)[t]? =
      if t = record.tid then some ((vecs[t]?.getD []) ++ [record])
      else (resize vecs record.tid)[t]? := by
  unfold pushAction
  rw [List.getElem?_modify]
  by_cases ht : t = record.tid
  · subst ht
    rw [getElem?_resize]
    by_cases hlt : record.tid < vecs.length
    · simp [hlt]
    · simp [hlt]
  · simp [ht, Ne.symm ht]

theorem mem_flatten_iff (vecs : List (List ExecPoint)) (a : ExecPoint) :
    a ∈ vecs.flatten ↔ ∃ (t : Nat) (vec : List ExecPoint), vecs[t]? = some vec ∧ a ∈ vec := by
  rw [List.mem_flatten]
  constructor
  · rintro ⟨vec, hvec, ha⟩
    obtain ⟨t, ht⟩ := List.mem_iff_getElem?.mp hvec
    exact ⟨t, vec, ht, ha⟩
  · rintro ⟨t, vec, ht, ha⟩
    exact ⟨vec, List.mem_of_getElem? ht, ha⟩

theorem mem_of_resize {vecs : List (List ExecPoint)} {thread t : Nat} {vec : List ExecPoint}
    {a : ExecPoint} (h : (resize vecs thread)[t]? = some vec) (ha : a ∈ vec) :
    vecs[t]? = some vec := by
  rw [getElem?_resize] at h
  split_ifs at h
  · exact h
  · simp only [Option.some.injEq] at h
    subst h
    simp at ha

theorem mem_flatten_pushAction {vecs : List (List ExecPoint)} {record a : ExecPoint}
    (h : a ∈ (pushAction vecs record).flatten) : a = record ∨ a ∈ vecs.flatten := by
  obtain ⟨t, vec, ht, ha⟩ := (mem_flatten_iff _ a).mp h
  rw [getElem?_pushAction] at ht
  split_ifs at ht with htid
  · simp only [Option.some.injEq] at ht
    subst ht
    rcases List.mem_append.mp ha with ha | ha
    · right
      cases hvec : vecs[t]? with
      | none => simp [hvec] at ha
      | some old => exact (mem_flatten_iff _ a).mpr ⟨t, old, hvec, by simpa [hvec] using ha⟩
    · exact .inl (List.mem_singleton.mp ha)
  · exact .inr ((mem_flatten_iff _ a).mpr ⟨t, vec, mem_of_resize ht ha, ha⟩)

theorem ActionsByThread.pushAction {vecs : List (List ExecPoint)}
    (h : ActionsByThread vecs) (record : ExecPoint) :
    ActionsByThread (OrderTable.pushAction vecs record) := by
  intro t vec ht a ha
  rw [getElem?_pushAction] at ht
  split_ifs at ht with htid
  · simp only [Option.some.injEq] at ht
    subst ht
    rcases List.mem_append.mp ha with ha | ha
    · cases hvec : vecs[t]? with
      | none => simp [hvec] at ha
      | some old => exact h t old hvec a (by simpa [hvec] using ha)
    · rw [List.mem_singleton.mp ha, htid]
  · exact h t vec (mem_of_resize ht ha) a ha

theorem ActionsByThread.mem_others {vecs : List (List ExecPoint)} (h : ActionsByThread vecs)
    {a : ExecPoint} (ha : a ∈ vecs.flatten) {thread : Nat} (hne : a.tid ≠ thread) :
    a ∈ (vecs.zipIdx.filter fun p => p.2 ≠ thread).flatMap Prod.fst := by
  obtain ⟨t, vec, ht, hmem⟩ := (mem_flatten_iff vecs a).mp ha
  rw [List.mem_flatMap]
  refine ⟨(vec, t), ?_, hmem⟩
  rw [List.mem_filter, List.mk_mem_zipIdx_iff_getElem?]
  have := h t vec ht a hmem
  exact ⟨ht, by simpa [← this] using hne⟩

theorem insertAction_eq (links : ThreadLinks) (s : OrderTable) (record : ExecPoint) :
    s.insertAction links record =
      createAll links { s with threadactions := pushAction s.threadactions record }
        (((pushAction s.threadactions record).zipIdx.filter
          fun p => p.2 ≠ record.tid).flatMap Prod.fst) record := rfl

theorem WellFormed.insertAction (h : WellFormed links s) (record : ExecPoint) :
    WellFormed links (s.insertAction links record) := by
  have hby := h.byThread.pushAction record
  rw [insertAction_eq]
  refine ⟨?_, ?_, ?_⟩
  · exact RptOk.createAll
      (s := { s with threadactions := pushAction s.threadactions record })
      ⟨h.rptOk.entry, h.rptOk.vars⟩ _ record
  · rw [createAll_threadactions]
    exact hby
  · rw [createAll_threadactions]
    -- the new record is paired with every other thread; older pairs keep their entry
    have hnew : ∀ a ∈ (pushAction s.threadactions record).flatten, a.tid ≠ record.tid →
        ((createAll links { s with threadactions := pushAction s.threadactions record }
          (((pushAction s.threadactions record).zipIdx.filter
            fun p => p.2 ≠ record.tid).flatMap Prod.fst) record).getRecPair a record).isSome
          = true :=
      fun a ha hne => getRecPair_createAll_of_mem _ record (hby.mem_others ha hne)
    intro a ha b hb hne
    rcases mem_flatten_pushAction ha with rfl | haold
    · rw [getRecPair_comm]
      exact hnew b hb (Ne.symm hne)
    · rcases mem_flatten_pushAction hb with rfl | hbold
      · exact hnew a ha hne
      · exact getRecPair_createAll_of_isSome _ record (h.covered a haold b hbold hne)

/-! ## The whole traversal -/

theorem wellFormed_empty (links : ThreadLinks) (n : Nat) : WellFormed links (empty n) where
  rptOk := ⟨by simp [empty], List.Pairwise.nil⟩
  byThread := by simp [ActionsByThread, empty]
  covered := by simp [empty]

theorem WellFormed.visit (h : WellFormed links s) (v : Visit) :
    WellFormed links (s.visit links v) := by
  cases v with
  | action record => exact h.insertAction record
  | newVars num =>
    exact ⟨⟨fun p hp => (h.rptOk.entry p hp).mono (Nat.le_add_right _ _), h.rptOk.vars⟩,
      h.byThread, h.covered⟩

theorem WellFormed.foldl_visit (h : WellFormed links s) (visits : List Visit) :
    WellFormed links (visits.foldl (OrderTable.visit links) s) := by
  induction visits generalizing s with
  | nil => exact h
  | cons v visits ih => exact ih (h.visit v)

theorem wellFormed_traverse (links : ThreadLinks) (visits : List Visit) :
    WellFormed links (traverse links visits) :=
  (wellFormed_empty links 1).foldl_visit visits

end OrderTable

end SatCheck
