import SatCheck.Simplify
import SatCheck.OrderInvariant
import SatCheck.Library.Tournament
/-!
# The transitivity clauses

The clauses of `genTransOrderConstraints` are satisfied exactly by the
assignments whose order is a strict total order on the memory actions.  The order
is a tournament by construction, so only triangles have to be excluded, and the
two forms of the clauses exclude those over two and over three threads.
-/

namespace SatCheck

namespace OrderTable

open Constraint Tournament

variable {links : ThreadLinks} {s : OrderTable} {ρ : Nat → Bool}

/-- A memory action with its place in `threadactions`. -/
structure ActionPos (s : OrderTable) where
  thread : Nat
  index : Nat
  record : ExecPoint
  found : ∃ vec : List ExecPoint, s.threadactions[thread]? = some vec ∧ vec[index]? = some record

/-- The order of an assignment: the vector order inside a thread, and the value of
`getOrderConstraint` between threads. -/
def Before (ρ : Nat → Bool) (s : OrderTable) (a b : ActionPos s) : Prop :=
  if a.thread = b.thread then a.index < b.index
  else eval ρ (s.getOrderConstraint a.record b.record) = true

/-- The clauses printed by `genTransOrderConstraints`. -/
def transOrderClauses (s : OrderTable) : List Constraint :=
  s.genTransOrderConstraints.flatMap addConstraint

theorem ActionPos.eq_of_place {a b : ActionPos s} (ht : a.thread = b.thread)
    (hi : a.index = b.index) : a = b := by
  obtain ⟨t, i, r, vec, hvec, hr⟩ := a
  obtain ⟨t', i', r', vec', hvec', hr'⟩ := b
  simp only at ht hi
  subst ht hi
  rw [hvec, Option.some.injEq] at hvec'
  subst hvec'
  rw [hr, Option.some.injEq] at hr'
  subst hr'
  rfl

theorem ActionPos.mem_flatten (a : ActionPos s) : a.record ∈ s.threadactions.flatten := by
  obtain ⟨vec, hvec, hr⟩ := a.found
  exact (mem_flatten_iff _ _).mpr ⟨a.thread, vec, hvec, List.mem_of_getElem? hr⟩

theorem WellFormed.record_tid (h : WellFormed links s) (a : ActionPos s) :
    a.record.tid = a.thread := by
  obtain ⟨vec, hvec, hr⟩ := a.found
  exact h.byThread a.thread vec hvec a.record (List.mem_of_getElem? hr)

/-! ## The order is a tournament -/

theorem EntryOk.implicationFree {bound : Nat} {p : RecPair} (h : EntryOk links bound p) :
    p.constraint.implicationFree = true ∧ p.constraint.negate.implicationFree = true := by
  cases h <;> exact ⟨rfl, rfl⟩

theorem RptOk.implicationFree (h : RptOk links s) (a b : ExecPoint) :
    (s.getOrderConstraint a b).implicationFree = true := by
  unfold getOrderConstraint
  split_ifs
  · rfl
  · rfl
  · cases hfound : s.getRecPair a b with
    | none => rfl
    | some p =>
      have hp := (h.entry p (List.mem_of_find?_eq_some hfound)).implicationFree
      simp only
      split_ifs
      · exact hp.2
      · exact hp.1

/-- Two lookups in opposite directions find one entry and read it in opposite ways. -/
theorem RptOk.eval_getOrderConstraint_swap (h : RptOk links s) {a b : ExecPoint}
    (hne : a.tid ≠ b.tid) (hsome : (s.getRecPair a b).isSome = true) :
    eval ρ (s.getOrderConstraint b a) = !eval ρ (s.getOrderConstraint a b) := by
  obtain ⟨c, ⟨hmem, hab, hba⟩ | ⟨hmem, hba, hab⟩⟩ := getOrderConstraint_cases hne hsome
  · rw [hab, hba, eval_negate ρ c (h.entry _ hmem).implicationFree.1]
  · rw [hab, hba, eval_negate ρ c (h.entry _ hmem).implicationFree.1, Bool.not_not]

theorem WellFormed.eval_swap (h : WellFormed links s) {a b : ActionPos s}
    (hne : a.thread ≠ b.thread) :
    eval ρ (s.getOrderConstraint b.record a.record) =
      !eval ρ (s.getOrderConstraint a.record b.record) := by
  have htid : a.record.tid ≠ b.record.tid := by
    rwa [h.record_tid a, h.record_tid b]
  exact h.rptOk.eval_getOrderConstraint_swap htid
    (h.covered a.record a.mem_flatten b.record b.mem_flatten htid)

theorem WellFormed.isTournament (h : WellFormed links s) : IsTournament (Before ρ s) where
  asymm a b hab hba := by
    unfold Before at hab hba
    by_cases ht : a.thread = b.thread
    · rw [if_pos ht] at hab
      rw [if_pos ht.symm] at hba
      omega
    · rw [if_neg ht] at hab
      rw [if_neg (Ne.symm ht), h.eval_swap ht, hab] at hba
      simp at hba
  total a b hne := by
    unfold Before
    by_cases ht : a.thread = b.thread
    · rw [if_pos ht, if_pos ht.symm]
      have hindex : a.index ≠ b.index := fun hi => hne (ActionPos.eq_of_place ht hi)
      omega
    · rw [if_neg ht, if_neg (Ne.symm ht), h.eval_swap ht]
      cases eval ρ (s.getOrderConstraint a.record b.record) <;> simp

theorem before_chain (a b c : ActionPos s) (hab : a.thread = b.thread)
    (hbc : b.thread = c.thread) :
    Before ρ s a b → Before ρ s b c → ¬ Before ρ s c a := by
  unfold Before
  rw [if_pos hab, if_pos hbc, if_pos (by omega)]
  omega

/-! ## What the clauses say -/

/-- The constraint is a disjunction of lookups. -/
def IsOrderClause (s : OrderTable) (c : Constraint) : Prop :=
  ∃ cs, c = .or cs ∧ ∀ d ∈ cs, ∃ a b, d = s.getOrderConstraint a b

private theorem isOrderClause_pair (s : OrderTable) (a b a' b' : ExecPoint) :
    s.IsOrderClause (.or [s.getOrderConstraint a b, s.getOrderConstraint a' b']) := by
  refine ⟨_, rfl, ?_⟩
  simp only [List.mem_cons, List.not_mem_nil, or_false]
  rintro d (rfl | rfl)
  · exact ⟨a, b, rfl⟩
  · exact ⟨a', b', rfl⟩

private theorem isOrderClause_of_mem₂ {v1 v2 : List ExecPoint} {c : Constraint}
    (hc : c ∈ s.genTransOrderConstraints₂ v1 v2) : s.IsOrderClause c := by
  simp only [genTransOrderConstraints₂, List.mem_flatMap] at hc
  obtain ⟨⟨r1, i⟩, -, ⟨r2, j⟩, -, hc⟩ := hc
  split_ifs at hc
  · simp at hc
  · rcases List.mem_append.mp hc with hc | hc
    · obtain ⟨r3, -, rfl⟩ := List.mem_map.mp hc
      exact isOrderClause_pair s _ _ _ _
    · obtain ⟨r0, -, rfl⟩ := List.mem_map.mp hc
      exact isOrderClause_pair s _ _ _ _

private theorem isOrderClause_of_mem₃ {v1 v2 v3 : List ExecPoint} {c : Constraint}
    (hc : c ∈ s.genTransOrderConstraints₃ v1 v2 v3) : s.IsOrderClause c := by
  simp only [genTransOrderConstraints₃, genTransOrderConstraint, List.mem_flatMap,
    List.mem_cons, List.not_mem_nil, or_false] at hc
  obtain ⟨r1, -, r2, -, r3, -, rfl | rfl⟩ := hc
  · refine ⟨_, rfl, ?_⟩
    simp only [List.mem_cons, List.not_mem_nil, or_false]
    rintro d (rfl | rfl | rfl) <;> exact ⟨_, _, rfl⟩
  · refine ⟨_, rfl, ?_⟩
    simp only [List.mem_cons, List.not_mem_nil, or_false]
    rintro d (rfl | rfl | rfl) <;> exact ⟨_, _, rfl⟩

private theorem isOrderClause_of_mem {c : Constraint} (hc : c ∈ s.genTransOrderConstraints) :
    s.IsOrderClause c := by
  simp only [genTransOrderConstraints, List.mem_flatMap, List.mem_append] at hc
  obtain ⟨⟨v1, t1⟩, -, ⟨v2, t2⟩, -, (hc | hc) | ⟨v3, -, hc⟩⟩ := hc
  · exact isOrderClause_of_mem₂ hc
  · exact isOrderClause_of_mem₂ hc
  · exact isOrderClause_of_mem₃ hc

/-- The conversion to clauses loses nothing on the constraints of the order. -/
theorem RptOk.all_clauses_iff (h : RptOk links s) :
    s.transOrderClauses.all (eval ρ) = true ↔
      ∀ c ∈ s.genTransOrderConstraints, eval ρ c = true := by
  rw [transOrderClauses, List.all_flatMap, List.all_eq_true]
  refine forall₂_congr fun c hc => ?_
  obtain ⟨cs, rfl, hcs⟩ := isOrderClause_of_mem hc
  rw [all_addConstraint_or]
  intro d hd
  obtain ⟨a, b, rfl⟩ := hcs d hd
  exact h.implicationFree a b

theorem forall_genTrans₂_iff (v1 v2 : List ExecPoint) :
    (∀ c ∈ s.genTransOrderConstraints₂ v1 v2, eval ρ c = true) ↔
      ∀ (i j : Nat) (r1 r2 : ExecPoint), v1[i]? = some r1 → v2[j]? = some r2 →
        eval ρ (s.getOrderConstraint r2 r1) = false →
        (∀ (k : Nat) (r3 : ExecPoint), j < k → v2[k]? = some r3 →
          eval ρ (s.getOrderConstraint r1 r3) = true) ∧
        (∀ (k : Nat) (r0 : ExecPoint), k < i → v1[k]? = some r0 →
          eval ρ (s.getOrderConstraint r0 r2) = true) := by
  constructor
  · intro h i j r1 r2 hi hj hfalse
    have hmem : ∀ c ∈ _, c ∈ s.genTransOrderConstraints₂ v1 v2 := fun c hc =>
      List.mem_flatMap.mpr ⟨(r1, i), List.mk_mem_zipIdx_iff_getElem?.mpr hi,
        List.mem_flatMap.mpr ⟨(r2, j), List.mk_mem_zipIdx_iff_getElem?.mpr hj, hc⟩⟩
    have hnottrue : (s.getOrderConstraint r2 r1).isTrue = false := by
      cases htrue : (s.getOrderConstraint r2 r1).isTrue with
      | false => rfl
      | true => simp [eq_ctrue_of_isTrue htrue] at hfalse
    simp only [hnottrue] at hmem
    constructor
    · intro k r3 hjk hk
      have hdrop : r3 ∈ v2.drop (j + 1) := by
        apply List.mem_of_getElem? (i := k - (j + 1))
        rwa [List.getElem?_drop, Nat.add_sub_cancel' hjk]
      have := h _ (hmem _ (List.mem_append.mpr (.inl (List.mem_map.mpr ⟨r3, hdrop, rfl⟩))))
      simpa [hfalse] using this
    · intro k r0 hki hk
      have htake : r0 ∈ v1.take i :=
        List.mem_of_getElem? (i := k) (by rwa [List.getElem?_take_of_lt hki])
      have := h _ (hmem _ (List.mem_append.mpr (.inr (List.mem_map.mpr ⟨r0, htake, rfl⟩))))
      simpa [hfalse] using this
  · intro h c hc
    simp only [genTransOrderConstraints₂, List.mem_flatMap] at hc
    obtain ⟨⟨r1, i⟩, hi, ⟨r2, j⟩, hj, hc⟩ := hc
    rw [List.mk_mem_zipIdx_iff_getElem?] at hi hj
    split_ifs at hc
    · simp at hc
    · rcases List.mem_append.mp hc with hc | hc
      · obtain ⟨r3, hr3, rfl⟩ := List.mem_map.mp hc
        obtain ⟨k, hk⟩ := List.mem_iff_getElem?.mp hr3
        rw [List.getElem?_drop] at hk
        cases hfalse : eval ρ (s.getOrderConstraint r2 r1) with
        | true => simp [hfalse]
        | false => simp [(h i j r1 r2 hi hj hfalse).1 _ r3 (by omega) hk]
      · obtain ⟨r0, hr0, rfl⟩ := List.mem_map.mp hc
        obtain ⟨k, hk⟩ := List.mem_iff_getElem?.mp hr0
        have hki : k < i := by
          by_contra hge
          rw [List.getElem?_take_eq_none (by omega)] at hk
          cases hk
        rw [List.getElem?_take_of_lt hki] at hk
        cases hfalse : eval ρ (s.getOrderConstraint r2 r1) with
        | true => simp [hfalse]
        | false => simp [(h i j r1 r2 hi hj hfalse).2 k r0 hki hk]

theorem forall_genTrans₃_iff (v1 v2 v3 : List ExecPoint) :
    (∀ c ∈ s.genTransOrderConstraints₃ v1 v2 v3, eval ρ c = true) ↔
      ∀ r1 ∈ v1, ∀ r2 ∈ v2, ∀ r3 ∈ v3,
        eval ρ (.or [s.getOrderConstraint r2 r1, s.getOrderConstraint r3 r2,
          s.getOrderConstraint r1 r3]) = true ∧
        eval ρ (.or [s.getOrderConstraint r1 r2, s.getOrderConstraint r2 r3,
          s.getOrderConstraint r3 r1]) = true := by
  simp only [genTransOrderConstraints₃, genTransOrderConstraint, List.forall_mem_flatMap,
    List.forall_mem_cons, List.not_mem_nil, false_implies, implies_true, and_true]

theorem forall_genTrans_iff :
    (∀ c ∈ s.genTransOrderConstraints, eval ρ c = true) ↔
      (∀ (t1 t2 : Nat) (v1 v2 : List ExecPoint), s.threadactions[t1]? = some v1 →
        s.threadactions[t2]? = some v2 → t1 ≠ t2 →
        ∀ c ∈ s.genTransOrderConstraints₂ v1 v2, eval ρ c = true) ∧
      (∀ (t1 t2 t3 : Nat) (v1 v2 v3 : List ExecPoint), s.threadactions[t1]? = some v1 →
        s.threadactions[t2]? = some v2 → s.threadactions[t3]? = some v3 → t2 < t1 → t3 < t2 →
        ∀ c ∈ s.genTransOrderConstraints₃ v1 v2 v3, eval ρ c = true) := by
  have hlower : ∀ {t t' : Nat} {v : List ExecPoint},
      (v, t') ∈ (s.threadactions.take t).zipIdx ↔ t' < t ∧ s.threadactions[t']? = some v := by
    intro t t' v
    rw [List.mk_mem_zipIdx_iff_getElem?, List.getElem?_take]
    split_ifs with hlt <;> simp [hlt]
  have hlower' : ∀ {t : Nat} {v : List ExecPoint},
      v ∈ s.threadactions.take t ↔ ∃ t', t' < t ∧ s.threadactions[t']? = some v := by
    intro t v
    rw [List.mem_iff_getElem?]
    refine exists_congr fun t' => ?_
    rw [List.getElem?_take]
    split_ifs with hlt <;> simp [hlt]
  unfold genTransOrderConstraints
  simp only [List.forall_mem_flatMap, List.forall_mem_append, Prod.forall,
    List.mk_mem_zipIdx_iff_getElem?, hlower, hlower']
  constructor
  · intro h
    constructor
    · intro t1 t2 v1 v2 h1 h2 hne
      rcases Nat.lt_or_gt_of_ne hne with hlt | hlt
      · exact (h v2 t2 h2 v1 t1 ⟨hlt, h1⟩).1.2
      · exact (h v1 t1 h1 v2 t2 ⟨hlt, h2⟩).1.1
    · intro t1 t2 t3 v1 v2 v3 h1 h2 h3 h21 h32
      exact (h v1 t1 h1 v2 t2 ⟨h21, h2⟩).2 v3 ⟨t3, h32, h3⟩
  · rintro ⟨htwo, hthree⟩ v1 t1 h1 v2 t2 ⟨h21, h2⟩
    refine ⟨⟨htwo t1 t2 v1 v2 h1 h2 (by omega), htwo t2 t1 v2 v1 h2 h1 (by omega)⟩, ?_⟩
    rintro v3 ⟨t3, h32, h3⟩
    exact hthree t1 t2 t3 v1 v2 v3 h1 h2 h3 h21 h32

/-! ## Clauses and triangles -/

/-- The place of the `i`-th action of thread `t`. -/
def ActionPos.ofPlace {t i : Nat} {v : List ExecPoint} {r : ExecPoint}
    (hv : s.threadactions[t]? = some v) (hr : v[i]? = some r) : ActionPos s :=
  ⟨t, i, r, v, hv, hr⟩

theorem before_of_ne {a b : ActionPos s} (hne : a.thread ≠ b.thread) :
    Before ρ s a b ↔ eval ρ (s.getOrderConstraint a.record b.record) = true := by
  rw [Before, if_neg hne]

theorem before_of_eq {a b : ActionPos s} (heq : a.thread = b.thread) :
    Before ρ s a b ↔ a.index < b.index := by
  rw [Before, if_pos heq]

theorem WellFormed.twoThread_iff (h : WellFormed links s) :
    (∀ (t1 t2 : Nat) (v1 v2 : List ExecPoint), s.threadactions[t1]? = some v1 →
      s.threadactions[t2]? = some v2 → t1 ≠ t2 →
      ∀ c ∈ s.genTransOrderConstraints₂ v1 v2, eval ρ c = true) ↔
    NoTwoBlockTriangle ActionPos.thread (Before ρ s) := by
  constructor
  · -- the clause for the later action `b` and the action `c` has a disjunct for `a`
    intro hclauses a b c hab hca hbefore hbc hcb
    obtain ⟨va, hva, ha⟩ := a.found
    obtain ⟨vb, hvb, hb⟩ := b.found
    obtain ⟨vc, hvc, hc⟩ := c.found
    have hvab : va = vb := by
      rw [hab, hvb, Option.some.injEq] at hva
      exact hva.symm
    subst hvab
    have hne : b.thread ≠ c.thread := by omega
    rw [before_of_eq hab] at hbefore
    rw [before_of_ne hne] at hbc
    rw [before_of_ne hca] at hcb
    have hfalse : eval ρ (s.getOrderConstraint c.record b.record) = false := by
      rw [h.eval_swap hne, hbc, Bool.not_true]
    have hac := ((forall_genTrans₂_iff va vc).mp
      (hclauses b.thread c.thread va vc hvb hvc hne)
      b.index c.index b.record c.record hb hc hfalse).2 a.index a.record hbefore ha
    rw [h.eval_swap (a := a) (b := c) (by omega), hac] at hcb
    simp at hcb
  · intro hfree t1 t2 v1 v2 h1 h2 hne
    rw [forall_genTrans₂_iff]
    intro i j r1 r2 hr1 hr2 hfalse
    let p1 : ActionPos s := .ofPlace h1 hr1
    let p2 : ActionPos s := .ofPlace h2 hr2
    have hp : p1.thread ≠ p2.thread := hne
    have h12 : Before ρ s p1 p2 := by
      rw [before_of_ne hp, h.eval_swap (Ne.symm hp)]
      exact (congrArg not hfalse).trans rfl
    constructor
    · intro k r3 hjk hr3
      let p3 : ActionPos s := .ofPlace h2 hr3
      have h23 : Before ρ s p2 p3 := (before_of_eq (a := p2) (b := p3) rfl).mpr hjk
      have h31 : ¬ Before ρ s p3 p1 := fun h31 => hfree p2 p3 p1 rfl hp h23 h31 h12
      rw [before_of_ne (a := p3) (b := p1) (Ne.symm hne),
        h.eval_swap (a := p1) (b := p3) hne] at h31
      exact Bool.not_eq_false _ |>.mp fun hno => h31 ((congrArg not hno).trans rfl)
    · intro k r0 hki hr0
      let p0 : ActionPos s := .ofPlace h1 hr0
      have h01 : Before ρ s p0 p1 := (before_of_eq (a := p0) (b := p1) rfl).mpr hki
      have h20 : ¬ Before ρ s p2 p0 := hfree p0 p1 p2 rfl (Ne.symm hp) h01 h12
      rw [before_of_ne (a := p2) (b := p0) (Ne.symm hne),
        h.eval_swap (a := p0) (b := p2) hne] at h20
      exact Bool.not_eq_false _ |>.mp fun hno => h20 ((congrArg not hno).trans rfl)

theorem WellFormed.threeThread_iff (h : WellFormed links s) :
    (∀ (t1 t2 t3 : Nat) (v1 v2 v3 : List ExecPoint), s.threadactions[t1]? = some v1 →
      s.threadactions[t2]? = some v2 → s.threadactions[t3]? = some v3 → t2 < t1 → t3 < t2 →
      ∀ c ∈ s.genTransOrderConstraints₃ v1 v2 v3, eval ρ c = true) ↔
    NoThreeBlockTriangle ActionPos.thread (Before ρ s) := by
  have hcycle : ∀ a b c : ActionPos s, b.thread < a.thread → c.thread < b.thread →
      (eval ρ (.or [s.getOrderConstraint b.record a.record,
          s.getOrderConstraint c.record b.record,
          s.getOrderConstraint a.record c.record]) = true ∧
        eval ρ (.or [s.getOrderConstraint a.record b.record,
          s.getOrderConstraint b.record c.record,
          s.getOrderConstraint c.record a.record]) = true ↔
        ¬ (Before ρ s a b ∧ Before ρ s b c ∧ Before ρ s c a) ∧
        ¬ (Before ρ s b a ∧ Before ρ s c b ∧ Before ρ s a c)) := by
    intro a b c hba hcb
    have hab : a.thread ≠ b.thread := by omega
    have hbc : b.thread ≠ c.thread := by omega
    have hac : a.thread ≠ c.thread := by omega
    rw [before_of_ne hab, before_of_ne hbc, before_of_ne (Ne.symm hac),
      before_of_ne (Ne.symm hab), before_of_ne (Ne.symm hbc), before_of_ne hac,
      eval_or, eval_or]
    simp only [List.any_cons, List.any_nil, Bool.or_false, h.eval_swap hab, h.eval_swap hbc,
      h.eval_swap hac]
    cases eval ρ (s.getOrderConstraint a.record b.record) <;>
      cases eval ρ (s.getOrderConstraint b.record c.record) <;>
      cases eval ρ (s.getOrderConstraint a.record c.record) <;> decide
  constructor
  · intro hclauses a b c hba hcb
    obtain ⟨va, hva, ha⟩ := a.found
    obtain ⟨vb, hvb, hb⟩ := b.found
    obtain ⟨vc, hvc, hc⟩ := c.found
    exact (hcycle a b c hba hcb).mp ((forall_genTrans₃_iff va vb vc).mp
      (hclauses _ _ _ va vb vc hva hvb hvc hba hcb) _ (List.mem_of_getElem? ha)
      _ (List.mem_of_getElem? hb) _ (List.mem_of_getElem? hc))
  · intro hfree t1 t2 t3 v1 v2 v3 h1 h2 h3 h21 h32
    rw [forall_genTrans₃_iff]
    intro r1 hr1 r2 hr2 r3 hr3
    obtain ⟨i, hi⟩ := List.mem_iff_getElem?.mp hr1
    obtain ⟨j, hj⟩ := List.mem_iff_getElem?.mp hr2
    obtain ⟨k, hk⟩ := List.mem_iff_getElem?.mp hr3
    exact (hcycle (.ofPlace h1 hi) (.ofPlace h2 hj) (.ofPlace h3 hk) h21 h32).mpr
      (hfree (.ofPlace h1 hi) (.ofPlace h2 hj) (.ofPlace h3 hk) h21 h32)

theorem WellFormed.clauses_iff (h : WellFormed links s) :
    s.transOrderClauses.all (eval ρ) = true ↔
      IsStrictTotalOrder (ActionPos s) (Before ρ s) := by
  rw [h.rptOk.all_clauses_iff, forall_genTrans_iff, h.twoThread_iff, h.threeThread_iff,
    isStrictTotalOrder_iff_triangleFree h.isTournament,
    triangleFree_iff_of_blocks ActionPos.thread fun a b c => before_chain a b c]

/-- After any traversal, the satisfying assignments of the transitivity clauses are
exactly the total orders of the memory actions. -/
theorem transOrderClauses_iff_total_order (links : ThreadLinks) (visits : List Visit)
    (ρ : Nat → Bool) :
    (traverse links visits).transOrderClauses.all (eval ρ) = true ↔
      IsStrictTotalOrder (ActionPos (traverse links visits))
        (Before ρ (traverse links visits)) :=
  (wellFormed_traverse links visits).clauses_iff

end OrderTable

end SatCheck
