import SatCheck.TransOrder
import Mathlib.Data.List.Induction
import Mathlib.Data.List.Pairwise
/-!
# Creation and join order

`orderThread` looks at one creation and one join only.  The clauses carry this
along the memory actions, so an action that happens before another one is also
ordered before it exactly when a chain of memory actions links the two.
-/

namespace SatCheck

open Constraint

/-- Program order, creation and join, through any records of any threads. -/
inductive ThreadLinks.HappensBefore (links : ThreadLinks) : ExecPoint → ExecPoint → Prop
  | program {x y : ExecPoint} (htid : x.tid = y.tid) (h : x.compare y = .after) :
      links.HappensBefore x y
  | create {start y : ExecPoint} (h : links.parentRecord y.tid = some start) :
      links.HappensBefore start y
  | join {x : ExecPoint} {join : JoinRecord} (hjoin : join ∈ links.joins)
      (h : join.jointhread = some x.tid) : links.HappensBefore x join.ep
  | trans {x y z : ExecPoint} (hxy : links.HappensBefore x y) (hyz : links.HappensBefore y z) :
      links.HappensBefore x z

namespace OrderTable

open Relation Tournament

variable {links : ThreadLinks} {s : OrderTable} {visits : List Visit} {ρ : Nat → Bool}

def actions (visits : List Visit) : List ExecPoint :=
  visits.filterMap fun
    | .action record => some record
    | .newVars _ => none

/-- The order that no assignment can change: the vector of a thread, and the pairs
`orderThread` decides when the later action is inserted. -/
def FixedBefore (links : ThreadLinks) (visits : List Visit) (x y : ExecPoint) : Prop :=
  x ∈ actions visits ∧ y ∈ actions visits ∧
    if x.tid = y.tid then [x, y].Sublist (actions visits)
    else links.orderThread x y = true ∧
      ([x, y].Sublist (actions visits) ∨ links.orderThread y x = false)

theorem actions_append_action (visits : List Visit) (record : ExecPoint) :
    actions (visits ++ [.action record]) = actions visits ++ [record] := by
  simp [actions]

theorem actions_append_newVars (visits : List Visit) (num : Nat) :
    actions (visits ++ [.newVars num]) = actions visits := by
  simp [actions]

/-! ## What the table remembers of the visits -/

structure Traversed (visits : List Visit) (s : OrderTable) : Prop where
  vectors : ∀ t, (s.threadactions[t]?).getD [] = (actions visits).filter (·.tid = t)
  earlier : ∀ p ∈ s.rpt, [p.epr1, p.epr2].Sublist (actions visits)

theorem traversed_empty (n : Nat) : Traversed [] (empty n) where
  vectors := by simp [empty, actions]
  earlier := by simp [empty]

theorem mem_rpt_createAll {others : List ExecPoint} {record : ExecPoint} {p : RecPair}
    (hp : p ∈ (s.createAll links others record).rpt) :
    p ∈ s.rpt ∨ p.epr1 ∈ others ∧ p.epr2 = record := by
  induction others generalizing s with
  | nil => exact .inl hp
  | cons o others ih =>
    rcases ih hp with hp | ⟨hp1, hp2⟩
    · change p ∈ (s.createOrderConstraint links o record).rpt at hp
      rcases createOrderConstraint_cases links s o record with
        ⟨-, heq⟩ | ⟨q, n, hq1, hq2, -, -, -, heq⟩
      · rw [heq] at hp
        exact .inl hp
      · rw [heq] at hp
        rcases List.mem_append.mp hp with hp | hp
        · exact .inl hp
        · rw [List.mem_singleton.mp hp]
          exact .inr ⟨by simp [hq1], hq2⟩
    · exact .inr ⟨List.mem_cons_of_mem o hp1, hp2⟩

theorem pushAction_getD (vecs : List (List ExecPoint)) (record : ExecPoint) (t : Nat) :
    ((pushAction vecs record)[t]?).getD [] =
      (vecs[t]?).getD [] ++ if t = record.tid then [record] else [] := by
  rw [getElem?_pushAction]
  split_ifs with ht
  · rfl
  · rw [getElem?_resize]
    split_ifs with hlt
    · simp
    · simp [List.getElem?_eq_none (Nat.le_of_not_lt hlt)]
    · simp [List.getElem?_eq_none (Nat.le_of_not_lt hlt)]

theorem Traversed.insertAction (h : Traversed visits s) (record : ExecPoint) :
    Traversed (visits ++ [.action record]) (s.insertAction links record) := by
  rw [insertAction_eq]
  have hvectors : ∀ t, ((pushAction s.threadactions record)[t]?).getD [] =
      (actions visits ++ [record]).filter (·.tid = t) := by
    intro t
    rw [pushAction_getD, h.vectors, List.filter_append]
    by_cases ht : t = record.tid
    · simp [ht]
    · simp [ht, Ne.symm ht]
  refine ⟨?_, ?_⟩
  · rw [createAll_threadactions, actions_append_action]
    exact hvectors
  · intro p hp
    rw [actions_append_action]
    rcases mem_rpt_createAll hp with hp | ⟨hp1, hp2⟩
    · exact (h.earlier p hp).trans (List.sublist_append_left _ _)
    · -- the partner of a new entry is an older action
      obtain ⟨⟨vec, t⟩, hvec, hmem⟩ := List.mem_flatMap.mp hp1
      obtain ⟨hzip, hne⟩ := List.mem_filter.mp hvec
      rw [List.mk_mem_zipIdx_iff_getElem?] at hzip
      have hfilter := hvectors t
      rw [hzip, Option.getD_some] at hfilter
      have hold : p.epr1 ∈ actions visits := by
        rw [hfilter, List.mem_filter, List.mem_append, List.mem_singleton] at hmem
        refine hmem.1.resolve_right fun heq => ?_
        simp_all
      rw [hp2]
      exact List.Sublist.append (List.singleton_sublist.mpr hold) (List.Sublist.refl [record])

theorem traversed_traverse (links : ThreadLinks) (visits : List Visit) :
    Traversed visits (traverse links visits) := by
  induction visits using List.reverseRecOn with
  | nil => exact traversed_empty 1
  | append_singleton visits v ih =>
    rw [traverse, List.foldl_append]
    cases v with
    | action record => exact ih.insertAction record
    | newVars num =>
      refine ⟨?_, ?_⟩ <;> rw [actions_append_newVars]
      · exact ih.vectors
      · exact ih.earlier

/-! ## Places and visits -/

theorem Traversed.exists_pos (h : Traversed visits s) {x : ExecPoint}
    (hx : x ∈ actions visits) : ∃ p : ActionPos s, p.record = x := by
  have hmem : x ∈ (s.threadactions[x.tid]?).getD [] := by
    rw [h.vectors]
    simp [hx]
  cases hvec : s.threadactions[x.tid]? with
  | none => simp [hvec] at hmem
  | some vec =>
    rw [hvec, Option.getD_some] at hmem
    obtain ⟨i, hi⟩ := List.mem_iff_getElem?.mp hmem
    exact ⟨.ofPlace hvec hi, rfl⟩

theorem Traversed.mem_actions (h : Traversed visits s) (p : ActionPos s) :
    p.record ∈ actions visits := by
  obtain ⟨vec, hvec, hr⟩ := p.found
  have hfilter := h.vectors p.thread
  rw [hvec, Option.getD_some] at hfilter
  exact (List.mem_filter.mp (hfilter ▸ List.mem_of_getElem? hr)).1

private theorem sublist_of_getElem? {vec : List ExecPoint} {i j : Nat} {x y : ExecPoint}
    (hij : i < j) (hi : vec[i]? = some x) (hj : vec[j]? = some y) : [x, y].Sublist vec := by
  obtain ⟨hil, rfl⟩ := List.getElem?_eq_some_iff.mp hi
  obtain ⟨hjl, rfl⟩ := List.getElem?_eq_some_iff.mp hj
  have hpairs : vec.Pairwise fun x y => [x, y].Sublist vec :=
    List.pairwise_iff_forall_sublist.mpr id
  exact List.pairwise_iff_getElem.mp hpairs i j hil hjl hij

theorem not_sublist_swap {l : List ExecPoint} (hnodup : l.Nodup) {x y : ExecPoint}
    (hxy : [x, y].Sublist l) : ¬ [y, x].Sublist l := by
  induction l with
  | nil => simp at hxy
  | cons z l ih =>
    rw [List.nodup_cons] at hnodup
    intro hyx
    rw [List.sublist_cons_iff] at hxy hyx
    rcases hxy with hxy | ⟨r, heq, hr⟩ <;> rcases hyx with hyx | ⟨r', heq', hr'⟩
    · exact ih hnodup.2 hxy hyx
    · simp only [List.cons.injEq] at heq'
      exact hnodup.1 (heq'.1 ▸ hxy.subset (by simp))
    · simp only [List.cons.injEq] at heq
      exact hnodup.1 (heq.1 ▸ hyx.subset (by simp))
    · simp only [List.cons.injEq] at heq heq'
      obtain ⟨rfl, rfl⟩ := heq
      exact hnodup.1 (List.singleton_sublist.mp (heq'.1 ▸ hr))

theorem Traversed.sublist_iff (h : Traversed visits s) (hnodup : (actions visits).Nodup)
    {p q : ActionPos s} (ht : p.thread = q.thread) :
    [p.record, q.record].Sublist (actions visits) ↔ p.index < q.index := by
  obtain ⟨vec, hvec, hp⟩ := p.found
  obtain ⟨vec', hvec', hq⟩ := q.found
  rw [← ht, hvec, Option.some.injEq] at hvec'
  subst hvec'
  have hfilter := h.vectors p.thread
  rw [hvec, Option.getD_some] at hfilter
  have hlt : ∀ {i j : Nat} {x y : ExecPoint}, i < j → vec[i]? = some x → vec[j]? = some y →
      [x, y].Sublist (actions visits) := by
    intro i j x y hij hi hj
    have := sublist_of_getElem? hij hi hj
    rw [hfilter] at this
    exact this.trans List.filter_sublist
  constructor
  · intro hsub
    rcases Nat.lt_trichotomy p.index q.index with hidx | hidx | hidx
    · exact hidx
    · rw [hidx, hq, Option.some.injEq] at hp
      rw [hp] at hsub
      exact absurd hsub (not_sublist_swap hnodup hsub)
    · exact absurd (hlt hidx hq hp) (not_sublist_swap hnodup hsub)
  · intro hidx
    exact hlt hidx hp hq

/-! ## Fixed order and satisfying assignments -/

theorem Traversed.getOrderConstraint_of_fixed (h : Traversed visits s) (hwf : WellFormed links s)
    (hnodup : (actions visits).Nodup) {p q : ActionPos s} (hne : p.thread ≠ q.thread)
    (hfixed : FixedBefore links visits p.record q.record) :
    s.getOrderConstraint p.record q.record = .ctrue := by
  have htid : p.record.tid ≠ q.record.tid := by
    rwa [hwf.record_tid, hwf.record_tid]
  obtain ⟨-, -, hfixed⟩ := hfixed
  rw [if_neg htid] at hfixed
  obtain ⟨horder, hearlier⟩ := hfixed
  have hsome := hwf.covered _ p.mem_flatten _ q.mem_flatten htid
  obtain ⟨c, ⟨hmem, hpq, -⟩ | ⟨hmem, -, hpq⟩⟩ := getOrderConstraint_cases htid hsome
  · rw [hpq]
    generalize hentry : RecPair.mk p.record q.record c = e at hmem
    cases hwf.rptOk.entry e hmem with
    | ctrue => simp_all
    | cfalse => simp_all
    | var => simp_all
  · rw [hpq]
    have hreverse : links.orderThread q.record p.record = false :=
      hearlier.resolve_left (not_sublist_swap hnodup (h.earlier _ hmem))
    generalize hentry : RecPair.mk q.record p.record c = e at hmem
    cases hwf.rptOk.entry e hmem with
    | ctrue => simp_all
    | cfalse => simp_all [negate]
    | var => simp_all

theorem before_of_fixed (h : Traversed visits s) (hwf : WellFormed links s)
    (hnodup : (actions visits).Nodup) {p q : ActionPos s}
    (hfixed : FixedBefore links visits p.record q.record) : Before ρ s p q := by
  by_cases ht : p.thread = q.thread
  · rw [before_of_eq ht, ← h.sublist_iff hnodup ht]
    have htid : p.record.tid = q.record.tid := by
      rwa [hwf.record_tid, hwf.record_tid]
    simpa [if_pos htid] using hfixed.2.2
  · rw [before_of_ne ht, h.getOrderConstraint_of_fixed hwf hnodup ht hfixed, eval_ctrue]

theorem before_of_transGen (h : Traversed visits s) (hwf : WellFormed links s)
    (hnodup : (actions visits).Nodup) (hsat : s.transOrderClauses.all (eval ρ) = true)
    {x y : ExecPoint} (hxy : TransGen (FixedBefore links visits) x y) :
    ∃ p q : ActionPos s, p.record = x ∧ q.record = y ∧ Before ρ s p q := by
  have htotal := hwf.clauses_iff.mp hsat
  induction hxy with
  | single hfixed =>
    obtain ⟨p, rfl⟩ := h.exists_pos hfixed.1
    obtain ⟨q, rfl⟩ := h.exists_pos hfixed.2.1
    exact ⟨p, q, rfl, rfl, before_of_fixed h hwf hnodup hfixed⟩
  | tail _ hfixed ih =>
    obtain ⟨p, q, rfl, rfl, hpq⟩ := ih
    obtain ⟨r, rfl⟩ := h.exists_pos hfixed.2.1
    exact ⟨p, r, rfl, rfl, htotal.trans p q r hpq (before_of_fixed h hwf hnodup hfixed)⟩

open Classical in
/-- The assignment that reads every order variable off a relation. -/
noncomputable def assignmentOf (s : OrderTable) (order : ExecPoint → ExecPoint → Prop)
    (v : Nat) : Bool :=
  decide (∃ p ∈ s.rpt, p.constraint = .var v ∧ order p.epr1 p.epr2)

instance : Std.Symm SeparateVars where
  symm _ _ hsep v w hv hw := (hsep w v hw hv).symm

theorem RptOk.eval_var_assignmentOf (h : RptOk links s) {order : ExecPoint → ExecPoint → Prop}
    {a b : ExecPoint} {v : Nat} (hmem : ⟨a, b, .var v⟩ ∈ s.rpt) :
    eval (s.assignmentOf order) (.var v) = true ↔ order a b := by
  simp only [eval_var, assignmentOf, decide_eq_true_eq]
  constructor
  · rintro ⟨p, hp, hpv, horder⟩
    by_cases heq : p = ⟨a, b, .var v⟩
    · rwa [heq] at horder
    · exact absurd rfl (h.vars.forall hp hmem heq v v hpv rfl)
  · intro horder
    exact ⟨_, hmem, rfl, horder⟩

/-- Over the fixed order the assignment decides the pairs of different threads as
the relation does. -/
theorem eval_getOrderConstraint_assignmentOf (h : Traversed visits s) (hwf : WellFormed links s)
    {order : ExecPoint → ExecPoint → Prop} [IsStrictTotalOrder ExecPoint order]
    (hextends : ∀ x y, FixedBefore links visits x y → order x y)
    {p q : ActionPos s} (hne : p.thread ≠ q.thread) :
    eval (s.assignmentOf order) (s.getOrderConstraint p.record q.record) = true ↔
      order p.record q.record := by
  have htid : p.record.tid ≠ q.record.tid := by
    rwa [hwf.record_tid, hwf.record_tid]
  have hentry : ∀ {a b : ExecPoint} {c : Constraint}, a.tid ≠ b.tid → ⟨a, b, c⟩ ∈ s.rpt →
      (eval (s.assignmentOf order) c = true ↔ order a b) := by
    intro a b c hab hmem
    have hearlier := h.earlier _ hmem
    have ha : a ∈ actions visits := hearlier.subset (by simp)
    have hb : b ∈ actions visits := hearlier.subset (by simp)
    have hok := hwf.rptOk.entry _ hmem
    generalize hgen : RecPair.mk a b c = e at hok
    cases hok with
    | ctrue horder =>
      cases hgen
      have hfixed : FixedBefore links visits a b :=
        ⟨ha, hb, by rw [if_neg hab]; exact ⟨horder, .inl hearlier⟩⟩
      simp [hextends a b hfixed]
    | cfalse hnot horder =>
      cases hgen
      have hfixed : FixedBefore links visits b a :=
        ⟨hb, ha, by rw [if_neg (Ne.symm hab)]; exact ⟨horder, .inr hnot⟩⟩
      simp [asymm_of order (hextends b a hfixed)]
    | var =>
      cases hgen
      exact hwf.rptOk.eval_var_assignmentOf hmem
  obtain ⟨c, ⟨hmem, hpq, -⟩ | ⟨hmem, hqp, hpq⟩⟩ :=
    getOrderConstraint_cases htid (hwf.covered _ p.mem_flatten _ q.mem_flatten htid)
  · rw [hpq]
    exact hentry htid hmem
  · rw [hwf.eval_swap (a := q) (b := p) (Ne.symm hne), hqp]
    have hiff := hentry (Ne.symm htid) hmem
    cases heval : eval (s.assignmentOf order) c with
    | true => simp [asymm_of order (hiff.mp heval)]
    | false =>
      have hnot : ¬ order q.record p.record := fun horder => by simp [hiff.mpr horder] at heval
      rcases trichotomous_of order p.record q.record with horder | heq | horder
      · simp [horder]
      · exact absurd (congrArg ExecPoint.tid heq) htid
      · exact absurd horder hnot

private theorem before_assignmentOf (h : Traversed visits s) (hwf : WellFormed links s)
    (hnodup : (actions visits).Nodup) {order : ExecPoint → ExecPoint → Prop}
    [IsStrictTotalOrder ExecPoint order]
    (hextends : ∀ x y, FixedBefore links visits x y → order x y) {p q : ActionPos s}
    (hpq : Before (s.assignmentOf order) s p q) : order p.record q.record := by
  by_cases ht : p.thread = q.thread
  · rw [before_of_eq ht, ← h.sublist_iff hnodup ht] at hpq
    have htid : p.record.tid = q.record.tid := by
      rwa [hwf.record_tid, hwf.record_tid]
    exact hextends _ _ ⟨h.mem_actions p, h.mem_actions q, by rwa [if_pos htid]⟩
  · rw [before_of_ne ht] at hpq
    exact (eval_getOrderConstraint_assignmentOf h hwf hextends ht).mp hpq

/-- A strict total order over the fixed order satisfies every clause. -/
theorem clauses_assignmentOf (h : Traversed visits s) (hwf : WellFormed links s)
    (hnodup : (actions visits).Nodup) {order : ExecPoint → ExecPoint → Prop}
    [IsStrictTotalOrder ExecPoint order]
    (hextends : ∀ x y, FixedBefore links visits x y → order x y) :
    s.transOrderClauses.all (eval (s.assignmentOf order)) = true := by
  rw [hwf.clauses_iff, isStrictTotalOrder_iff_triangleFree hwf.isTournament]
  intro p q r hpq hqr hrp
  have hpr := trans_of order (before_assignmentOf h hwf hnodup hextends hpq)
    (before_assignmentOf h hwf hnodup hextends hqr)
  exact asymm_of order hpr (before_assignmentOf h hwf hnodup hextends hrp)

/-- Every assignment that satisfies the clauses orders `a` before `b`. -/
def AlwaysOrdered (links : ThreadLinks) (visits : List Visit) (a b : ExecPoint) : Prop :=
  ∀ ρ, (traverse links visits).transOrderClauses.all (eval ρ) = true →
    eval ρ ((traverse links visits).getOrderConstraint a b) = true

/-- An action is always ordered before one of another thread exactly when memory actions link the
two, or when the fixed order has a cycle and no assignment is left. -/
theorem alwaysOrdered_iff (links : ThreadLinks) (visits : List Visit)
    (hnodup : (actions visits).Nodup) {a b : ExecPoint} (ha : a ∈ actions visits)
    (hb : b ∈ actions visits) (htid : a.tid ≠ b.tid) :
    AlwaysOrdered links visits a b ↔
      TransGen (FixedBefore links visits) a b ∨
        ∃ x, TransGen (FixedBefore links visits) x x := by
  have h := traversed_traverse links visits
  have hwf := wellFormed_traverse links visits
  constructor
  · intro halways
    by_contra hnone
    obtain ⟨hab, hacyclic⟩ := not_or.mp hnone
    have hne : a ≠ b := fun heq => htid (by rw [heq])
    obtain ⟨order, htotal, hextends, hba⟩ :=
      exists_strictTotalOrder_extending (not_exists.mp hacyclic) hne hab
    obtain ⟨p, rfl⟩ := h.exists_pos ha
    obtain ⟨q, rfl⟩ := h.exists_pos hb
    have hne' : p.thread ≠ q.thread := by
      rwa [← hwf.record_tid p, ← hwf.record_tid q]
    have hab' := halways _ (clauses_assignmentOf h hwf hnodup hextends)
    rw [eval_getOrderConstraint_assignmentOf h hwf hextends hne'] at hab'
    exact asymm_of order hab' hba
  · rintro (hab | ⟨x, hx⟩) ρ hsat
    · obtain ⟨p, q, rfl, rfl, hpq⟩ := before_of_transGen h hwf hnodup hsat hab
      have hne : p.thread ≠ q.thread := by
        rwa [← hwf.record_tid p, ← hwf.record_tid q]
      exact (before_of_ne hne).mp hpq
    · obtain ⟨p, q, rfl, hq, hpq⟩ := before_of_transGen h hwf hnodup hsat hx
      have ht : p.thread = q.thread := by
        rw [← hwf.record_tid p, ← hwf.record_tid q, hq]
      rw [before_of_eq ht, ← h.sublist_iff hnodup ht, hq] at hpq
      exact absurd hpq (not_sublist_swap hnodup hpq)

/-- Thread 0 acts and creates thread 1, which creates thread 2.  Thread 2 acts last. -/
def relayLinks (creation : Nat) : ThreadLinks where
  parentRecord
    | 1 => some ⟨0, [(.counter, 2)]⟩
    | 2 => some ⟨1, [(.counter, creation)]⟩
    | _ => none
  joins := []

def relayVisits : List Visit := [.action ⟨0, [(.counter, 1)]⟩, .action ⟨2, [(.counter, 1)]⟩]

private theorem relay_happensBefore :
    (relayLinks 1).HappensBefore ⟨0, [(.counter, 1)]⟩ ⟨2, [(.counter, 1)]⟩ :=
  .trans (.program (y := ⟨0, [(.counter, 2)]⟩) rfl rfl)
    (.trans (.create (y := ⟨1, [(.counter, 1)]⟩) rfl) (.create rfl))

/-- A chain through a thread without memory actions leaves its ends unordered. -/
theorem not_happensBefore_alwaysOrdered :
    ¬ ∀ (links : ThreadLinks) (visits : List Visit), (actions visits).Nodup →
      ∀ a ∈ actions visits, ∀ b ∈ actions visits, a.tid ≠ b.tid →
        links.HappensBefore a b → AlwaysOrdered links visits a b := by
  intro hclaim
  have hordered := hclaim (relayLinks 1) relayVisits (by decide)
    ⟨0, [(.counter, 1)]⟩ (by decide) ⟨2, [(.counter, 1)]⟩ (by decide) (by decide)
    relay_happensBefore (fun _ => false) rfl
  exact absurd hordered (by decide)

/-- With an action in thread 1 before its creation of thread 2 the ends are linked. -/
theorem alwaysOrdered_relayed :
    AlwaysOrdered (relayLinks 2) [.action ⟨0, [(.counter, 1)]⟩, .action ⟨1, [(.counter, 1)]⟩,
      .action ⟨2, [(.counter, 1)]⟩] ⟨0, [(.counter, 1)]⟩ ⟨2, [(.counter, 1)]⟩ := by
  refine (alwaysOrdered_iff (relayLinks 2) _ (by decide) (by decide) (by decide)
    (by decide)).mpr (.inl ?_)
  refine .tail (b := ⟨1, [(.counter, 1)]⟩) (.single ?_) ?_
  · exact ⟨by decide, by decide, by rw [if_neg (by decide)]; exact ⟨by decide, by decide⟩⟩
  · exact ⟨by decide, by decide, by rw [if_neg (by decide)]; exact ⟨by decide, by decide⟩⟩

end OrderTable

end SatCheck
