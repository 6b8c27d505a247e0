import SatCheck.CodeGraph
import SatCheck.RecordRule
import SatCheck.SiteRegion
import SatCheck.Traversal
import SatCheck.Library.Worklist
/-!
# The order of the traversal

`traverse` is a depth-first worklist.  In the graph of threads that follow a code it comes to
the records of a thread in the order of their points, apart from those in different directions
of a branch.
-/

namespace SatCheck

/-- The records that `traverseRecord` leaves for a record, the next one to be visited first. -/
def EventGraph.succs (g : EventGraph) (noexecyields : Bool) (record : ExecPoint) :
    List ExecPoint :=
  if g.getType record = some .loopenter then
    (g.getChildRecord record).toList ++ (g.getNextRecord record).toList
  else if g.getType record = some .nonlocaltrans ∨ g.getType record = some .loopexit ∨
      (g.getType record = some .yield ∧ noexecyields) then
    (g.getChildRecord record).toList
  else if g.getType record = some .branchdir then
    ((g.valuevector record).reverse.flatMap fun value =>
      (g.firstrecord ⟨record, value⟩).toList) ++
        ((g.getNextRecord record).toList ++ (g.getChildRecord record).toList)
  else (g.getNextRecord record).toList ++ (g.getChildRecord record).toList

namespace Traversal

variable (g : EventGraph) (noexecyields : Bool)

def pending (t : Traversal) : List ExecPoint := t.current.toList ++ t.workstack

def visited (t : Traversal) : List ExecPoint := t.visits.map Visit.record

private theorem pushDirections_eq (workstack : List ExecPoint) (record : ExecPoint) :
    pushDirections g workstack record =
      ((g.valuevector record).reverse.flatMap fun value =>
        (g.firstrecord ⟨record, value⟩).toList) ++
          ((g.getNextRecord record).toList ++ workstack) := by
  unfold pushDirections
  generalize (g.getNextRecord record).toList ++ workstack = below
  induction g.valuevector record generalizing below with
  | nil => rfl
  | cons value values ih => simp [ih]

private theorem pending_advance (t : Traversal) (record : ExecPoint) :
    (t.advance g noexecyields record).pending = g.succs noexecyields record ++ t.workstack := by
  unfold advance pending EventGraph.succs
  split_ifs <;> simp [pushDirections_eq]

@[simp] theorem visitRecord_workstack (t : Traversal) (record : ExecPoint) :
    (t.visitRecord g record).workstack = t.workstack := by
  have hcond : ∀ t : Traversal, (t.recordExecCond g record).workstack = t.workstack := by
    intro t
    unfold recordExecCond
    simp only
    split_ifs <;> rfl
  unfold visitRecord
  simp only
  split <;> simp [insertNonLocal, insertLabel, insertBranch, hcond]

/-- What the worklist has and has visited at some point of `traverse`. -/
def worklist (t : Traversal) : Worklist.State ExecPoint := ⟨t.pending, t.visited⟩

theorem worklist_step_none {t : Traversal} (h : t.current = none) :
    (t.step g noexecyields).worklist = t.worklist := by
  cases hwork : t.workstack <;> simp [step, worklist, pending, visited, h, hwork]

theorem worklist_step_some {t : Traversal} {record : ExecPoint} (h : t.current = some record) :
    (t.step g noexecyields).worklist = Worklist.step (g.succs noexecyields) t.worklist := by
  have hstep : t.step g noexecyields = (t.visitRecord g record).advance g noexecyields record := by
    simp [step, h]
  rw [hstep, worklist, pending_advance]
  simp [worklist, pending, visited, h, Worklist.step]

theorem exists_worklist (n : Nat) : ∃ m, (traverse g noexecyields n).worklist =
    Worklist.run (g.succs noexecyields) m (Worklist.start g.first) := by
  induction n with
  | zero => exact ⟨0, rfl⟩
  | succ n ih =>
    obtain ⟨m, hm⟩ := ih
    rw [traverse_succ]
    cases hcurrent : (traverse g noexecyields n).current with
    | none => exact ⟨m, by rw [worklist_step_none g noexecyields hcurrent, hm]⟩
    | some record =>
      refine ⟨m + 1, ?_⟩
      rw [worklist_step_some g noexecyields hcurrent, hm, Worklist.run_succ]

theorem exists_traverse (m : Nat) : ∃ n, (traverse g noexecyields n).worklist =
    Worklist.run (g.succs noexecyields) m (Worklist.start g.first) := by
  induction m with
  | zero => exact ⟨0, rfl⟩
  | succ m ih =>
    obtain ⟨n, hn⟩ := ih
    rw [Worklist.run_succ, ← hn]
    cases hcurrent : (traverse g noexecyields n).current with
    | some record =>
      refine ⟨n + 1, ?_⟩
      rw [traverse_succ, worklist_step_some g noexecyields hcurrent]
    | none =>
      cases hwork : (traverse g noexecyields n).workstack with
      | nil =>
        refine ⟨n, ?_⟩
        simp [worklist, pending, hcurrent, hwork, Worklist.step]
      | cons record workstack =>
        refine ⟨n + 2, ?_⟩
        have hpop : ((traverse g noexecyields n).step g noexecyields).current = some record := by
          simp [step, hcurrent, hwork]
        rw [traverse_succ, traverse_succ, worklist_step_some g noexecyields hpop,
          worklist_step_none g noexecyields hcurrent]

end Traversal

/-! ## Threads that are created once -/

/-- Every thread is started from one THREADCREATE record, of an older thread. -/
structure CreatedBy (executions : List (List (Nat × Annotation)))
    (creator : Nat → Option ExecPoint) : Prop where
  older : ∀ t parent, creator t = some parent → parent.tid < t
  created : ∀ calls ∈ executions, ∀ t parent, (t, .threadStart (some parent)) ∈ calls →
    creator t = some parent

/-- The links of a graph lead where the codes of the threads lead, and a thread is the child of
its creator. -/
structure EventGraph.Shaped (g : EventGraph) (code : Nat → Code)
    (creator : Nat → Option ExecPoint) : Prop where
  older : ∀ t parent, creator t = some parent → parent.tid < t
  type : ∀ t s et, g.getType (Site.ep t s) = some et → (code t).type s = some et
  next : ∀ t s x, g.getNextRecord (Site.ep t s) = some x →
    ∃ s' : Site, x = s'.ep t ∧ (code t).Next s s'
  child : ∀ t s x, g.getChildRecord (Site.ep t s) = some x →
    ((code t).type s = some .loopenter ∧ x = s.body.ep t) ∨
      ∃ (t' : Nat) (s' : Site), x = s'.ep t' ∧ creator t' = some (s.ep t)
  first : ∀ t s d x, g.firstrecord ⟨Site.ep t s, d⟩ = some x → x = (s.arm d).ep t
  values : ∀ record, (g.valuevector record).Nodup

/-- The graph of recorded runs, where a thread is the child of its creator. -/
theorem shaped_of_created {executions : List (List (Nat × Annotation))} {code : Nat → Code}
    {creator : Nat → Option ExecPoint} {g : EventGraph}
    (h : ∀ tid, Recorded executions tid (code tid))
    (hg : g.Logged (Recorder.runsLog executions)) (hvalues : ∀ record, (g.valuevector record).Nodup)
    (holder : ∀ t parent, creator t = some parent → parent.tid < t)
    (hcreated : ∀ calls ∈ executions, ∀ t parent s, (t, .threadStart (some parent)) ∈ calls →
      g.getChildRecord parent = some (Site.ep t s) → creator t = some parent) :
    g.Shaped code creator := by
  constructor
  · exact holder
  · intro t s et het
    exact ((h t).leaves (Recorded.mem_threadLog_of_ne (hg.mem (.record (s.ep t) et) het) rfl
      (by simp))).type
  · intro t s x hx
    exact ((h t).leaves (Recorded.mem_threadLog_of_ne (hg.mem (.next (s.ep t) x) hx) rfl
      (by simp))).next_site
  · intro t s x hx
    obtain ⟨calls, hcalls, t', he⟩ := hg.mem (.child (s.ep t) x) hx
    obtain ⟨k, call, hcall, hentry, hall⟩ := Control.mem_log he
    rcases Control.child_entries hentry with ⟨rfl, hs, hbody⟩ | ⟨rfl, hstart⟩
    · obtain ⟨rfl, rfl⟩ := Site.ep_inj.mp hs
      have hrecord : .record (k.site.ep t) .loopenter ∈ threadLog executions t :=
        ⟨calls, hcalls, hall _ (by simp [Control.entries, Control.notes])⟩
      exact Or.inl ⟨((h t).leaves hrecord).type, hbody⟩
    · exact Or.inr ⟨t', k.site, hstart, hcreated calls hcalls t' _ k.site
        (Control.mem_threadCalls.mp hcall) (hstart ▸ hx)⟩
  · intro t s d x hx
    exact ((h t).leaves (Recorded.mem_threadLog_of_ne (hg.mem (.first ⟨s.ep t, d⟩ x) hx) rfl
      (by simp))).first_site.1
  · exact hvalues

theorem shaped_runs {executions : List (List (Nat × Annotation))} {code : Nat → Code}
    {creator : Nat → Option ExecPoint} (h : ∀ tid, Recorded executions tid (code tid))
    (hcreated : CreatedBy executions creator) (len : ExecPoint → Nat) (first : ExecPoint) :
    ((Recorder.empty.runs executions).graph len first).Shaped code creator := by
  obtain ⟨-, hlogged⟩ := Recorder.logged_runs (h 0).nested
  exact shaped_of_created h (hlogged len first) (Recorder.nodup_valuevector executions len first)
    hcreated.older fun calls hcalls t parent _ hmem _ => hcreated.created calls hcalls t parent hmem

theorem Code.Next.later {code : Code} {s s' : Site} (h : code.Next s s')
    (htype : code.type s ≠ some s.exitType) : s.next.Later s' := by
  cases h with
  | behind _ _ hleads _ =>
    obtain ⟨i, rfl, -⟩ := hleads
    have hiterate : ∀ i, s.next.Later (Site.iterate^[i] s.next) := by
      intro i
      induction i with
      | zero => exact Site.Later.refl s.next
      | succ i ih =>
        rw [Function.iterate_succ_apply']
        exact ih.trans (Site.later_iterate _)
    exact hiterate i
  | merge _ => exact Site.Later.refl s.next
  | label _ => exact Site.Later.refl s.next
  | exit htype' _ => exact absurd htype' htype

/-! ## Regions -/

/-- What the traversal may come to from a record: what is behind it in its thread, and the
threads that are created there. -/
inductive Region (creator : Nat → Option ExecPoint) : ExecPoint → ExecPoint → Prop
  | own {t : Nat} {s x : Site} (h : s.Inside x) : Region creator (s.ep t) (x.ep t)
  | created {a c : ExecPoint} {t : Nat} {x : Site} (hcreator : creator t = some c)
      (h : Region creator a c) : Region creator a (x.ep t)

/-- Two records of a thread are visited in their order, or exclude each other. -/
def InOrder (x y : ExecPoint) : Prop :=
  x.tid = y.tid → x.compare y = .after ∨ x.compare y = .incomparable

theorem not_inOrder_self (x : ExecPoint) : ¬ InOrder x x := by
  intro h
  simpa using h rfl

namespace EventGraph.Shaped

variable {g : EventGraph} {code : Nat → Code} {creator : Nat → Option ExecPoint}
  {noexecyields : Bool}

theorem tid_le (h : g.Shaped code creator) {a y : ExecPoint} (hy : Region creator a y) :
    a.tid ≤ y.tid := by
  induction hy with
  | own _ => exact le_rfl
  | created hcreator _ ih =>
    have := h.older _ _ hcreator
    simp only [Site.ep_tid]
    omega

theorem own_of_tid (h : g.Shaped code creator) {t : Nat} {s : Site} {y : ExecPoint}
    (hy : Region creator (s.ep t) y) (htid : y.tid = t) : ∃ x : Site, y = x.ep t ∧ s.Inside x := by
  generalize ha : s.ep t = a at hy
  cases hy with
  | own hinside =>
    obtain ⟨rfl, rfl⟩ := Site.ep_inj.mp ha
    exact ⟨_, rfl, hinside⟩
  | created hcreator hc =>
    have hle := h.tid_le hc
    have hlt := h.older _ _ hcreator
    rw [← ha] at hle
    simp only [Site.ep_tid] at hle htid
    omega

theorem inOrder_own (h : g.Shaped code creator) {t : Nat} {b c : Site}
    (hbc : ∀ x y : Site, b.Inside x → c.Inside y →
      ExecPoint.comparePairs x.pairs y.pairs = .after ∨
        ExecPoint.comparePairs x.pairs y.pairs = .incomparable)
    {x y : ExecPoint} (hx : Region creator (b.ep t) x) (hy : Region creator (c.ep t) y) :
    InOrder x y := by
  generalize ha : b.ep t = a at hx
  induction hx generalizing y with
  | own hinside =>
    obtain ⟨rfl, rfl⟩ := Site.ep_inj.mp ha
    intro htid
    obtain ⟨y, rfl, hinside'⟩ := h.own_of_tid hy htid.symm
    exact hbc _ _ hinside hinside'
  | created hcreator hc ih =>
    intro htid
    generalize hc'' : c.ep t = c' at hy
    cases hy with
    | own hinside' =>
      obtain ⟨rfl, rfl⟩ := Site.ep_inj.mp hc''
      have hle := h.tid_le hc
      have hlt := h.older _ _ hcreator
      rw [← ha] at hle
      simp only [Site.ep_tid] at hle htid
      omega
    | created hcreator' hc' =>
      simp only [Site.ep_tid] at htid
      subst htid
      obtain rfl := Option.some_inj.mp (hcreator.symm.trans hcreator')
      exact absurd (ih (hc'' ▸ hc') ha) (not_inOrder_self _)

/-- The thread that a record creates is not created in what is behind the record. -/
theorem not_both (h : g.Shaped code creator) {t t' : Nat} {b s' : Site} {a x y : ExecPoint}
    (hcreator : creator t' = some a) (ha : a.tid = t) (hab : ¬ Region creator (b.ep t) a)
    (hx : Region creator (b.ep t) x) (hy : Region creator (s'.ep t') y) : x.tid ≠ y.tid := by
  have hlt := h.older t' a hcreator
  generalize hs : s'.ep t' = c at hy
  induction hy generalizing x with
  | own hinside =>
    obtain ⟨rfl, rfl⟩ := Site.ep_inj.mp hs
    intro htid
    generalize hb : b.ep t = b' at hx hab
    cases hx with
    | own _ =>
      obtain ⟨rfl, rfl⟩ := Site.ep_inj.mp hb
      simp only [Site.ep_tid] at htid
      omega
    | created hcreator' hc =>
      simp only [Site.ep_tid] at htid
      subst htid
      obtain rfl := Option.some_inj.mp (hcreator.symm.trans hcreator')
      exact hab hc
  | created hcreator' hc ih =>
    intro htid
    have hle := h.tid_le hc
    have hlt' := h.older _ _ hcreator'
    rw [← hs] at hle
    generalize hb : b.ep t = b' at hx
    cases hx with
    | own _ =>
      obtain ⟨rfl, rfl⟩ := Site.ep_inj.mp hb
      simp only [Site.ep_tid] at htid hle
      omega
    | created hcreator'' hc' =>
      simp only [Site.ep_tid] at htid
      subst htid
      obtain rfl := Option.some_inj.mp (hcreator'.symm.trans hcreator'')
      exact ih (hb ▸ hc') hs rfl

def LeadsInto (s s' : Site) : Prop := s' = s.body ∨ (∃ d, s' = s.arm d) ∨ s.next.Later s'

theorem inside_of_leadsInto {s s' x : Site} (h : LeadsInto s s')
    (hx : s'.Inside x) : s.Inside x ∧ ExecPoint.comparePairs s.pairs x.pairs = .after := by
  rcases h with rfl | ⟨d, rfl⟩ | hlater
  · obtain ⟨i, rest, hrest⟩ := hx.of_body
    exact ⟨Site.inside_of_prefix ⟨_, hrest.symm⟩, Site.compare_inside hrest⟩
  · obtain ⟨rest, hrest⟩ := hx.of_arm
    exact ⟨Site.inside_of_prefix ⟨_, hrest.symm⟩, Site.compare_inside hrest⟩
  · have hnext := hx.mono hlater
    exact ⟨hnext.mono (Site.later_next s), Site.compare_next List.prefix_rfl hnext⟩

theorem next_later (h : g.Shaped code creator) {t : Nat} {s : Site} {et : EventType} {b : ExecPoint}
    (het : g.getType (s.ep t) = some et) (hexit : et ≠ .nonlocaltrans ∧ et ≠ .loopexit)
    (hb : g.getNextRecord (s.ep t) = some b) : ∃ s' : Site, b = s'.ep t ∧ s.next.Later s' := by
  obtain ⟨s', rfl, hnext⟩ := h.next t s b hb
  refine ⟨s', rfl, hnext.later ?_⟩
  rw [h.type t s et het, ne_eq, Option.some_inj]
  rcases Code.exitType_cases s with hs | hs <;> rw [hs]
  · exact hexit.2
  · exact hexit.1

theorem child_cases (h : g.Shaped code creator) {t : Nat} {s : Site} {et : EventType}
    {b : ExecPoint} (het : g.getType (s.ep t) = some et)
    (hb : g.getChildRecord (s.ep t) = some b) : (et = .loopenter ∧ b = s.body.ep t) ∨
      ∃ (t' : Nat) (s' : Site), b = s'.ep t' ∧ creator t' = some (s.ep t) := by
  apply (h.child t s b hb).imp_left
  rintro ⟨hloop, hbody⟩
  rw [h.type t s et het] at hloop
  exact ⟨Option.some_inj.mp hloop, hbody⟩

theorem exists_getType {record x : ExecPoint} (hx : g.getNextRecord record = some x ∨
    g.getChildRecord record = some x) : ∃ et, g.getType record = some et := by
  unfold EventGraph.getNextRecord EventGraph.getChildRecord at hx
  unfold EventGraph.getType
  cases hr : g.records record with
  | none => simp [hr] at hx
  | some r => exact ⟨r.event, rfl⟩

theorem succs_cases (h : g.Shaped code creator) {t : Nat} {s : Site} {b : ExecPoint}
    (hb : b ∈ g.succs noexecyields (s.ep t)) : (∃ s', b = Site.ep t s' ∧ LeadsInto s s') ∨
      ∃ (t' : Nat) (s' : Site), b = s'.ep t' ∧ creator t' = some (s.ep t) := by
  have hchild : g.getChildRecord (s.ep t) = some b →
      (∃ s', b = Site.ep t s' ∧ LeadsInto s s') ∨
        ∃ (t' : Nat) (s' : Site), b = s'.ep t' ∧ creator t' = some (s.ep t) := by
    intro hb
    obtain ⟨et, het⟩ := exists_getType (Or.inr hb)
    exact (h.child_cases het hb).imp_left fun hbody => ⟨s.body, hbody.2, Or.inl rfl⟩
  have hnext : ¬ (g.getType (s.ep t) = some .nonlocaltrans ∨ g.getType (s.ep t) = some .loopexit) →
      g.getNextRecord (s.ep t) = some b → ∃ s', b = Site.ep t s' ∧ LeadsInto s s' := by
    intro hexit hb
    obtain ⟨et, het⟩ := exists_getType (Or.inl hb)
    obtain ⟨s', hs', hlater⟩ := h.next_later het (by rw [het] at hexit; simpa using hexit) hb
    exact ⟨s', hs', Or.inr (Or.inr hlater)⟩
  unfold EventGraph.succs at hb
  split_ifs at hb with hloop hexit hbranch
  · rcases List.mem_append.mp hb with hb | hb
    · exact hchild (Option.mem_toList.mp hb)
    · exact Or.inl (hnext (by simp [hloop]) (Option.mem_toList.mp hb))
  · exact hchild (Option.mem_toList.mp hb)
  · rcases List.mem_append.mp hb with hb | hb
    · obtain ⟨d, -, hb⟩ := List.mem_flatMap.mp hb
      exact Or.inl ⟨s.arm d, h.first t s d b (Option.mem_toList.mp hb), Or.inr (Or.inl ⟨d, rfl⟩)⟩
    · rcases List.mem_append.mp hb with hb | hb
      · exact Or.inl (hnext (by simp [hbranch]) (Option.mem_toList.mp hb))
      · exact hchild (Option.mem_toList.mp hb)
  · rcases List.mem_append.mp hb with hb | hb
    · exact Or.inl (hnext (fun h => hexit (by tauto)) (Option.mem_toList.mp hb))
    · exact hchild (Option.mem_toList.mp hb)

private theorem not_region_self (h : g.Shaped code creator) {t : Nat} {s s' : Site}
    (hs : LeadsInto s s') : ¬ Region creator (s'.ep t) (s.ep t) := by
  intro hregion
  obtain ⟨x, hx, hinside⟩ := h.own_of_tid hregion rfl
  obtain ⟨-, rfl⟩ := Site.ep_inj.mp hx
  have := (inside_of_leadsInto hs hinside).2
  simp at this

/-- A thread that a record creates and what is behind the record do not meet. -/
theorem inOrder_foreign (h : g.Shaped code creator) {t t' : Nat} {s b s' : Site}
    (hb : LeadsInto s b) (hcreator : creator t' = some (s.ep t)) {x y : ExecPoint}
    (hx : Region creator (b.ep t) x) (hy : Region creator (s'.ep t') y) :
    InOrder x y ∧ InOrder y x := by
  have hne := h.not_both hcreator rfl (h.not_region_self hb) hx hy
  exact ⟨fun htid => absurd htid hne, fun htid => absurd htid.symm hne⟩

theorem inOrder_next (h : g.Shaped code creator) {t : Nat} {s b c : Site}
    (hb : ∀ x, b.Inside x → s.pairs <+: x.pairs) (hc : s.next.Later c) {x y : ExecPoint}
    (hx : Region creator (b.ep t) x) (hy : Region creator (c.ep t) y) : InOrder x y := by
  apply h.inOrder_own _ hx hy
  exact fun x y hx hy => Or.inl (Site.compare_next (hb x hx) (hy.mono hc))

theorem region_sub (h : g.Shaped code creator) {t : Nat} {s : Site} {b y : ExecPoint}
    (hb : b ∈ g.succs noexecyields (s.ep t)) (hy : Region creator b y) :
    Region creator (s.ep t) y := by
  induction hy with
  | own hinside =>
    rcases h.succs_cases hb with ⟨s', hs', hleads⟩ | ⟨t', s', hs', hcreator⟩
    · obtain ⟨rfl, rfl⟩ := Site.ep_inj.mp hs'
      exact .own (inside_of_leadsInto hleads hinside).1
    · obtain ⟨rfl, rfl⟩ := Site.ep_inj.mp hs'
      exact .created hcreator (.own (Site.Inside.refl s))
  | created hcreator _ ih => exact .created hcreator (ih hb)

theorem region_behind (h : g.Shaped code creator) {t : Nat} {s : Site} {b y : ExecPoint}
    (hb : b ∈ g.succs noexecyields (s.ep t)) (hy : Region creator b y) : InOrder (s.ep t) y := by
  intro htid
  rcases h.succs_cases hb with ⟨s', rfl, hleads⟩ | ⟨t', s', rfl, hcreator⟩
  · obtain ⟨x, rfl, hinside⟩ := h.own_of_tid hy htid.symm
    exact Or.inl (inside_of_leadsInto hleads hinside).2
  · have hle := h.tid_le hy
    have hlt := h.older t' _ hcreator
    simp only [Site.ep_tid] at hle hlt htid
    omega

theorem apart_next_child (h : g.Shaped code creator) {t : Nat} {s : Site} {et : EventType}
    (het : g.getType (s.ep t) = some et)
    (hplain : et ≠ .nonlocaltrans ∧ et ≠ .loopexit ∧ et ≠ .loopenter) :
    ((g.getNextRecord (s.ep t)).toList ++ (g.getChildRecord (s.ep t)).toList).Pairwise
      fun b c => ∀ x y, Region creator b x → Region creator c y → InOrder x y := by
  apply List.pairwise_append.mpr
  refine ⟨by cases g.getNextRecord (s.ep t) <;> simp,
    by cases g.getChildRecord (s.ep t) <;> simp, ?_⟩
  intro b hb c hc x y hx hy
  obtain ⟨b, rfl, hlater⟩ := h.next_later het ⟨hplain.1, hplain.2.1⟩ (Option.mem_toList.mp hb)
  rcases h.child_cases het (Option.mem_toList.mp hc) with ⟨hloop, -⟩ | ⟨t', s', rfl, hcreator⟩
  · exact absurd hloop hplain.2.2
  · exact (h.inOrder_foreign (Or.inr (Or.inr hlater)) hcreator hx hy).1

theorem apart_child_next (h : g.Shaped code creator) {t : Nat} {s : Site}
    (het : g.getType (s.ep t) = some .loopenter) :
    ((g.getChildRecord (s.ep t)).toList ++ (g.getNextRecord (s.ep t)).toList).Pairwise
      fun b c => ∀ x y, Region creator b x → Region creator c y → InOrder x y := by
  apply List.pairwise_append.mpr
  refine ⟨by cases g.getChildRecord (s.ep t) <;> simp,
    by cases g.getNextRecord (s.ep t) <;> simp, ?_⟩
  intro b hb c hc x y hx hy
  obtain ⟨c, rfl, hlater⟩ := h.next_later het (by decide) (Option.mem_toList.mp hc)
  rcases h.child_cases het (Option.mem_toList.mp hb) with ⟨-, rfl⟩ | ⟨t', s', rfl, hcreator⟩
  · apply h.inOrder_next _ hlater hx hy
    intro z hz
    obtain ⟨i, rest, hrest⟩ := hz.of_body
    exact ⟨_, hrest.symm⟩
  · exact (h.inOrder_foreign (Or.inr (Or.inr hlater)) hcreator hy hx).2

theorem apart_arms (h : g.Shaped code creator) {t : Nat} {s : Site}
    (het : g.getType (s.ep t) = some .branchdir) :
    (((g.valuevector (s.ep t)).reverse.flatMap fun value =>
      (g.firstrecord ⟨s.ep t, value⟩).toList) ++
        ((g.getNextRecord (s.ep t)).toList ++ (g.getChildRecord (s.ep t)).toList)).Pairwise
      fun b c => ∀ x y, Region creator b x → Region creator c y → InOrder x y := by
  apply List.pairwise_append.mpr
  refine ⟨?_, h.apart_next_child het (by decide), ?_⟩
  · apply List.pairwise_flatMap.mpr
    refine ⟨fun d _ => by cases g.firstrecord ⟨s.ep t, d⟩ <;> simp, ?_⟩
    apply (List.pairwise_reverse.mpr ((h.values (s.ep t)).imp Ne.symm)).imp
    intro d d' hne b hb c hc x y hx hy
    obtain rfl := h.first t s d b (Option.mem_toList.mp hb)
    obtain rfl := h.first t s d' c (Option.mem_toList.mp hc)
    apply h.inOrder_own _ hx hy
    exact fun x y hx hy => Or.inr (Site.compare_arms hne hx hy)
  · intro b hb c hc x y hx hy
    obtain ⟨d, -, hb⟩ := List.mem_flatMap.mp hb
    obtain rfl := h.first t s d b (Option.mem_toList.mp hb)
    rcases List.mem_append.mp hc with hc | hc
    · obtain ⟨c, rfl, hlater⟩ := h.next_later het (by decide) (Option.mem_toList.mp hc)
      apply h.inOrder_next _ hlater hx hy
      intro z hz
      obtain ⟨rest, hrest⟩ := hz.of_arm
      exact ⟨_, hrest.symm⟩
    · rcases h.child_cases het (Option.mem_toList.mp hc) with ⟨hloop, -⟩ | ⟨t', s', rfl, hcreator⟩
      · simp at hloop
      · exact (h.inOrder_foreign (Or.inr (Or.inl ⟨d, rfl⟩)) hcreator hx hy).1

/-- The traversal goes through the regions of the records one after the other. -/
theorem regions (h : g.Shaped code creator) (noexecyields : Bool) :
    Worklist.Regions (g.succs noexecyields)
    (fun a => ∃ (t : Nat) (s : Site), a = s.ep t) (Region creator) InOrder where
  kept := by
    rintro a ⟨t, s, rfl⟩ b hb
    rcases h.succs_cases hb with ⟨s', hs', -⟩ | ⟨t', s', hs', -⟩
    · exact ⟨t, s', hs'⟩
    · exact ⟨t', s', hs'⟩
  self := by
    rintro a ⟨t, s, rfl⟩
    exact .own (Site.Inside.refl s)
  sub := by
    rintro a ⟨t, s, rfl⟩ b hb y hy
    exact h.region_sub hb hy
  behind := by
    rintro a ⟨t, s, rfl⟩ b hb y hy
    exact h.region_behind hb hy
  apart := by
    rintro a ⟨t, s, rfl⟩
    unfold EventGraph.succs
    split_ifs with hloop hexit hbranch
    · exact h.apart_child_next hloop
    · cases g.getChildRecord (s.ep t) <;> simp
    · exact h.apart_arms hbranch
    · cases htype : g.getType (s.ep t) with
      | some et =>
        apply h.apart_next_child htype
        rw [htype] at hloop hexit
        refine ⟨?_, ?_, ?_⟩ <;> rintro rfl <;> simp at hloop hexit
      | none =>
        have hnone : g.getNextRecord (s.ep t) = none := by
          cases hnext : g.getNextRecord (s.ep t) with
          | none => rfl
          | some x =>
            obtain ⟨et, het⟩ := exists_getType (Or.inl hnext)
            simp [htype] at het
        rw [hnone]
        cases g.getChildRecord (s.ep t) <;> simp

end EventGraph.Shaped

/-- `traverse` comes to the records of a thread in their order, none of them twice. -/
theorem Traversal.visited_inOrder {g : EventGraph} {code : Nat → Code}
    {creator : Nat → Option ExecPoint} (h : g.Shaped code creator) {t : Nat} {s : Site}
    (hfirst : g.first = s.ep t) (noexecyields : Bool) (n : Nat) :
    (traverse g noexecyields n).visited.Pairwise InOrder ∧
      ∀ record ∈ (traverse g noexecyields n).visited, ∃ (t : Nat) (s : Site), record = s.ep t := by
  obtain ⟨m, hm⟩ := exists_worklist g noexecyields n
  have hordered := Worklist.ordered_run (h.regions noexecyields) ⟨t, s, hfirst⟩ m
  rw [← hm] at hordered
  exact ⟨hordered.visited, hordered.validVisited⟩

end SatCheck
