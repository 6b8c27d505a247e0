import SatCheck.ThreadOrder
import SatCheck.ScheduleReplay
/-!
# Replaying a solution

`getOrder` reads the order of two memory actions off a solution.  A solution of the order clauses
orders the actions in a way that `buildSchedule` can follow, and the replay performs them so.
-/

namespace SatCheck

open Constraint

namespace OrderTable

/-- `getOrder` of the SC build; `none` where an assertion of it or of `getVar` fails. -/
def getOrder (s : OrderTable) (satsolution : Nat → Bool) (first second : ExecPoint) :
    Option Bool :=
  (s.getRecPair first second).bind fun rpc =>
    (match rpc.constraint with
      | .ctrue => some true
      | .cfalse => some false
      | .var index => some (satsolution index)
      | _ => none).map fun order => if rpc.epr1 = first then order else !order

/-- The order that `buildSchedule` looks at.  It stands at one action of each thread, so that it
asks only for pairs of different threads. -/
def solvedOrder (s : OrderTable) (satsolution : Nat → Bool) (f g : ExecPoint) : Bool :=
  if f.tid = g.tid then f.compare g == .after else (s.getOrder satsolution f g).getD false

variable {links : ThreadLinks} {s : OrderTable} {visits : List Visit} {ρ : Nat → Bool}
  {f g : ExecPoint}

theorem getOrder_eq (h : RptOk links s) (hne : f.tid ≠ g.tid)
    (hsome : (s.getRecPair f g).isSome = true) :
    s.getOrder ρ f g = some (eval ρ (s.getOrderConstraint f g)) := by
  obtain ⟨p, hp⟩ := Option.isSome_iff_exists.mp hsome
  unfold getOrder getOrderConstraint
  rw [if_neg hne, hp, Option.bind_some]
  have hentry := h.entry p (List.mem_of_find?_eq_some hp)
  simp only [ne_eq, ite_not]
  cases hentry <;> split_ifs <;> simp [negate]

theorem solvedOrder_eq (h : WellFormed links s) (hf : f ∈ s.threadactions.flatten)
    (hg : g ∈ s.threadactions.flatten) :
    s.solvedOrder ρ f g = eval ρ (s.getOrderConstraint f g) := by
  unfold solvedOrder
  by_cases htid : f.tid = g.tid
  · unfold getOrderConstraint
    rw [if_pos htid, if_pos htid]
    cases f.compare g <;> rfl
  · rw [if_neg htid, getOrder_eq h.rptOk htid (h.covered f hf g hg htid), Option.getD_some]

end OrderTable

namespace ScheduleBuilder

variable {paths : RecordedPaths} {order : ExecPoint → ExecPoint → Bool} {done : List ExecPoint}
  {rs : List (ExecPoint × List WaitPair)}

theorem RoundsOk.mem_or_mem (h : RoundsOk paths order done rs) (f : ExecPoint) :
    (paths.Action f → f ∈ done ∨ f ∈ rs.map Prod.fst) ∧
      (f ∈ rs.map Prod.fst → paths.Action f ∧ f ∉ done) := by
  induction h with
  | nil h => exact ⟨fun hf => .inl (h f hf), by simp⟩
  | @cons done first pairs rs h _ ih =>
    rw [List.map_cons, List.mem_cons]
    refine ⟨fun hf => ?_, ?_⟩
    · rcases ih.1 hf with hmem | hmem
      · rcases List.mem_append.mp hmem with hmem | hmem
        · exact .inl hmem
        · exact .inr (.inl (List.mem_singleton.mp hmem))
      · exact .inr (.inr hmem)
    · rintro (rfl | hmem)
      · exact ⟨h.action, h.left⟩
      · obtain ⟨haction, hleft⟩ := ih.2 hmem
        exact ⟨haction, fun hmem => hleft (List.mem_append_left _ hmem)⟩

theorem RoundsOk.mem_iff (h : RoundsOk paths order [] rs) (f : ExecPoint) :
    f ∈ rs.map Prod.fst ↔ paths.Action f := by
  obtain ⟨hall, haction⟩ := h.mem_or_mem f
  exact ⟨fun hmem => (haction hmem).1, fun hf => (hall hf).resolve_left List.not_mem_nil⟩

/-- Each round takes an action that is earlier than those of the rounds behind it. -/
theorem RoundsOk.sorted (h : RoundsOk paths order done rs) :
    (rs.map Prod.fst).Pairwise fun f g => order f g = true := by
  induction h with
  | nil => simp
  | @cons done first pairs rs h hrest ih =>
    rw [List.map_cons, List.pairwise_cons]
    refine ⟨fun g hg => ?_, ih⟩
    obtain ⟨haction, hleft⟩ := (hrest.mem_or_mem g).2 hg
    simp only [List.mem_append, List.mem_singleton, not_or] at hleft
    exact (h.earliest g haction hleft.1).resolve_left hleft.2

end ScheduleBuilder

namespace RecordedPaths

open OrderTable Tournament

variable {paths : RecordedPaths} {links : ThreadLinks} {visits : List Visit} {ρ : Nat → Bool}
  {f g : ExecPoint}

/-- The traversal has come by the actions of the paths, each once and in the order of its thread,
and the links have the creations and joins of the paths.  They order no two actions both ways. -/
structure TraversedBy (paths : RecordedPaths) (links : ThreadLinks) (visits : List Visit) :
    Prop where
  visited : ∀ f, paths.Action f → f ∈ actions visits
  nodup : (actions visits).Nodup
  inOrder : ∀ f g, paths.Action f → paths.Action g → f.tid = g.tid → f.compare g = .after →
    [f, g].Sublist (actions visits)
  created : ∀ t < paths.num, ∀ ep child, .threadCreate ep child ∈ paths.path t →
    links.parentRecord child = some ep
  joined : ∀ t < paths.num, ∀ ep target, .threadJoin ep target ∈ paths.path t →
    ⟨ep, some target⟩ ∈ links.joins
  oneWay : ∀ f g, paths.Action f → paths.Action g → links.orderThread f g = true →
    links.orderThread g f = false

/-- A thread that has been created performs an action before it creates another one. -/
def RelaysAct (paths : RecordedPaths) : Prop :=
  ∀ t < paths.num, 0 < t → ∀ pre ep child post,
    paths.path t = pre ++ .threadCreate ep child :: post → memories pre ≠ []

private theorem compare_cases (hf : paths.Action f) (hg : paths.Action g) (htid : f.tid = g.tid)
    (hne : f ≠ g) : f.compare g = .after ∨ g.compare f = .after := by
  obtain ⟨ht, hfmem⟩ := hf.mem
  obtain ⟨-, hgmem⟩ := hg.mem
  rw [← htid] at hgmem
  obtain ⟨i, hi, hfi⟩ := List.getElem_of_mem hfmem
  obtain ⟨j, hj, hgj⟩ := List.getElem_of_mem hgmem
  have hpairs := List.pairwise_iff_getElem.mp (paths.increasing f.tid ht)
  rcases Nat.lt_trichotomy i j with hlt | rfl | hlt
  · have hprecedes := (hpairs i j hi hj hlt).1
    rw [hfi, hgj] at hprecedes
    exact .inl hprecedes
  · exact absurd (PathEvent.memory.inj (hfi.symm.trans hgj)) hne
  · have hprecedes := (hpairs j i hj hi hlt).1
    rw [hfi, hgj] at hprecedes
    exact .inr hprecedes

namespace TraversedBy

variable (h : paths.TraversedBy links visits)

include h

theorem mem_flatten (hf : paths.Action f) :
    f ∈ (traverse links visits).threadactions.flatten := by
  obtain ⟨p, rfl⟩ := (traversed_traverse links visits).exists_pos (h.visited f hf)
  exact p.mem_flatten

theorem before_iff {p q : ActionPos (traverse links visits)} (hp : paths.Action p.record)
    (hq : paths.Action q.record) : Before ρ (traverse links visits) p q ↔
      (traverse links visits).solvedOrder ρ p.record q.record = true := by
  have hwf := wellFormed_traverse links visits
  have htraversed := traversed_traverse links visits
  by_cases hthread : p.thread = q.thread
  · have htid : p.record.tid = q.record.tid := by rwa [hwf.record_tid, hwf.record_tid]
    rw [before_of_eq hthread, ← htraversed.sublist_iff h.nodup hthread]
    unfold solvedOrder
    rw [if_pos htid, beq_iff_eq]
    constructor
    · intro hsublist
      have hne : p.record ≠ q.record := by
        intro heq
        rw [heq] at hsublist
        exact not_sublist_swap h.nodup hsublist hsublist
      rcases compare_cases hp hq htid hne with hafter | hafter
      · exact hafter
      · exact absurd (h.inOrder _ _ hq hp htid.symm hafter) (not_sublist_swap h.nodup hsublist)
    · exact h.inOrder _ _ hp hq htid
  · rw [before_of_ne hthread, solvedOrder_eq hwf p.mem_flatten q.mem_flatten]

theorem ordered_of_links (hf : paths.Action f) (hg : paths.Action g) (htid : f.tid ≠ g.tid)
    (horder : links.orderThread f g = true) :
    (traverse links visits).solvedOrder ρ f g = true := by
  obtain ⟨p, rfl⟩ := (traversed_traverse links visits).exists_pos (h.visited f hf)
  obtain ⟨q, rfl⟩ := (traversed_traverse links visits).exists_pos (h.visited g hg)
  rw [← h.before_iff hf hg]
  refine before_of_fixed (traversed_traverse links visits) (wellFormed_traverse links visits)
    h.nodup ⟨h.visited _ hf, h.visited _ hg, ?_⟩
  rw [if_neg htid]
  exact ⟨horder, .inr (h.oneWay _ _ hf hg horder)⟩

theorem ordered_of_create {t child : Nat} (ht : t < paths.num) {pre post : List PathEvent}
    {ep : ExecPoint} (hpath : paths.path t = pre ++ .threadCreate ep child :: post)
    (hf : f ∈ memories pre) (hg : g ∈ memories (paths.path child)) :
    (traverse links visits).solvedOrder ρ f g = true := by
  have hcreate : .threadCreate ep child ∈ paths.path t := by simp [hpath]
  obtain ⟨hlt, hchild⟩ := paths.created_lt t ht ep child hcreate
  have hfmem : .memory f ∈ paths.path t := by
    rw [hpath]
    exact List.mem_append_left _ (mem_memories.mp hf)
  have hftid := tid_of_memory ht hfmem
  have hgtid := tid_of_memory hchild (mem_memories.mp hg)
  refine h.ordered_of_links ⟨t, ht, hfmem⟩ ⟨child, hchild, mem_memories.mp hg⟩ ?_ ?_
  · rw [hftid, hgtid]
    omega
  · have hincreasing := paths.increasing t ht
    rw [hpath, List.pairwise_append] at hincreasing
    have hafter := (hincreasing.2.2 _ (mem_memories.mp hf) _ List.mem_cons_self).1
    have heptid := paths.tid_eq t ht _ hcreate
    unfold ThreadLinks.orderThread
    rw [hgtid, h.created t ht ep child hcreate]
    simp only [PathEvent.ep] at hafter heptid
    simp [hafter, heptid, hftid]

theorem orderOk (hsat : (traverse links visits).transOrderClauses.all (eval ρ) = true) :
    paths.OrderOk ((traverse links visits).solvedOrder ρ) := by
  have hwf := wellFormed_traverse links visits
  have htotal := hwf.clauses_iff.mp hsat
  have hpos := fun f hf => (traversed_traverse links visits).exists_pos (h.visited f hf)
  constructor
  · intro f hf
    unfold solvedOrder
    rw [if_pos rfl]
    simp
  · intro f g k hf hg hk hfg hgk
    obtain ⟨p, rfl⟩ := hpos f hf
    obtain ⟨q, rfl⟩ := hpos g hg
    obtain ⟨r, rfl⟩ := hpos k hk
    rw [← h.before_iff hf hg] at hfg
    rw [← h.before_iff hg hk] at hgk
    exact (h.before_iff hf hk).mp (htotal.trans p q r hfg hgk)
  · intro f g hf hg hne
    obtain ⟨p, rfl⟩ := hpos f hf
    obtain ⟨q, rfl⟩ := hpos g hg
    rw [← h.before_iff hf hg, ← h.before_iff hg hf]
    by_contra hnot
    push Not at hnot
    exact hne (congrArg ActionPos.record (htotal.trichotomous p q hnot.1 hnot.2))
  · intro t ht
    refine (paths.increasing t ht).imp_of_mem ?_
    rintro a b ha hb hprecedes f g rfl rfl
    have htid : f.tid = g.tid := (tid_of_memory ht ha).trans (tid_of_memory ht hb).symm
    unfold solvedOrder
    rw [if_pos htid, beq_iff_eq]
    exact hprecedes.1
  · intro t ht pre ep target post hpath htarget f hf g hg
    have hjoin : .threadJoin ep target ∈ paths.path t := by simp [hpath]
    have hgmem : .memory g ∈ paths.path t := by
      rw [hpath]
      exact List.mem_append_right _ (List.mem_cons_of_mem _ (mem_memories.mp hg))
    have hfaction : paths.Action f := ⟨target, htarget, mem_memories.mp hf⟩
    have hgaction : paths.Action g := ⟨t, ht, hgmem⟩
    have hftid := tid_of_memory htarget (mem_memories.mp hf)
    have hgtid := tid_of_memory ht hgmem
    have hincreasing := paths.increasing t ht
    rw [hpath, List.pairwise_append, List.pairwise_cons] at hincreasing
    have hafter := (hincreasing.2.1.1 _ (mem_memories.mp hg)).1
    have heptid := paths.tid_eq t ht _ hjoin
    simp only [PathEvent.ep] at hafter heptid
    have hordered : ∀ k, k.tid = target → links.orderThread k g = true := by
      rintro k rfl
      unfold ThreadLinks.orderThread
      rw [Bool.or_eq_true, List.any_eq_true]
      exact .inr ⟨_, h.joined t ht ep k.tid hjoin, by simp [heptid, hgtid, hafter]⟩
    refine h.ordered_of_links hfaction hgaction (fun htid => ?_) (hordered f hftid)
    -- a thread that joins itself would be ordered before itself
    have hself := hordered g (htid.symm.trans hftid)
    rw [h.oneWay g g hgaction hgaction hself] at hself
    cases hself

private theorem afterCreators (hsat : (traverse links visits).transOrderClauses.all (eval ρ) = true)
    (hrelay : paths.RelaysAct) :
    paths.AfterCreators ((traverse links visits).solvedOrder ρ) := by
  intro t ht pre ep child post hpath u hu hdescends f hf
  have horder := h.orderOk hsat
  have hcreate : .threadCreate ep child ∈ paths.path t := by simp [hpath]
  have hfaction : paths.Action f := by
    refine ⟨t, ht, ?_⟩
    rw [hpath]
    exact List.mem_append_left _ (mem_memories.mp hf)
  induction hdescends with
  | refl => exact fun g hg => h.ordered_of_create ht hpath hf hg
  | @step t' u hdescends' ht' ep' hcreate' ih =>
    intro g hg
    obtain ⟨pre', post', hpath'⟩ := List.append_of_mem hcreate'
    have hpos : 0 < t' :=
      (Nat.zero_le t).trans_lt ((paths.created_lt t ht ep child hcreate).1.trans_le
        (Replay.le_of_descends hdescends'))
    obtain ⟨m, hm⟩ := List.exists_mem_of_ne_nil _ (hrelay t' ht' hpos pre' ep' u post' hpath')
    have hmpath : m ∈ memories (paths.path t') := by
      rw [hpath', mem_memories]
      exact List.mem_append_left _ (mem_memories.mp hm)
    exact horder.trans f m g hfaction ⟨t', ht', mem_memories.mp hmpath⟩
      ⟨u, hu, mem_memories.mp hg⟩ (ih ht' m hmpath) (h.ordered_of_create ht' hpath' hm hg)

end TraversedBy

/-- Every solution of the order clauses is replayed: `getOrder` reads one strict total order off it,
in which `buildSchedule` takes all actions of the recorded paths, and in every replay of its wait
pairs an action is performed only behind all actions that the solution places before it. -/
theorem solution_replayed {paths : RecordedPaths} {links : ThreadLinks} {visits : List Visit}
    {ρ : Nat → Bool} (h : paths.TraversedBy links visits) (hrelay : paths.RelaysAct)
    (hsat : (traverse links visits).transOrderClauses.all (eval ρ) = true) :
    (∀ f g, paths.Action f → paths.Action g → f.tid ≠ g.tid →
      (traverse links visits).getOrder ρ f g =
        some ((traverse links visits).solvedOrder ρ f g)) ∧
    ((ScheduleBuilder.scheduleRounds paths ((traverse links visits).solvedOrder ρ)).map
      Prod.fst).Pairwise (fun f g => (traverse links visits).solvedOrder ρ f g = true) ∧
    (∀ f, f ∈ (ScheduleBuilder.scheduleRounds paths
      ((traverse links visits).solvedOrder ρ)).map Prod.fst ↔ paths.Action f) ∧
    ∀ n tid s, Replay.schedulingPoint paths
      (ScheduleBuilder.buildSchedule paths ((traverse links visits).solvedOrder ρ)) n =
        some (tid, s) →
      Replay.InOrder paths ((traverse links visits).solvedOrder ρ) s.executed := by
  have horder := h.orderOk hsat
  have hcreators := h.afterCreators hsat hrelay
  have hrounds := ScheduleBuilder.roundsOk_scheduleRounds horder hcreators
  refine ⟨?_, hrounds.sorted, hrounds.mem_iff, ?_⟩
  · intro f g hf hg htid
    have hwf := wellFormed_traverse links visits
    rw [solvedOrder_eq hwf (h.mem_flatten hf) (h.mem_flatten hg)]
    exact getOrder_eq hwf.rptOk htid
      (hwf.covered f (h.mem_flatten hf) g (h.mem_flatten hg) htid)
  · intro n tid s hrun
    have hwaits := ScheduleBuilder.buildSchedule_waitsFor horder hcreators
    exact (Replay.replayOk_schedulingPoint horder hwaits hrun).1.inOrder

end RecordedPaths

/-! ## A store of another thread -/

def storeLoadPath : Nat → List PathEvent
  | 0 => [.other ⟨0, [(.counter, 0)]⟩, .memory ⟨0, [(.counter, 1)]⟩,
      .threadCreate ⟨0, [(.counter, 2)]⟩ 1, .memory ⟨0, [(.counter, 3)]⟩]
  | 1 => [.other ⟨1, [(.counter, 0)]⟩, .memory ⟨1, [(.counter, 1)]⟩]
  | _ => []

theorem create_storeLoadPath {t child : Nat} {ep : ExecPoint}
    (h : .threadCreate ep child ∈ storeLoadPath t) :
    t = 0 ∧ child = 1 ∧ ep = ⟨0, [(.counter, 2)]⟩ := by
  match t with
  | 0 | 1 | _ + 2 => simp_all [storeLoadPath]

def storeLoadPaths : RecordedPaths where
  num := 2
  path := storeLoadPath
  num_pos := by decide
  tid_eq := by decide
  increasing t _ := by
    match t with
    | 0 | 1 | _ + 2 => simp [storeLoadPath, PathEvent.Precedes, PathEvent.ep, ExecPoint.compare,
        ExecPoint.comparePairs]
  created_lt t _ ep child h := by
    obtain ⟨rfl, rfl, -⟩ := create_storeLoadPath h
    decide
  created t ht hpos := by
    obtain rfl : t = 1 := by omega
    exact ⟨0, by decide, ⟨0, [(.counter, 2)]⟩, by simp [storeLoadPath]⟩
  created_once t _ t' _ ep ep' child h h' := by
    obtain ⟨rfl, -, rfl⟩ := create_storeLoadPath h
    obtain ⟨rfl, -, rfl⟩ := create_storeLoadPath h'
    exact ⟨rfl, rfl⟩

def storeLoadLinks : ThreadLinks where
  parentRecord t := if t = 1 then some ⟨0, [(.counter, 2)]⟩ else none
  joins := []

def storeLoadVisits : List OrderTable.Visit :=
  [.action ⟨0, [(.counter, 1)]⟩, .action ⟨0, [(.counter, 3)]⟩, .action ⟨1, [(.counter, 1)]⟩]

private theorem storeLoadPaths_action {f : ExecPoint} (h : storeLoadPaths.Action f) :
    f = ⟨0, [(.counter, 1)]⟩ ∨ f = ⟨0, [(.counter, 3)]⟩ ∨ f = ⟨1, [(.counter, 1)]⟩ := by
  obtain ⟨t, -, hmem⟩ := h
  match t with
  | 0 =>
    simp only [storeLoadPaths, storeLoadPath, List.mem_cons, PathEvent.memory.injEq,
      List.not_mem_nil, reduceCtorEq, false_or, or_false] at hmem
    exact hmem.imp_right .inl
  | 1 => exact .inr (.inr (by simpa [storeLoadPaths, storeLoadPath] using hmem))
  | _ + 2 => simp [storeLoadPaths, storeLoadPath] at hmem

private theorem traversedBy_storeLoad :
    storeLoadPaths.TraversedBy storeLoadLinks storeLoadVisits where
  visited f hf := by
    rcases storeLoadPaths_action hf with rfl | rfl | rfl <;> decide
  nodup := by decide
  inOrder f g hf hg htid hafter := by
    rcases storeLoadPaths_action hf with rfl | rfl | rfl <;>
      rcases storeLoadPaths_action hg with rfl | rfl | rfl <;>
      first
      | decide
      | exact absurd htid (by decide)
      | exact absurd hafter (by decide)
  created t _ ep child h := by
    obtain ⟨-, rfl, rfl⟩ := create_storeLoadPath h
    rfl
  joined t _ ep target h := by
    change _ ∈ storeLoadPath t at h
    match t with
    | 0 | 1 | _ + 2 => simp [storeLoadPath] at h
  oneWay f g hf hg horder := by
    rcases storeLoadPaths_action hf with rfl | rfl | rfl <;>
      rcases storeLoadPaths_action hg with rfl | rfl | rfl <;>
      first
      | rfl
      | exact absurd horder (by decide)

/-- The solution in which the order variable is false places the store before the load. -/
theorem solution_replayed_storeLoad : ∃ tid s,
    Replay.schedulingPoint storeLoadPaths (ScheduleBuilder.buildSchedule storeLoadPaths
      ((OrderTable.traverse storeLoadLinks storeLoadVisits).solvedOrder fun _ => false)) 4 =
        some (tid, s) ∧
    s.executed = [⟨0, [(.counter, 1)]⟩, ⟨1, [(.counter, 1)]⟩, ⟨0, [(.counter, 3)]⟩] ∧
    Replay.InOrder storeLoadPaths
      ((OrderTable.traverse storeLoadLinks storeLoadVisits).solvedOrder fun _ => false)
      s.executed := by
  have hrelay : storeLoadPaths.RelaysAct := by
    intro t ht hpos pre ep child post hpath
    have hcreate : .threadCreate ep child ∈ storeLoadPath t := by
      change storeLoadPath t = _ at hpath
      simp [hpath]
    obtain ⟨rfl, -⟩ := create_storeLoadPath hcreate
    omega
  have hsat : (OrderTable.traverse storeLoadLinks storeLoadVisits).transOrderClauses.all
      (eval fun _ => false) = true := by
    rw [(OrderTable.wellFormed_traverse storeLoadLinks storeLoadVisits).rptOk.all_clauses_iff]
    decide +kernel
  obtain ⟨-, -, -, hreplay⟩ := RecordedPaths.solution_replayed traversedBy_storeLoad hrelay hsat
  exact ⟨_, _, rfl, rfl, hreplay 4 _ _ rfl⟩

end SatCheck
