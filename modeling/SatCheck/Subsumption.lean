import SatCheck.ComesTo
import SatCheck.ConflictSet
import SatCheck.ThreadOrder
/-!
# Subsumed execution conditions

`subsumesExecutionConstraint` looks for the branch of one record around the other one, and for
the exits of the first record before the second one.
-/

namespace SatCheck

/-! ## The exits of a traversal -/

namespace Traversal

variable (g : EventGraph) (noexecyields : Bool)

structure PendingTyped (t : Traversal) : Prop where
  pending : ∀ rec ∈ t.nonlocaltrans, g.getType rec = some .nonlocaltrans
  visits : ∀ v ∈ t.visits, ∀ rec ∈ v.nonlocaltrans, g.getType rec = some .nonlocaltrans

private theorem pendingTyped_visitRecord {t : Traversal} (h : t.PendingTyped g)
    (record : ExecPoint) :
    (t.visitRecord g record).PendingTyped g := by
  constructor
  · intro rec hrec
    unfold visitRecord at hrec
    cases htype : g.getType record with
    | none => exact h.pending rec (by simpa [htype] using hrec)
    | some et =>
      cases et with
      | nonlocaltrans =>
        simp only [htype, insertNonLocal, recordExecCond_nonlocaltrans, HashSet.add] at hrec
        split_ifs at hrec
        · exact h.pending rec hrec
        · rcases List.mem_append.mp hrec with hrec | hrec
          · exact h.pending rec hrec
          · rw [List.mem_singleton.mp hrec, htype]
      | label =>
        have hmem : rec ∈ t.nonlocaltrans ∧ g.getNextRecord rec ≠ some record := by
          simpa [htype, insertLabel] using hrec
        exact h.pending rec hmem.1
      | _ => exact h.pending rec (by simpa [htype, insertBranch] using hrec)
  · intro v hv
    rw [visitRecord_visits, List.mem_append, List.mem_singleton] at hv
    rcases hv with hv | rfl
    · exact h.visits v hv
    · exact h.pending

private theorem pendingTyped_traverse (n : Nat) : (traverse g noexecyields n).PendingTyped g := by
  induction n with
  | zero => exact ⟨by simp [traverse, start], by simp [traverse, start]⟩
  | succ n ih =>
    rw [traverse_succ]
    unfold step
    split
    next =>
      constructor
      · intro rec hrec
        apply (pendingTyped_visitRecord g ih _).pending rec
        unfold advance at hrec
        split_ifs at hrec <;> exact hrec
      · simpa using (pendingTyped_visitRecord g ih _).visits
    next => exact ⟨ih.pending, ih.visits⟩
    next => exact ih

theorem getType_of_exits {n : Nat} {record rec : ExecPoint}
    (h : rec ∈ (traverse g noexecyields n).exits record) :
    g.getType rec = some .nonlocaltrans := by
  have hsome : (traverse g noexecyields n).execcondtable record ≠ none := by
    intro hnone
    simp [exits, hnone] at h
  obtain ⟨v, ⟨hv, hexits⟩, rfl⟩ := tableSettled_traverse g noexecyields n record (.inl hsome)
  rw [hexits] at h
  exact (pendingTyped_traverse g noexecyields n).visits v hv rec (List.mem_of_mem_filter h)

end Traversal

/-! ## The orders that are asked for -/

/-- The actions of the first traversal; the other records take variables for their encoding. -/
def EventGraph.orderVisits (g : EventGraph) (newVars : ExecPoint → Nat) (visits : List Visit) :
    List OrderTable.Visit :=
  visits.map fun v =>
    match g.getType v.record with
    | some .load | some .store | some .rmw => .action v.record
    | _ => .newVars (newVars v.record)

/-- The tables after `n` steps of the traversal. -/
def EventGraph.constGen (g : EventGraph) (links : ThreadLinks) (noexecyields : Bool)
    (newVars : ExecPoint → Nat) (getSet : ExecPoint → List UInt64) (n : Nat) : ConstGen where
  graph := g
  traversal := Traversal.traverse g noexecyields n
  order := OrderTable.traverse links
    (g.orderVisits newVars (Traversal.traverse g noexecyields n).visits)
  getSet := getSet

theorem EventGraph.mem_actions {g : EventGraph} {newVars : ExecPoint → Nat}
    {visits : List Visit} {record : ExecPoint}
    (h : record ∈ OrderTable.actions (g.orderVisits newVars visits)) :
    g.getType record = some .load ∨ g.getType record = some .store ∨
      g.getType record = some .rmw := by
  obtain ⟨visit, hvisit, hrecord⟩ := List.mem_filterMap.mp h
  obtain ⟨v, -, rfl⟩ := List.mem_map.mp hvisit
  cases htype : g.getType v.record with
  | none => simp [htype] at hrecord
  | some et =>
    cases et <;> simp only [htype, Option.some_inj, reduceCtorEq] at hrecord <;>
      simp [← hrecord, htype]

namespace ConstGen

variable (cg : ConstGen)

/-- The first part of `subsumesExecutionConstraint`. -/
def branchSubsumed (recordsubsumes record : ExecPoint) : Bool :=
  match cg.graph.getBranch recordsubsumes with
  | none => true
  | some branchsubsumes =>
    decide (branchsubsumes ∈ cg.graph.branchChain record.getSize (cg.graph.getBranch record))

/-- The exits that the loop of `subsumesExecutionConstraint` comes to: it returns at the first
one that is not before the record. -/
def askedExits (record : ExecPoint) : List ExecPoint → List ExecPoint
  | [] => []
  | rec :: srs => rec :: if cg.isBefore rec record then askedExits record srs else []

/-- The records whose order with `record` is asked for. -/
def asked (recordsubsumes record : ExecPoint) : List ExecPoint :=
  if cg.branchSubsumed recordsubsumes record then
    cg.askedExits record (cg.traversal.exits recordsubsumes)
  else []

/-- `getOrderConstraint` finds an entry for the pair, or needs none. -/
def HasOrder (first second : ExecPoint) : Prop :=
  first.tid = second.tid ∨ (cg.order.getRecPair first second).isSome

/-- Of some exits, those up to the first one that is not before the record are of its thread. -/
def InThread (record : ExecPoint) : List ExecPoint → Prop
  | [] => True
  | rec :: srs => rec.tid = record.tid ∧ (rec.compare record = .after → InThread record srs)

variable {cg} {k c : ExecPoint}

/-- The answer is the one for the branch and the exits that are asked for. -/
theorem subsumesExecutionConstraint_eq : cg.subsumesExecutionConstraint k c =
    (cg.branchSubsumed k c && (cg.asked k c).all fun rec => cg.isBefore rec c) := by
  have hall : ∀ srs : List ExecPoint, (srs.all fun rec => cg.isBefore rec c) =
      (cg.askedExits c srs).all fun rec => cg.isBefore rec c := by
    intro srs
    induction srs with
    | nil => rfl
    | cons rec srs ih => cases h : cg.isBefore rec c <;> simp [askedExits, h, ih]
  have hsubsumes : cg.subsumesExecutionConstraint k c =
      (cg.branchSubsumed k c && (cg.traversal.exits k).all fun rec => cg.isBefore rec c) := rfl
  rw [hsubsumes, hall, asked]
  cases cg.branchSubsumed k c <;> simp

private theorem isBefore_of_tid {a b : ExecPoint} (htid : a.tid = b.tid) :
    cg.isBefore a b = true ↔ a.compare b = .after := by
  unfold isBefore OrderTable.getOrderConstraint
  rw [if_pos htid]
  split_ifs with h <;> simp [h, Constraint.isTrue]

/-- Where no exit has an entry, the orders that are asked for are those in one thread. -/
theorem hasOrder_askedExits_iff {srs : List ExecPoint}
    (hforeign : ∀ rec ∈ srs, cg.order.getRecPair rec c = none) :
    (∀ rec ∈ cg.askedExits c srs, cg.HasOrder rec c) ↔ InThread c srs := by
  induction srs with
  | nil => simp [askedExits, InThread]
  | cons rec srs ih =>
    have hrec : cg.HasOrder rec c ↔ rec.tid = c.tid := by
      simp [HasOrder, hforeign rec List.mem_cons_self]
    have hrest := ih fun rec hmem => hforeign rec (List.mem_cons_of_mem _ hmem)
    rw [askedExits, List.forall_mem_cons, hrec, InThread, ← hrest]
    apply and_congr_right
    intro htid
    rw [← isBefore_of_tid htid]
    cases cg.isBefore rec c <;> simp

theorem getRecPair_exit {g : EventGraph} {links : ThreadLinks} {noexecyields : Bool}
    {newVars : ExecPoint → Nat} {getSet : ExecPoint → List UInt64} {n : Nat} {rec : ExecPoint}
    (h : rec ∈ (Traversal.traverse g noexecyields n).exits k) :
    (g.constGen links noexecyields newVars getSet n).order.getRecPair rec c = none := by
  by_contra hne
  obtain ⟨p, hp⟩ := Option.ne_none_iff_exists'.mp hne
  have hpair := (OrderTable.traversed_traverse links
    (g.orderVisits newVars (Traversal.traverse g noexecyields n).visits)).earlier p
      (List.mem_of_find?_eq_some hp)
  have hmem : rec ∈ [p.epr1, p.epr2] := by
    rcases OrderTable.equals_of_getRecPair hp with ⟨rfl, -⟩ | ⟨-, rfl⟩ <;> simp
  have htype := EventGraph.mem_actions (hpair.subset hmem)
  rw [Traversal.getType_of_exits g noexecyields h] at htype
  simp at htype

end ConstGen

/-! ## The branch around both records -/

namespace Path

theorem arms_eq_nil {tid : Nat} {path : Path} (h : branchOf tid path = none) :
    path.arms = [] := by
  induction path with
  | nil => rfl
  | cons f path ih =>
    cases f with
    | arm n d => simp [branchOf] at h
    | loop n i => exact ih h

theorem arms_eq {tid : Nat} {path : Path} {branch : EPValue}
    (h : branchOf tid path = some branch) :
    ∃ b d, branch = ⟨Site.ep tid b, d⟩ ∧ path.arms = (b, d) :: b.path.arms := by
  induction path with
  | nil => simp [branchOf] at h
  | cons f path ih =>
    cases f with
    | arm n d =>
      obtain rfl := Option.some_inj.mp h
      exact ⟨⟨path, n⟩, d, rfl, rfl⟩
    | loop n i => exact ih h

end Path

namespace EventGraph

variable {g : EventGraph} {tid : Nat}

theorem getBranch_eq_none {record : ExecPoint} (h : g.getType record = none) :
    g.getBranch record = none := by
  rw [getType, Option.map_eq_none_iff] at h
  simp [getBranch, h]

theorem branchChain_none (fuel : Nat) : g.branchChain fuel none = [] := by cases fuel <;> rfl

private theorem mem_branchChain (hplaced : g.Placed tid) {path : Path} {fuel : Nat}
    {branch : EPValue} (h : branch ∈ g.branchChain fuel (branchOf tid path)) :
    ∃ b d, branch = ⟨Site.ep tid b, d⟩ ∧ (b, d) ∈ path.arms := by
  induction fuel generalizing path with
  | zero => simp [branchChain] at h
  | succ fuel ih =>
    cases hbranch : branchOf tid path with
    | none => simp [hbranch, branchChain_none] at h
    | some branch' =>
      obtain ⟨b, d, rfl, harms⟩ := Path.arms_eq hbranch
      rw [hbranch, branchChain] at h
      rcases List.mem_cons.mp h with rfl | h
      · exact ⟨b, d, rfl, by simp [harms]⟩
      · by_cases htype : g.getType (b.ep tid) = none
        · simp [getBranch_eq_none htype, branchChain_none] at h
        · rw [hplaced b htype] at h
          obtain ⟨b', d', heq, hmem⟩ := ih h
          exact ⟨b', d', heq, by simp [harms, hmem]⟩

end EventGraph

/-- A branch that is subsumed is around the other record, with all directions around it. -/
theorem ConstGen.arms_of_branchSubsumed {cg : ConstGen} (hplaced : ∀ tid, cg.graph.Placed tid)
    {x y : Site} {tid tid' : Nat} (hx : cg.graph.getType (x.ep tid) ≠ none)
    (h : cg.branchSubsumed (x.ep tid) (y.ep tid') = true) :
    x.path.arms = [] ∨ tid = tid' ∧ x.path.arms ⊆ y.path.arms := by
  unfold branchSubsumed at h
  rw [hplaced tid x hx] at h
  cases hbranch : branchOf tid x.path with
  | none => exact .inl (Path.arms_eq_nil hbranch)
  | some branch =>
    right
    simp only [hbranch, decide_eq_true_eq] at h
    obtain ⟨b, d, rfl, harms⟩ := Path.arms_eq hbranch
    by_cases hy : cg.graph.getType (y.ep tid') = none
    · simp [EventGraph.getBranch_eq_none hy, EventGraph.branchChain_none] at h
    · rw [hplaced tid' y hy] at h
      obtain ⟨b', d', heq, hmem⟩ := EventGraph.mem_branchChain (hplaced tid') h
      obtain ⟨hrecord, rfl⟩ := EPValue.mk.inj heq
      obtain ⟨rfl, rfl⟩ := Site.ep_inj.mp hrecord
      refine ⟨rfl, ?_⟩
      rw [harms]
      apply List.cons_subset.mpr
      exact ⟨hmem, Path.arms_of_branches (Path.mem_branches_of_arms hmem)⟩

/-! ## Runs of the recorded code -/

/-- A run in which every thread that runs follows its code to the end. -/
structure RunOf (code : Nat → Code) (calls : List (Nat × Annotation)) : Prop where
  nested : Threads.start.WellNested calls
  runs : ∀ tid, threadCalls tid calls ≠ [] →
    (code tid).Runs Control.start (threadCalls tid calls)

/-- The run requests the record, after earlier runs. -/
def Executes (before : List (List (Nat × Annotation))) (calls : List (Nat × Annotation))
    (record : ExecPoint) : Prop :=
  record ∈ ((Recorder.empty.runs before).run calls).requestsOf record.tid

/-- The run starts the thread of the record, and in front of the record the thread leaves no loop
around it, merges no branch around it and does not end. -/
def ComesTo (calls : List (Nat × Annotation)) (record : ExecPoint) : Prop :=
  threadCalls record.tid calls ≠ [] ∧ ∃ x : Site, record = x.ep record.tid ∧
    Control.Keeps x Control.start (threadCalls record.tid calls)

variable {before : List (List (Nat × Annotation))} {code : Nat → Code}
  {calls : List (Nat × Annotation)}

theorem executes_iff (h : ∀ tid, Recorded before tid (code tid))
    (hnested : Threads.start.WellNested calls) {record : ExecPoint} :
    Executes before calls record ↔ ∃ (x : Site) (et : EventType), record = x.ep record.tid ∧
      (x, et) ∈ Control.start.trace (threadCalls record.tid calls) := by
  unfold Executes
  rw [ScheduleBuilder.requestsOf_run (h 0).nested hnested, List.mem_map]
  constructor
  · rintro ⟨⟨x, et⟩, hmem, heq⟩
    exact ⟨x, et, heq.symm, hmem⟩
  · rintro ⟨x, et, heq, hmem⟩
    exact ⟨(x, et), hmem, heq.symm⟩

/-- Where the branch of a record is around an executed record, the record is executed exactly if
the run comes to it. -/
theorem ConstGen.executes_iff_comesTo {cg : ConstGen} {len : ExecPoint → Nat} {first : ExecPoint}
    (h : ∀ tid, Recorded before tid (code tid))
    (hgraph : cg.graph = (Recorder.empty.runs before).graph len first) {k c : ExecPoint}
    (hk : cg.graph.getType k ≠ none) (hsubsumed : cg.branchSubsumed k c = true)
    (hrun : RunOf code calls) (hc : Executes before calls c) :
    Executes before calls k ↔ ComesTo calls k := by
  obtain ⟨hlinked, hlogged⟩ := Recorder.logged_runs (h 0).nested
  have hplaced : ∀ tid, cg.graph.Placed tid := by
    intro tid
    rw [hgraph]
    exact ScheduleBuilder.placed_graph hlinked len first tid
  obtain ⟨y, et, hy, htrace⟩ := (executes_iff h hrun.nested).mp hc
  rw [executes_iff h hrun.nested]
  constructor
  · rintro ⟨x, et, hx, hmem⟩
    have hcalls : threadCalls k.tid calls ≠ [] := by
      intro hnil
      simp [hnil, Control.trace] at hmem
    exact ⟨hcalls, x, hx, Control.keeps_of_trace (hrun.runs _ hcalls) (.inr ⟨et, hmem⟩)⟩
  · rintro ⟨hcalls, x, hx, hkeeps⟩
    have htype : cg.graph.getType (x.ep k.tid) ≠ none := hx ▸ hk
    have htarget := (h k.tid).target (hlogged len first) (hgraph ▸ htype)
    rw [hx, hy] at hsubsumed
    have harms := ConstGen.arms_of_branchSubsumed hplaced htype hsubsumed
    have hmem := htarget.mem_trace Code.reaches_start Site.ahead_start (hrun.runs _ hcalls) hkeeps
      (by
        intro b d d' harm htaken
        rcases harms with hnil | ⟨htid, hsub⟩
        · simp [hnil] at harm
        · rw [htid] at htaken hcalls
          have hruns := hrun.runs _ hcalls
          have hown := Control.arms_of_trace hruns htrace (hsub harm)
          have htaken' : (b, d) ∈ Control.start.taken (threadCalls c.tid calls) := by
            simpa [Control.start, Site.start, Path.arms] using hown
          exact Control.direction_unique hruns htaken' htaken)
    obtain ⟨et, hmem⟩ := hmem
    exact ⟨x, et, hx, hmem⟩

/-- In every run that executes `c`, what it subsumes is executed exactly if the run comes to it.
The orders that are asked for have an entry, or are those in one thread, exactly if the exits that
are come to are of the thread of `c`. -/
theorem subsumesExecutionConstraint_iff (h : ∀ tid, Recorded before tid (code tid))
    (len : ExecPoint → Nat) (first : ExecPoint) (links : ThreadLinks) (noexecyields : Bool)
    (newVars : ExecPoint → Nat) (getSet : ExecPoint → List UInt64) (n : Nat) (k c : ExecPoint)
    (cg : ConstGen) (hcg : cg = ((Recorder.empty.runs before).graph len first).constGen links
      noexecyields newVars getSet n) (hk : cg.graph.getType k ≠ none) :
    (cg.subsumesExecutionConstraint k c = true → ∀ calls, RunOf code calls →
        Executes before calls c → (Executes before calls k ↔ ComesTo calls k)) ∧
      ((∀ rec ∈ cg.asked k c, cg.HasOrder rec c) ↔
        (cg.branchSubsumed k c = true → ConstGen.InThread c (cg.traversal.exits k))) := by
  have hforeign : ∀ rec ∈ cg.traversal.exits k, cg.order.getRecPair rec c = none := by
    subst hcg
    exact fun rec hrec => ConstGen.getRecPair_exit hrec
  constructor
  · intro hsubsumes calls hrun hc
    rw [ConstGen.subsumesExecutionConstraint_eq, Bool.and_eq_true] at hsubsumes
    exact ConstGen.executes_iff_comesTo h (congrArg ConstGen.graph hcg) hk hsubsumes.1 hrun hc
  · rw [ConstGen.asked]
    split_ifs with hsubsumed
    · rw [ConstGen.hasOrder_askedExits_iff hforeign]
      simp [hsubsumed]
    · simp [hsubsumed]

/-! ## A store behind an exit -/

/-- In a loop that runs once: a branch with an exit in direction 1, then a store.  There is another
store behind the loop. -/
def breakCode (tid : Nat) : Code := fun s =>
  if tid ≠ 0 then none
  else if s = ⟨[], 0⟩ then some .threadStart
  else if s = ⟨[], 1⟩ then some (.event .load 1)
  else if s = ⟨[], 2⟩ then some .enterLoop
  else if s = ⟨[.loop 2 0], 1⟩ then some .branch
  else if s = ⟨[.arm 1 0, .loop 2 0], 0⟩ then some (.merge ⟨[.loop 2 0], 1⟩)
  else if s = ⟨[.arm 1 1, .loop 2 0], 0⟩ then some .exitLoop
  else if s = ⟨[.loop 2 0], 3⟩ then some (.event .store 2)
  else if s = ⟨[.loop 2 0], 4⟩ then some .exitLoop
  else if s = ⟨[], 4⟩ then some (.event .store 2)
  else none

def storeRun : List (Nat × Annotation) :=
  [(0, .threadStart none), (0, .event .load 1), (0, .enterLoop), (0, .branchDir 0), (0, .merge 0),
    (0, .event .store 2), (0, .exitLoop), (0, .event .store 2)]

def breakRun : List (Nat × Annotation) :=
  [(0, .threadStart none), (0, .event .load 1), (0, .enterLoop), (0, .branchDir 1), (0, .exitLoop),
    (0, .event .store 2)]

theorem runOf_breakCode : ∀ calls ∈ [storeRun, breakRun], RunOf breakCode calls := by
  have hother : ∀ calls ∈ [storeRun, breakRun], ∀ tid, threadCalls tid calls ≠ [] → tid = 0 := by
    intro calls hcalls tid hne
    by_contra htid
    have hzero : (0 : Nat) ≠ tid := fun h => htid h.symm
    apply hne
    rcases List.mem_cons.mp hcalls with rfl | hcalls
    · simp [storeRun, threadCalls, hzero]
    · obtain rfl := List.mem_singleton.mp hcalls
      simp [breakRun, threadCalls, hzero]
  have hboth : ∀ calls ∈ [storeRun, breakRun], Threads.start.WellNested calls ∧
      (breakCode 0).Runs Control.start (threadCalls 0 calls) := by
    intro calls hcalls
    rcases List.mem_cons.mp hcalls with rfl | hcalls
    · simp [storeRun, Threads.WellNested, Threads.Legal, Threads.move, Threads.start,
        Control.Legal, Control.move, Control.start, Control.behind, Control.IsPlain, Site.start,
        Site.next, Site.arm, Site.body, Path.mergeable, Path.loops, threadCalls, Code.Runs,
        breakCode, Instruction.Allows]
    · obtain rfl := List.mem_singleton.mp hcalls
      simp [breakRun, Threads.WellNested, Threads.Legal, Threads.move, Threads.start,
        Control.Legal, Control.move, Control.start, Control.behind, Control.IsPlain, Site.start,
        Site.next, Site.arm, Site.body, Path.loops, threadCalls, Code.Runs, breakCode,
        Instruction.Allows]
  intro calls hcalls
  refine ⟨(hboth calls hcalls).1, fun tid hne => ?_⟩
  obtain rfl := hother calls hcalls tid hne
  exact (hboth calls hcalls).2

theorem recorded_breakCode (tid : Nat) :
    Recorded [storeRun, breakRun] tid (breakCode tid) where
  nested calls hcalls := (runOf_breakCode calls hcalls).nested
  runs calls hcalls := (runOf_breakCode calls hcalls).runs tid

def breakGen : ConstGen :=
  ((Recorder.empty.runs [storeRun, breakRun]).graph (fun _ => 2) (Site.ep 0 ⟨[], 1⟩)).constGen
    ⟨fun _ => none, []⟩ false (fun _ => 0) (fun _ => [16]) 20

/-- The store in the loop subsumes the one behind it, which is executed without it in the run that
takes the exit. -/
theorem not_executes_of_subsumes :
    (∀ tid, Recorded [storeRun, breakRun] tid (breakCode tid)) ∧
      breakGen.subsumesExecutionConstraint (Site.ep 0 ⟨[.loop 2 0], 3⟩) (Site.ep 0 ⟨[], 4⟩) = true ∧
      ¬ ∀ calls, RunOf breakCode calls →
        Executes [storeRun, breakRun] calls (Site.ep 0 ⟨[], 4⟩) →
          Executes [storeRun, breakRun] calls (Site.ep 0 ⟨[.loop 2 0], 3⟩) := by
  refine ⟨recorded_breakCode, by decide +kernel, fun h => ?_⟩
  have hrun := runOf_breakCode breakRun (by simp)
  have hstore : Executes [storeRun, breakRun] breakRun (Site.ep 0 ⟨[.loop 2 0], 3⟩) :=
    h breakRun hrun (by unfold Executes; decide +kernel)
  exact absurd hstore (by unfold Executes; decide +kernel)

/-- The other run comes to the store in the loop. -/
theorem comesTo_storeRun : ComesTo storeRun (Site.ep 0 ⟨[.loop 2 0], 3⟩) ∧
    ∀ rec ∈ breakGen.asked (Site.ep 0 ⟨[.loop 2 0], 3⟩) (Site.ep 0 ⟨[], 4⟩),
      breakGen.HasOrder rec (Site.ep 0 ⟨[], 4⟩) := by
  have hboth := subsumesExecutionConstraint_iff recorded_breakCode (fun _ => 2)
    (Site.ep 0 ⟨[], 1⟩) ⟨fun _ => none, []⟩ false (fun _ => 0) (fun _ => [16]) 20
    (Site.ep 0 ⟨[.loop 2 0], 3⟩) (Site.ep 0 ⟨[], 4⟩) breakGen rfl (by decide +kernel)
  have hrun := runOf_breakCode storeRun (by simp)
  constructor
  · exact (hboth.1 (by decide +kernel) storeRun hrun (by unfold Executes; decide +kernel)).mp
      (by unfold Executes; decide +kernel)
  · apply hboth.2.mpr
    intro _
    have hexits : breakGen.traversal.exits (Site.ep 0 ⟨[.loop 2 0], 3⟩) =
        [Site.ep 0 ⟨[.arm 1 1, .loop 2 0], 0⟩] := by decide +kernel
    rw [hexits]
    exact ⟨rfl, fun _ => trivial⟩

end SatCheck
