import SatCheck.RecordedGraph
/-!
# Execution conditions of created threads

A thread runs when its `THREADCREATE` does.  The condition of a memory action sees only the
branches and exits that the traversal has pending, so what it says about the `THREADCREATE`
is a matter of these.
-/

namespace SatCheck

namespace EventGraph

variable (g : EventGraph)

def IsMemory (record : ExecPoint) : Prop :=
  g.getType record = some .load ∨ g.getType record = some .store ∨ g.getType record = some .rmw

/-- `record` is a `THREADCREATE` that starts the other thread `tid`. -/
def Starts (record : ExecPoint) (tid : Nat) : Prop :=
  g.getType record = some .threadcreate ∧ record.tid ≠ tid ∧
    ∃ child, g.getChildRecord record = some child ∧ child.tid = tid

/-- `nonlocal` is pending at the visit, before its record and not before the record's branch. -/
def PendingExit (v : Visit) (nonlocal : ExecPoint) : Prop :=
  nonlocal ∈ v.nonlocaltrans ∧ v.record.compare nonlocal = .before ∧
    ∀ branch, g.getBranch v.record = some branch → branch.record.compare nonlocal ≠ .before

theorem mem_execCond {v : Visit} {nonlocal : ExecPoint} :
    nonlocal ∈ g.execCond v.nonlocaltrans v.record ↔ g.PendingExit v nonlocal := by
  unfold execCond PendingExit
  rw [List.mem_filter]
  cases h : g.getBranch v.record <;> simp [and_comm]

/-- The exits of its own thread that are part of a record's execution condition. -/
def ownExits (v : Visit) : List ExecPoint :=
  (g.execCond v.nonlocaltrans v.record).filter fun nonlocal => nonlocal.tid = v.record.tid

theorem mem_ownExits {v : Visit} {nonlocal : ExecPoint} :
    nonlocal ∈ g.ownExits v ↔ g.PendingExit v nonlocal ∧ nonlocal.tid = v.record.tid := by
  simp [ownExits, mem_execCond]

end EventGraph

namespace Traversal

variable (g : EventGraph) (t : Traversal)

def Encodes (codes : ExecPoint → Nat) : Prop :=
  ∀ record br, t.branchtable record = some br → codes record < 2 ^ br.numvars

def IsCode (record : ExecPoint) (code : Nat) : Prop :=
  ∀ br, t.branchtable record = some br → code < 2 ^ br.numvars

theorem isCode_zero (record : ExecPoint) : t.IsCode record 0 := fun _ _ => Nat.two_pow_pos _

/-- The execution condition of a visited `THREADCREATE`: its branch is taken and no exit of
its thread before it. -/
def createCondition (codes : ExecPoint → Nat) (v : Visit) : Bool :=
  t.executed g codes (g.ownExits v) v.record

/-- A `THREADCREATE` is reached when its condition holds and its own thread is started. -/
inductive Reached (codes : ExecPoint → Nat) : Visit → Prop
  | intro (v : Visit) (condition : t.createCondition g codes v = true)
      (started : v.record.tid ≠ g.first.tid →
        ∀ parent ∈ t.visits, g.Starts parent.record v.record.tid → Reached codes parent) :
      Reached codes v

/-- What the execution condition of a visited memory action is to say about a visited
`THREADCREATE` that starts its thread. -/
structure Guarded (v create : Visit) : Prop where
  implies : ∀ codes, t.Encodes codes → t.getExecutionConstraint g codes v.record = true →
    t.createCondition g codes create = true
  always : t.isAlwaysExecuted g v.record = true →
    ∀ codes, t.Encodes codes → t.Reached g codes create

/-- The memory actions of the threads other than the first have their thread's `THREADCREATE`
in their conditions, and no exit of another thread. -/
def ThreadsGuarded : Prop :=
  ∀ v, t.Settled g v → g.IsMemory v.record → v.record.tid ≠ g.first.tid →
    (∀ nonlocal ∈ t.exits v.record, nonlocal.tid = v.record.tid) ∧
      ∀ create ∈ t.visits, g.Starts create.record v.record.tid → t.Guarded g v create

/-- With `code` in the bits of `record` the visited record is not executed. -/
def Refuses (v : Visit) (record : ExecPoint) (code : Nat) : Prop :=
  (∃ nonlocal branch, g.PendingExit v nonlocal ∧ nonlocal.tid = v.record.tid ∧
    g.getBranch nonlocal = some branch ∧ branch.record = record ∧
      t.takes g (fun _ => code) branch = true) ∨
  ∃ branch, g.getBranch v.record = some branch ∧ branch.record = record ∧
    t.takes g (fun _ => code) branch = false

/-- No code of a branch record keeps the visited record from being executed. -/
def Unconditional (v : Visit) : Prop :=
  ∀ record code, t.IsCode record code → ¬ t.Refuses g v record code

def Contradictory (v : Visit) : Prop :=
  ∃ record, ∀ code, t.IsCode record code → t.Refuses g v record code

/-- The `THREADCREATE` is unconditional, and so are those that start its thread. -/
inductive AlwaysStarted : Visit → Prop
  | intro (v : Visit) (unconditional : t.Unconditional g v)
      (started : v.record.tid ≠ g.first.tid →
        ∀ parent ∈ t.visits, g.Starts parent.record v.record.tid → AlwaysStarted parent) :
      AlwaysStarted v

/-- The exits that are pending at a memory action are of its own thread, and its `THREADCREATE`
is unconditional, up to the `THREADCREATE`s before it where the action has no branch and no
exit. -/
def ThreadsUnconditional : Prop :=
  ∀ v, t.Settled g v → g.IsMemory v.record → v.record.tid ≠ g.first.tid →
    (∀ nonlocal, g.PendingExit v nonlocal → nonlocal.tid = v.record.tid) ∧
      ∀ create ∈ t.visits, g.Starts create.record v.record.tid →
        (t.Unconditional g create ∨ t.Contradictory g v) ∧
        (g.getBranch v.record = none → (∀ nonlocal, ¬ g.PendingExit v nonlocal) →
          t.AlwaysStarted g create)

/-! ## Conditions and codes -/

private theorem takes_congr {codes codes' : ExecPoint → Nat} {branch : EPValue}
    (h : codes branch.record = codes' branch.record) :
    t.takes g codes branch = t.takes g codes' branch := by
  simp [takes, h]

/-- The condition over a record's own exits holds when no branch record has a code that
refuses the record. -/
theorem createCondition_iff {codes : ExecPoint → Nat} {v : Visit} :
    t.createCondition g codes v = true ↔ ∀ record, ¬ t.Refuses g v record (codes record) := by
  have hc (branch : EPValue) : t.takes g (fun _ => codes branch.record) branch =
      t.takes g codes branch := takes_congr g t rfl
  unfold createCondition executed Refuses
  simp only [Bool.and_eq_true, List.all_eq_true, EventGraph.mem_ownExits, Option.all_eq_true]
  constructor
  · rintro ⟨hexits, hbranch⟩ record
      (⟨nonlocal, branch, hp, htid, hb, rfl, ht⟩ | ⟨branch, hb, rfl, ht⟩)
    · have := hexits nonlocal ⟨hp, htid⟩ branch hb
      rw [hc] at ht
      simp [ht] at this
    · rw [hc, hbranch branch hb] at ht
      simp at ht
  · intro h
    constructor
    · intro nonlocal hn branch hb
      have := fun ht => h branch.record (.inl ⟨nonlocal, branch, hn.1, hn.2, hb, rfl, ht⟩)
      rw [hc] at this
      simpa using this
    · intro branch hb
      have := fun ht => h branch.record (.inr ⟨branch, hb, rfl, ht⟩)
      rw [hc] at this
      simpa using this

theorem unconditional_iff {v : Visit} :
    (∀ codes, t.Encodes codes → t.createCondition g codes v = true) ↔ t.Unconditional g v := by
  constructor
  · intro h record code hcode
    have henc : t.Encodes (Function.update (fun _ => 0) record code) := by
      intro record' br hbr
      by_cases heq : record' = record
      · subst heq
        simpa using hcode br hbr
      · rw [Function.update_of_ne heq]
        exact t.isCode_zero record' br hbr
    have := (createCondition_iff g t).mp (h _ henc) record
    simpa using this
  · intro h codes henc
    apply (createCondition_iff g t).mpr
    intro record
    exact h record (codes record) (henc record)

theorem exists_codes_of_not_contradictory {v : Visit} (h : ¬ t.Contradictory g v) :
    ∃ codes, t.Encodes codes ∧ ∀ record, ¬ t.Refuses g v record (codes record) := by
  unfold Contradictory at h
  push Not at h
  choose codes hcodes hrefuses using h
  exact ⟨codes, hcodes, hrefuses⟩

theorem createCondition_eq_false_of_contradictory {codes : ExecPoint → Nat} {v : Visit}
    (h : t.Contradictory g v) (henc : t.Encodes codes) : t.createCondition g codes v = false := by
  obtain ⟨record, hrecord⟩ := h
  apply Bool.eq_false_iff.mpr
  intro hc
  exact (createCondition_iff g t).mp hc record (hrecord _ (henc record))

theorem getExecutionConstraint_eq {codes : ExecPoint → Nat} {v : Visit} (hv : t.Settled g v)
    (hown : ∀ nonlocal ∈ t.exits v.record, nonlocal.tid = v.record.tid) :
    t.getExecutionConstraint g codes v.record = t.createCondition g codes v := by
  have hexits : t.exits v.record = g.ownExits v := by
    unfold EventGraph.ownExits
    rw [← hv.2]
    apply Eq.symm
    apply List.filter_eq_self.mpr
    simpa using hown
  simp [getExecutionConstraint, createCondition, hexits]

theorem isAlwaysExecuted_iff {v : Visit} (hv : t.Settled g v) :
    t.isAlwaysExecuted g v.record = true ↔
      (∀ nonlocal, ¬ g.PendingExit v nonlocal) ∧ g.getBranch v.record = none := by
  simp only [isAlwaysExecuted, hv.2, Bool.and_eq_true, List.isEmpty_iff, Option.isNone_iff_eq_none,
    List.eq_nil_iff_forall_not_mem, EventGraph.mem_execCond]

/-! ## Two threads -/

private theorem refuses_tid {g : ThreadGraph} {t : Traversal} {v : Visit} {record : ExecPoint}
    {code : Nat} (h : t.Refuses g.toEventGraph v record code) : record.tid = v.record.tid := by
  rcases h with ⟨nonlocal, branch, -, htid, hb, rfl, -⟩ | ⟨branch, hb, rfl, -⟩
  · calc branch.record.tid = nonlocal.tid := g.branch_tid nonlocal branch hb
      _ = v.record.tid := htid
  · exact g.branch_tid v.record branch hb

/-- Conditions of two threads share no branch record, so one implies the other only when one
of them is constant. -/
theorem implies_iff {g : ThreadGraph} {t : Traversal} {v create : Visit}
    (htid : create.record.tid ≠ v.record.tid) :
    (∀ codes, t.Encodes codes → t.createCondition g.toEventGraph codes v = true →
      t.createCondition g.toEventGraph codes create = true) ↔
      t.Unconditional g.toEventGraph create ∨ t.Contradictory g.toEventGraph v := by
  constructor
  · intro h
    by_contra hne
    push Not at hne
    obtain ⟨hcreate, hv⟩ := hne
    unfold Unconditional at hcreate
    push Not at hcreate
    obtain ⟨record, code, hcode, hrefuses⟩ := hcreate
    obtain ⟨codes, hcodes, hnot⟩ := exists_codes_of_not_contradictory _ t hv
    have hrecord : record.tid ≠ v.record.tid := by
      rw [refuses_tid hrefuses]
      exact htid
    have henc : t.Encodes (Function.update codes record code) := by
      intro record' br hbr
      by_cases heq : record' = record
      · subst heq
        simpa using hcode br hbr
      · simpa [heq] using hcodes record' br hbr
    have hv' : t.createCondition g.toEventGraph (Function.update codes record code) v = true := by
      apply (createCondition_iff _ t).mpr
      intro record' hr
      have heq : record' ≠ record := by
        rintro rfl
        exact hrecord (refuses_tid hr)
      rw [Function.update_of_ne heq] at hr
      exact hnot record' hr
    have := (createCondition_iff _ t).mp (h _ henc hv') record
    rw [Function.update_self] at this
    exact this hrefuses
  · rintro (h | h) codes henc hv
    · exact (unconditional_iff _ t).mpr h codes henc
    · rw [createCondition_eq_false_of_contradictory _ t h henc] at hv
      exact absurd hv Bool.false_ne_true

/-- A `THREADCREATE` is reached under all codes when nothing on its chain has a condition. -/
theorem forall_reached_iff {v : Visit} :
    (∀ codes, t.Encodes codes → t.Reached g codes v) ↔ t.AlwaysStarted g v := by
  constructor
  · intro h
    have henc : t.Encodes fun _ => 0 := t.isCode_zero
    -- the chain of `v` is the same under all codes
    have hchain := h _ henc
    induction hchain with
    | intro v _ _ ih =>
      constructor
      · apply (unconditional_iff g t).mp
        intro codes hcodes
        cases h codes hcodes with
        | intro _ condition _ => exact condition
      · intro htid parent hparent hstarts
        apply ih htid parent hparent hstarts
        intro codes hcodes
        cases h codes hcodes with
        | intro _ _ started => exact started htid parent hparent hstarts
  · intro h codes hcodes
    induction h with
    | intro v unconditional _ ih =>
      constructor
      · exact (unconditional_iff g t).mpr unconditional codes hcodes
      · exact ih

theorem guarded_iff {g : ThreadGraph} {t : Traversal} {v create : Visit}
    (hv : t.Settled g.toEventGraph v)
    (hown : ∀ nonlocal ∈ t.exits v.record, nonlocal.tid = v.record.tid)
    (hstarts : g.toEventGraph.Starts create.record v.record.tid) :
    t.Guarded g.toEventGraph v create ↔
      (t.Unconditional g.toEventGraph create ∨ t.Contradictory g.toEventGraph v) ∧
      (g.toEventGraph.getBranch v.record = none →
        (∀ nonlocal, ¬ g.toEventGraph.PendingExit v nonlocal) →
          t.AlwaysStarted g.toEventGraph create) := by
  have himplies := @implies_iff g t v create hstarts.2.1
  constructor
  · intro h
    constructor
    · apply himplies.mp
      intro codes henc hc
      rw [← getExecutionConstraint_eq _ t hv hown] at hc
      exact h.implies codes henc hc
    · intro hbranch hexits
      apply (forall_reached_iff _ t).mp
      exact h.always ((isAlwaysExecuted_iff _ t hv).mpr ⟨hexits, hbranch⟩)
  · rintro ⟨hcond, halways⟩
    constructor
    · intro codes henc hc
      rw [getExecutionConstraint_eq _ t hv hown] at hc
      exact himplies.mpr hcond codes henc hc
    · intro h
      obtain ⟨hexits, hbranch⟩ := (isAlwaysExecuted_iff _ t hv).mp h
      exact (forall_reached_iff _ t).mpr (halways hbranch hexits)

theorem threadsGuarded_iff (g : ThreadGraph) (noexecyields : Bool) (n : Nat) :
    (traverse g.toEventGraph noexecyields n).ThreadsGuarded g.toEventGraph ↔
      (traverse g.toEventGraph noexecyields n).ThreadsUnconditional g.toEventGraph := by
  unfold ThreadsGuarded ThreadsUnconditional
  apply forall_congr'
  intro v
  apply imp_congr_right
  intro hv
  apply imp_congr_right
  intro _
  apply imp_congr_right
  intro _
  have hexits (nonlocal : ExecPoint) : nonlocal ∈ (traverse g.toEventGraph noexecyields n).exits
      v.record ↔ g.toEventGraph.PendingExit v nonlocal := by
    rw [hv.2, EventGraph.mem_execCond]
  simp only [hexits]
  apply and_congr_right
  intro hown
  apply forall_congr'
  intro create
  apply imp_congr_right
  intro _
  apply imp_congr_right
  intro hstarts
  apply guarded_iff hv _ hstarts
  simpa [hexits] using hown

/-! ## A thread created inside a branch -/

/-- The first thread creates a thread in direction 1 of a branch, and that thread stores. -/
def createInBranch : List (Nat × Annotation) :=
  [(0, .threadStart none), (0, .event .load 0), (0, .branchDir 1), (0, .threadCreate),
    (1, .threadStart (some ⟨0, [(.counter, 2), (.branch, 1), (.counter, 0)]⟩)),
    (1, .event .store 1)]

def createInBranchGraph : ThreadGraph :=
  Recorder.recordedGraph [createInBranch] (fun _ => 2) ⟨0, [(.counter, 1)]⟩

def lastCodes (t : Traversal) (record : ExecPoint) : Nat :=
  ((t.branchtable record).map fun br => 2 ^ br.numvars - 1).getD 0

private theorem encodes_lastCodes (t : Traversal) : t.Encodes t.lastCodes := by
  intro record br hbr
  have := Nat.two_pow_pos br.numvars
  simp only [lastCodes, hbr, Option.map_some, Option.getD_some]
  omega

/-- The store counts as always executed, but its thread is not created when the branch goes in
a new direction. -/
theorem not_threadsGuarded :
    ¬ (traverse createInBranchGraph.toEventGraph false 20).ThreadsGuarded
      createInBranchGraph.toEventGraph := by
  intro h
  have hguarded := (h ⟨⟨1, [(.counter, 1)]⟩, []⟩ ⟨by decide, by decide⟩ (.inr (.inl (by decide)))
    (by decide)).2 ⟨⟨0, [(.counter, 2), (.branch, 1), (.counter, 0)]⟩, []⟩ (by decide)
    ⟨by decide, by decide, ⟨1, [(.counter, 0)]⟩, by decide, rfl⟩
  have hcreate := hguarded.implies _ (encodes_lastCodes _) (by decide)
  exact absurd hcreate (by decide)

end Traversal

end SatCheck
