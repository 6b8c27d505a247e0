import SatCheck.CodeGraph
import SatCheck.SiteOrder
/-!
# Walking the recorded graph

`ScheduleBuilder::getNextRecord` and `processRecord` go from record to record of a thread, with
the direction of each branch taken from a solution.
-/

namespace SatCheck

namespace ScheduleBuilder

variable (g : EventGraph)

/-- `hasNextRecord` of the `BranchRecord` that is made for a branch record of the graph. -/
def hasNextRecord (record : ExecPoint) : Bool := (g.getNextRecord record).isSome

/-- `getNextRecord` through at most `fuel` records. -/
def getNextRecordFrom : Nat → ExecPoint → Option ExecPoint
  | 0, _ => none
  | fuel + 1, record =>
    match (if g.getType record = some .branchdir ∧ hasNextRecord g record = false then none
      else g.getNextRecord record), g.getBranch record with
    | none, some branch => getNextRecordFrom fuel branch.record
    | next, _ => next

def getNextRecord (record : ExecPoint) : Option ExecPoint :=
  getNextRecordFrom g (record.getSize + 1) record

/-- `index` is what `getBranchValue` reads off the solution, `none` for a negative value. -/
def processRecord (noexecyields : Bool) (index : ExecPoint → Option Nat) (record : ExecPoint) :
    Option ExecPoint :=
  match g.getType record with
  | some .load | some .store | some .rmw | some .fence => some record
  | some .loopenter => g.getChildRecord record
  | some .branchdir =>
    match ((index record).bind fun i => (g.valuevector record)[i]?).bind
      fun value => g.firstrecord ⟨record, value⟩ with
    | some branchrecord => some branchrecord
    | none => getNextRecord g record
  | some .yield => if noexecyields then none else getNextRecord g record
  | some _ => getNextRecord g record
  | none => none

/-- `buildSchedule` stays at a memory action until it is scheduled and goes on behind it. -/
def step (noexecyields : Bool) (index : ExecPoint → Option Nat) (record : ExecPoint) :
    Option ExecPoint :=
  let next := processRecord g noexecyields index record
  if next = some record then getNextRecord g record else next

/-- The records from `record` on. -/
def walk (noexecyields : Bool) (index : ExecPoint → Option Nat) :
    Nat → Option ExecPoint → List ExecPoint
  | 0, _ => []
  | _ + 1, none => []
  | n + 1, some record => record :: walk noexecyields index n (step g noexecyields index record)

end ScheduleBuilder

namespace Control

def taken : Control → List Annotation → List (Site × Nat)
  | _, [] => []
  | k, .branchDir direction :: calls =>
    (k.site, direction) :: taken (k.move (.branchDir direction)) calls
  | k, call :: calls => taken (k.move call) calls

def merged : Control → List Annotation → List Site
  | _, [] => []
  | k, .merge mcid :: calls => k.values[mcid]?.toList ++ merged (k.move (.merge mcid)) calls
  | k, call :: calls => merged (k.move call) calls

/-- The branches that some calls leave open to the end, or to the merge of a branch around.
Where yields are not executed, a thread that ends with one is not walked further. -/
def leftOpen (noexecyields : Bool) : Control → List Annotation → List Site
  | k, [] => k.site.path.branches
  | k, .merge mcid :: calls =>
    (k.values[mcid]?.toList.flatMap fun b => k.site.path.branches.takeWhile (· ≠ b)) ++
      leftOpen noexecyields (k.move (.merge mcid)) calls
  | k, .event .yield numinputs :: calls =>
    if noexecyields then []
    else leftOpen noexecyields (k.move (.event .yield numinputs)) calls
  | k, call :: calls => leftOpen noexecyields (k.move call) calls

/-- The branches that a call leaves open, those inside of the branch that it merges. -/
def leavesOpen (k : Control) : Annotation → List Site
  | .merge mcid =>
    k.values[mcid]?.toList.flatMap fun b => k.site.path.branches.takeWhile (· ≠ b)
  | _ => []

end Control

/-! ## Steps along the graph -/

section

variable {executions : List (List (Nat × Annotation))} {tid : Nat} {code : Code} {g : EventGraph}

def EventGraph.Placed (g : EventGraph) (tid : Nat) : Prop :=
  ∀ s : Site, g.getType (s.ep tid) ≠ none → g.getBranch (s.ep tid) = branchOf tid s.path

namespace ScheduleBuilder

private theorem getNextRecordFrom_eq (hplaced : g.Placed tid) {s : Site} {fuel : Nat}
    (hs : g.getType (s.ep tid) ≠ none)
    (hbranches : ∀ b ∈ s.path.branches, g.getType (b.ep tid) ≠ none)
    (hfuel : s.path.branches.length < fuel) :
    getNextRecordFrom g fuel (s.ep tid) = (g.getNextRecord (s.ep tid)).or
      (s.path.branches.findSome? fun b => g.getNextRecord (b.ep tid)) := by
  induction fuel generalizing s with
  | zero => omega
  | succ fuel ih =>
    have hguard : (if g.getType (s.ep tid) = some .branchdir ∧
        hasNextRecord g (s.ep tid) = false then none else g.getNextRecord (s.ep tid)) =
          g.getNextRecord (s.ep tid) := by
      split_ifs with h
      · exact (Option.isNone_iff_eq_none.mp (by simpa [hasNextRecord] using h.2)).symm
      · rfl
    rw [getNextRecordFrom, hguard, hplaced s hs]
    cases hnext : g.getNextRecord (s.ep tid) with
    | some x => simp
    | none =>
      cases hbranch : branchOf tid s.path with
      | none => simp [Site.branches_eq_nil hbranch]
      | some branch =>
        obtain ⟨b, hrecord, hpath⟩ := Site.branches_eq hbranch
        rw [hpath] at hbranches hfuel
        have hb := ih (s := b) (hbranches b List.mem_cons_self)
          (fun c hc => hbranches c (List.mem_cons_of_mem _ hc))
          (by simpa using hfuel)
        simp only [Option.none_or]
        rw [hpath, hrecord, hb, List.findSome?_cons]
        cases g.getNextRecord (b.ep tid) <;> simp

private theorem length_branches (path : Path) : path.branches.length ≤ path.length := by
  induction path with
  | nil => simp [Path.branches]
  | cons f path ih => cases f <;> simp only [Path.branches, List.length_cons] <;> omega

theorem getNextRecord_eq (hplaced : g.Placed tid) {s : Site} (hs : g.getType (s.ep tid) ≠ none)
    (hbranches : ∀ b ∈ s.path.branches, g.getType (b.ep tid) ≠ none) :
    getNextRecord g (s.ep tid) = (g.getNextRecord (s.ep tid)).or
      (s.path.branches.findSome? fun b => g.getNextRecord (b.ep tid)) := by
  apply getNextRecordFrom_eq hplaced hs hbranches
  have := length_branches s.path
  rw [Site.getSize_ep]
  omega

theorem step_passes {noexecyields : Bool} {index : ExecPoint → Option Nat} {record : ExecPoint}
    {et : EventType} (htype : g.getType record = some et)
    (het : et ≠ .branchdir ∧ et ≠ .loopenter) (hyield : et = .yield → noexecyields = false) :
    step g noexecyields index record = getNextRecord g record := by
  unfold step processRecord
  rw [htype]
  cases et <;> simp_all

variable {noexecyields : Bool} {index : ExecPoint → Option Nat}

theorem walk_none (n : Nat) : walk g noexecyields index n none = [] := by cases n <;> rfl

theorem walk_eq_nil_iff {next : Option ExecPoint} :
    (∀ n, walk g noexecyields index n next = List.take n []) ↔ next = none := by
  constructor
  · intro h
    cases next with
    | none => rfl
    | some record =>
      have := h 1
      simp [walk] at this
  · rintro rfl n
    simp [walk_none]

theorem walk_eq_cons_iff {next : Option ExecPoint} {record : ExecPoint} {rest : List ExecPoint} :
    (∀ n, walk g noexecyields index n next = (record :: rest).take n) ↔
      next = some record ∧
        ∀ n, walk g noexecyields index n (step g noexecyields index record) = rest.take n := by
  constructor
  · intro h
    have hnext : next = some record := by
      have := h 1
      cases next with
      | none => simp [walk] at this
      | some r => simpa [walk] using this
    subst hnext
    refine ⟨rfl, fun n => ?_⟩
    have := h (n + 1)
    simpa [walk] using this
  · rintro ⟨rfl, h⟩ n
    cases n with
    | zero => rfl
    | succ n => simp [walk, h n]

def Walks (g : EventGraph) (noexecyields : Bool) (index : ExecPoint → Option Nat) :
    Option ExecPoint → List ExecPoint → Prop
  | _, [] => True
  | next, record :: records =>
    next = some record ∧ Walks g noexecyields index (step g noexecyields index record) records

def walkTo (g : EventGraph) (noexecyields : Bool) (index : ExecPoint → Option Nat) :
    Option ExecPoint → List ExecPoint → Option ExecPoint
  | next, [] => next
  | _, record :: records =>
    walkTo g noexecyields index (step g noexecyields index record) records

theorem walk_append_iff {next : Option ExecPoint} {records rest : List ExecPoint} :
    (∀ n, walk g noexecyields index n next = (records ++ rest).take n) ↔
      Walks g noexecyields index next records ∧
        ∀ n, walk g noexecyields index n (walkTo g noexecyields index next records) =
          rest.take n := by
  induction records generalizing next with
  | nil => simp [Walks, walkTo]
  | cons record records ih =>
    rw [List.cons_append, walk_eq_cons_iff, ih, Walks, walkTo, and_assoc]

def goesOn (g : EventGraph) (noexecyields : Bool) (index : ExecPoint → Option Nat) (tid : Nat)
    (k : Control) : Option ExecPoint :=
  match k.prev with
  | some p => step g noexecyields index (p.ep tid)
  | none =>
    match branchOf tid k.site.path with
    | some branch => step g noexecyields index branch.record
    | none => some (k.site.ep tid)

end ScheduleBuilder

end

/-! ## Walking a run -/

namespace ScheduleBuilder

variable {executions : List (List (Nat × Annotation))} {tid : Nat} {code : Code} {g : EventGraph}
  {noexecyields : Bool} {index : ExecPoint → Option Nat} {k : Control} {call : Annotation}

def Gives (g : EventGraph) (index : ExecPoint → Option Nat) (tid : Nat) (b : Site)
    (direction : Nat) : Prop :=
  ((index (b.ep tid)).bind fun i => (g.valuevector (b.ep tid))[i]?) = some direction

/-- What is behind a control is in the graph, and the solution takes the direction it is in. -/
structure Passed (executions : List (List (Nat × Annotation))) (g : EventGraph)
    (noexecyields : Bool) (index : ExecPoint → Option Nat) (tid : Nat) (k : Control) : Prop where
  branches : ∀ b ∈ k.site.path.branches, .record (b.ep tid) .branchdir ∈ threadLog executions tid
  prev : ∀ p, k.prev = some p → ∃ et, .record (p.ep tid) et ∈ threadLog executions tid ∧
    (et = .yield → noexecyields = false)
  begin : k.prev = none →
    k.site = Site.start ∨ ∃ b direction, k.site = Site.arm b direction ∧
      Gives g index tid b direction

theorem step_branch (h : Recorded executions tid code)
    (hg : g.Logged (Recorder.runsLog executions)) {b : Site} {direction : Nat}
    (hb : .record (b.ep tid) .branchdir ∈ threadLog executions tid)
    (hgives : Gives g index tid b direction)
    (hfirst : .first ⟨b.ep tid, direction⟩ ((b.arm direction).ep tid) ∈
      threadLog executions tid) :
    step g noexecyields index (b.ep tid) = some ((b.arm direction).ep tid) := by
  have hprocess : processRecord g noexecyields index (b.ep tid) =
      some ((b.arm direction).ep tid) := by
    unfold processRecord
    rw [(h.getType hg hb).1]
    simp only
    rw [show ((index (b.ep tid)).bind fun i => (g.valuevector (b.ep tid))[i]?) =
      some direction from hgives, Option.bind_some, h.firstrecord hg hfirst]
  unfold step
  rw [hprocess, if_neg]
  intro heq
  obtain ⟨-, heq⟩ := Site.ep_inj.mp (Option.some_inj.mp heq)
  have := congrArg (fun s : Site => s.path.length) heq
  simp [Site.arm] at this

theorem step_empty (h : Recorded executions tid code)
    (hg : g.Logged (Recorder.runsLog executions)) (hplaced : g.Placed tid) {b : Site}
    {direction : Nat} (hb : .record (b.ep tid) .branchdir ∈ threadLog executions tid)
    (hbranches : ∀ c ∈ b.path.branches, .record (c.ep tid) .branchdir ∈ threadLog executions tid)
    (hgives : Gives g index tid b direction)
    (hnone : (code (b.arm direction)).bind (Instruction.type (b.arm direction)) = none) :
    step g noexecyields index (b.ep tid) =
      (b.arm direction).path.branches.findSome? fun c => g.getNextRecord (c.ep tid) := by
  have hnext : getNextRecord g (b.ep tid) =
      (b.arm direction).path.branches.findSome? fun c => g.getNextRecord (c.ep tid) := by
    rw [getNextRecord_eq hplaced]
    · simp only [Site.arm, Path.branches, List.findSome?_cons]
      cases g.getNextRecord (b.ep tid) <;> simp
    · simp [(h.getType hg hb).1]
    · intro c hc
      simp [(h.getType hg (hbranches c hc)).1]
  have hprocess : processRecord g noexecyields index (b.ep tid) = getNextRecord g (b.ep tid) := by
    unfold processRecord
    rw [(h.getType hg hb).1]
    simp only
    rw [show ((index (b.ep tid)).bind fun i => (g.valuevector (b.ep tid))[i]?) =
      some direction from hgives, Option.bind_some, h.firstrecord_none hg hnone]
  unfold step
  rw [hprocess, ← hnext]
  simp

theorem step_prev (h : Recorded executions tid code)
    (hg : g.Logged (Recorder.runsLog executions)) (hplaced : g.Placed tid)
    (hreach : code.Reaches k) (hpassed : Passed executions g noexecyields index tid k) {p : Site}
    (hprev : k.prev = some p) :
    step g noexecyields index (p.ep tid) = (g.getNextRecord (p.ep tid)).or
      (k.site.path.branches.findSome? fun b => g.getNextRecord (b.ep tid)) := by
  obtain ⟨et, htype, hpasses, hleads⟩ := hreach.prev p hprev
  obtain ⟨et', hrecord, hyield⟩ := hpassed.prev p hprev
  obtain ⟨hget, htype'⟩ := h.getType hg hrecord
  obtain rfl := Option.some_inj.mp (htype.symm.trans htype')
  have hpath := Site.branches_congr (hleads.branchOf tid)
  have hne : et ≠ .branchdir ∧ et ≠ .loopenter := by
    constructor <;> rintro rfl <;> exact hpasses
  rw [step_passes hget hne hyield, getNextRecord_eq hplaced, hpath]
  · simp [hget]
  · intro b hb
    rw [← hpath] at hb
    simp [(h.getType hg (hpassed.branches b hb)).1]

/-- Before a site where nothing is recorded, the walk leaves the branches around. -/
theorem goesOn_leave (h : Recorded executions tid code)
    (hg : g.Logged (Recorder.runsLog executions)) (hplaced : g.Placed tid)
    (hreach : code.Reaches k) (hpassed : Passed executions g noexecyields index tid k)
    (hstart : k.site ≠ Site.start) (hs : code k.site ≠ some .loopIterate)
    (hnone : (code k.site).bind (Instruction.type k.site) = none) :
    goesOn g noexecyields index tid k =
      k.site.path.branches.findSome? fun b => g.getNextRecord (b.ep tid) := by
  unfold goesOn
  cases hprev : k.prev with
  | some p =>
    obtain ⟨et, htype, hpasses, hleads⟩ := hreach.prev p hprev
    have hlink : g.getNextRecord (p.ep tid) = none := by
      apply Recorded.getNextRecord_none hg
      intro x hx
      obtain ⟨s, -, hnext⟩ := (h.leaves hx).next_site
      exact hleads.not_next htype hpasses hs hnone hnext
    simp only
    rw [step_prev h hg hplaced hreach hpassed hprev, hlink, Option.none_or]
  | none =>
    rcases hpassed.begin hprev with hbegin | ⟨b, direction, hb, hgives⟩
    · exact absurd hbegin hstart
    · have hbranches := hpassed.branches
      rw [hb] at hnone hbranches ⊢
      simp only [Site.branchOf_arm]
      apply step_empty h hg hplaced (hbranches b List.mem_cons_self) _ hgives hnone
      exact fun c hc => hbranches c (List.mem_cons_of_mem _ hc)

/-- At a site where something is recorded, the walk comes to its record. -/
theorem goesOn_arrive (h : Recorded executions tid code)
    (hg : g.Logged (Recorder.runsLog executions)) (hplaced : g.Placed tid)
    (hreach : code.Reaches k) (hpassed : Passed executions g noexecyields index tid k)
    (harrive : ∀ e ∈ k.arrive tid, e ∈ threadLog executions tid) :
    goesOn g noexecyields index tid k = some (k.site.ep tid) := by
  unfold Control.arrive at harrive
  unfold goesOn
  cases hprev : k.prev with
  | some p =>
    rw [hprev] at harrive
    have hlink := h.getNextRecord hg (harrive _ (List.mem_singleton_self _))
    simp only
    rw [step_prev h hg hplaced hreach hpassed hprev, hlink, Option.some_or]
  | none =>
    rw [hprev] at harrive
    rcases hpassed.begin hprev with hbegin | ⟨b, direction, hb, hgives⟩
    · simp [hbegin, Site.start, branchOf]
    · have hrecord := hpassed.branches
      rw [hb] at harrive hrecord ⊢
      simp only [Site.branchOf_arm] at harrive ⊢
      exact step_branch h hg (hrecord b List.mem_cons_self) hgives (harrive _ (by simp))

theorem Passed.behind (h : Passed executions g noexecyields index tid k) {s : Site}
    {et : EventType} (hs : .record (s.ep tid) et ∈ threadLog executions tid)
    (hyield : et = .yield → noexecyields = false)
    (hbranches : ∀ b ∈ s.path.branches, b ∈ k.site.path.branches) :
    Passed executions g noexecyields index tid (k.behind s) where
  branches b hb := h.branches b (hbranches b hb)
  prev p hp := by
    obtain rfl := Option.some_inj.mp hp
    exact ⟨et, hs, hyield⟩
  begin hnone := by simp [Control.behind] at hnone

theorem Passed.move (h : Passed executions g noexecyields index tid k)
    (hlegal : k.Legal call) (hbegin : k.prev = none → ∀ n i path, k.site.path ≠ .loop n i :: path)
    (hentries : ∀ e ∈ k.entries tid call, e ∈ threadLog executions tid)
    (hgives : ∀ direction, call = .branchDir direction → Gives g index tid k.site direction)
    (hyield : ∀ numinputs, call = .event .yield numinputs → noexecyields = false) :
    Passed executions g noexecyields index tid (k.move call) := by
  cases call with
  | event et numinputs =>
    apply h.behind (hentries _ (by simp [Control.entries, Control.notes]; exact Or.inl rfl))
    · rintro rfl
      exact hyield numinputs rfl
    · exact fun b hb => hb
  | threadCreate =>
    exact h.behind (hentries _ (by simp [Control.entries, Control.notes]; exact Or.inl rfl))
      (by simp) fun b hb => hb
  | threadStart parent =>
    exact h.behind (hentries _ (by simp [Control.entries, Control.notes]; exact Or.inl rfl))
      (by simp) fun b hb => hb
  | branchDir direction =>
    have hrecord : .record (k.site.ep tid) .branchdir ∈ threadLog executions tid :=
      hentries _ (by simp [Control.entries, Control.notes])
    constructor
    · intro b hb
      rcases List.mem_cons.mp hb with rfl | hb
      · exact hrecord
      · exact h.branches b hb
    · simp [Control.move]
    · exact fun _ => Or.inr ⟨k.site, direction, rfl, hgives direction rfl⟩
  | merge mcid =>
    obtain ⟨b, hb, hmem⟩ := hlegal
    simp only [Control.move, hb]
    apply h.behind (hentries (.record (b.next.ep tid) .merge) _) (by simp)
    · exact fun c hc => Path.branches_subset (Path.mergeable_subset hmem) hc
    · simp [Control.entries, Control.notes, hb]
  | enterLoop =>
    apply h.behind (hentries (.record (k.site.body.ep tid) .loopstart) _) (by simp)
    · exact fun b hb => hb
    · simp [Control.entries, Control.notes]
  | exitLoop =>
    obtain ⟨l, loops, hloops⟩ := List.exists_cons_of_ne_nil hlegal
    simp only [Control.move, hloops, List.head?_cons]
    apply h.behind (hentries (.record (l.next.ep tid) .label) _) (by simp)
    · exact fun b hb =>
        Path.branches_of_loops (show l ∈ _ by rw [hloops]; exact List.mem_cons_self) hb
    · simp [Control.entries, Control.notes, hloops]
  | loopIterate =>
    obtain ⟨n, i, path, hpath⟩ := hlegal
    constructor
    · intro b hb
      apply h.branches b
      simpa [Control.move, Site.iterate, hpath, Path.branches] using hb
    · exact h.prev
    · exact fun hnone => absurd hpath (hbegin hnone n i path)

theorem leftOpen_event (noexecyields : Bool) (k : Control) (et : EventType) (numinputs : Nat)
    (calls : List Annotation) : k.leftOpen noexecyields (.event et numinputs :: calls) =
      if et = .yield ∧ noexecyields = true then []
      else (k.move (.event et numinputs)).leftOpen noexecyields calls := by
  cases et <;> simp [Control.leftOpen]

theorem leftOpen_cons {calls : List Annotation}
    (hexec : ∀ numinputs, call = .event .yield numinputs → noexecyields = false) :
    k.leftOpen noexecyields (call :: calls) =
      k.leavesOpen call ++ (k.move call).leftOpen noexecyields calls := by
  cases call with
  | event et numinputs =>
    have hgoes : ¬ (et = .yield ∧ noexecyields = true) := by
      rintro ⟨rfl, hyield⟩
      exact absurd hyield (by simp [hexec numinputs rfl])
    rw [leftOpen_event, if_neg hgoes]
    rfl
  | _ => rfl

theorem move_ne_start (hlegal : k.Legal call) : (k.move call).site ≠ Site.start := by
  have hne : ∀ s : Site, s.next ≠ Site.start := by
    intro s h
    have := congrArg Site.n h
    simp [Site.next, Site.start] at this
  cases call with
  | branchDir direction =>
    intro h
    have := congrArg Site.path h
    simp [Control.move, Site.arm, Site.start] at this
  | merge mcid =>
    obtain ⟨b, hb, -⟩ := hlegal
    simp only [Control.move, hb]
    exact hne b.next
  | exitLoop =>
    obtain ⟨l, loops, hloops⟩ := List.exists_cons_of_ne_nil hlegal
    simp only [Control.move, hloops, List.head?_cons]
    exact hne l.next
  | loopIterate =>
    obtain ⟨n, i, path, hpath⟩ := hlegal
    intro h
    simp [Control.move, Site.iterate, hpath, Site.start] at h
  | _ => exact hne _

theorem taken_subset (k : Control) (call : Annotation) (calls : List Annotation) :
    (k.move call).taken calls ⊆ k.taken (call :: calls) := by
  cases call <;> simp [Control.taken]

/-- The branches that a merge leaves have no links exactly if the walk comes to the merge. -/
theorem findSome_branches_iff {branches : List Site} {b : Site}
    (hnext : ∀ c ∈ branches, ∀ x, g.getNextRecord (c.ep tid) = some x → x = c.next.ep tid)
    (hb : g.getNextRecord (b.ep tid) = some (b.next.ep tid)) (hmem : b ∈ branches) :
    (branches.findSome? fun c => g.getNextRecord (c.ep tid)) = some (b.next.ep tid) ↔
      ∀ c ∈ branches.takeWhile (· ≠ b), g.getNextRecord (c.ep tid) = none := by
  induction branches with
  | nil => simp at hmem
  | cons c branches ih =>
    by_cases hc : c = b
    · subst hc
      simp [hb]
    · have hmem := (List.mem_cons.mp hmem).resolve_left (Ne.symm hc)
      have ih := ih (fun c hc => hnext c (List.mem_cons_of_mem _ hc)) hmem
      rw [List.findSome?_cons, List.takeWhile_cons_of_pos (by simpa using hc)]
      cases hlink : g.getNextRecord (c.ep tid) with
      | none => simpa [hlink] using ih
      | some x =>
        obtain rfl := hnext c List.mem_cons_self x hlink
        have hne : c.next ≠ b.next := by
          intro heq
          cases c
          cases b
          simp_all [Site.next]
        simp [hlink, hne]

theorem next_of_branch (h : Recorded executions tid code)
    (hg : g.Logged (Recorder.runsLog executions)) {b : Site} {x : ExecPoint}
    (hb : code.type b = some .branchdir) (hx : g.getNextRecord (b.ep tid) = some x) :
    .next (b.ep tid) x ∈ threadLog executions tid ∧ x = b.next.ep tid := by
  have hlog : .next (b.ep tid) x ∈ threadLog executions tid :=
    Recorded.mem_threadLog_of_ne (hg.mem (.next (b.ep tid) x) hx) rfl (by simp)
  obtain ⟨s, rfl, hnext⟩ := (h.leaves hlog).next_site
  rw [hnext.unique (.merge hb)] at hlog ⊢
  exact ⟨hlog, rfl⟩

theorem step_enterLoop (h : Recorded executions tid code)
    (hg : g.Logged (Recorder.runsLog executions)) {s : Site}
    (hs : .record (s.ep tid) .loopenter ∈ threadLog executions tid)
    (hchild : .child (s.ep tid) (s.body.ep tid) ∈ threadLog executions tid) :
    step g noexecyields index (s.ep tid) = some (s.body.ep tid) := by
  obtain ⟨hget, htype⟩ := h.getType hg hs
  have hprocess : processRecord g noexecyields index (s.ep tid) = some (s.body.ep tid) := by
    unfold processRecord
    rw [hget]
    exact h.getChildRecord hg htype hchild
  unfold step
  rw [hprocess, if_neg]
  intro heq
  obtain ⟨-, heq⟩ := Site.ep_inj.mp (Option.some_inj.mp heq)
  have := congrArg (fun s : Site => s.path.length) heq
  simp [Site.body] at this

theorem step_exitLoop (h : Recorded executions tid code)
    (hg : g.Logged (Recorder.runsLog executions)) (hplaced : g.Placed tid)
    (hpassed : Passed executions g noexecyields index tid k) {x : ExecPoint}
    (hs : .record (k.site.ep tid) k.site.exitType ∈ threadLog executions tid)
    (hnext : .next (k.site.ep tid) x ∈ threadLog executions tid) :
    step g noexecyields index (k.site.ep tid) = some x := by
  have hget := (h.getType hg hs).1
  have hyield : k.site.exitType ≠ .yield := by
    rcases Code.exitType_cases k.site with hexit | hexit <;> rw [hexit] <;> decide
  rw [step_passes hget (Code.exitType_ne k.site) fun heq => absurd heq hyield,
    getNextRecord_eq hplaced, h.getNextRecord hg hnext, Option.some_or]
  · simp [hget]
  · intro b hb
    simp [(h.getType hg (hpassed.branches b hb)).1]

theorem ne_loop_of_prev (hreach : code.Reaches k) (hnone : k.prev = none) (n i : Nat)
    (path : Path) :
    k.site.path ≠ .loop n i :: path := by
  intro hpath
  rcases hreach.begin hnone with hbegin | ⟨b, direction, hb⟩
  · simp [hbegin, Site.start] at hpath
  · simp [hb, Site.arm] at hpath

theorem walkTo_notes (hreach : code.Reaches k) (hlegal : k.Legal call) :
    walkTo g noexecyields index (goesOn g noexecyields index tid k)
        ((k.notes call).map fun note => note.1.ep tid) =
      goesOn g noexecyields index tid (k.move call) := by
  cases call with
  | merge mcid =>
    obtain ⟨b, hb, -⟩ := hlegal
    simp [Control.notes, Control.move, hb, Control.behind, walkTo, goesOn]
  | exitLoop =>
    obtain ⟨l, loops, hloops⟩ := List.exists_cons_of_ne_nil hlegal
    simp [Control.notes, Control.move, hloops, Control.behind, walkTo, goesOn]
  | loopIterate =>
    cases hprev : k.prev with
    | some p => simp [Control.notes, Control.move, walkTo, goesOn, hprev]
    | none =>
      obtain ⟨n, i, path, hpath⟩ := hlegal
      exact absurd hpath (ne_loop_of_prev hreach hprev n i path)
  | _ => rfl

/-- The walk has the records of a call, unless it meets a branch that the call leaves open and
that has a link. -/
theorem walks_notes_iff (h : Recorded executions tid code)
    (hg : g.Logged (Recorder.runsLog executions)) (hplaced : g.Placed tid)
    (hreach : code.Reaches k) (hpassed : Passed executions g noexecyields index tid k)
    {i : Instruction} (hi : code k.site = some i) (hallows : i.Allows k call)
    (hlegal : k.Legal call) (hentries : ∀ e ∈ k.entries tid call, e ∈ threadLog executions tid) :
    Walks g noexecyields index (goesOn g noexecyields index tid k)
        ((k.notes call).map fun note => note.1.ep tid) ↔
      ∀ b ∈ k.leavesOpen call, g.getNextRecord (b.ep tid) = none := by
  have harrive : (∀ e ∈ k.arrive tid, e ∈ k.entries tid call) →
      goesOn g noexecyields index tid k = some (k.site.ep tid) := fun hsub =>
    goesOn_arrive h hg hplaced hreach hpassed fun e he => hentries e (hsub e he)
  cases call with
  | merge mcid =>
    obtain ⟨b, hb, hmem⟩ := id hlegal
    have hbranches := Path.mergeable_subset hmem
    have hlink : .next (b.ep tid) (b.next.ep tid) ∈ threadLog executions tid :=
      hentries _ (by simp [Control.entries, Control.links, hb])
    have hcode : code k.site = some (.merge b) := by
      cases i <;> simp only [Instruction.Allows] at hallows
      obtain rfl := Option.some_inj.mp (hb.symm.trans hallows)
      exact hi
    have hne : k.site ≠ Site.start := by
      intro heq
      simp [heq, Site.start, Path.branches] at hbranches
    have hleave := goesOn_leave h hg hplaced hreach hpassed hne (by simp [hcode])
      (by simp [hcode, Instruction.type])
    have hnext : ∀ c ∈ k.site.path.branches, ∀ x, g.getNextRecord (c.ep tid) = some x →
        x = c.next.ep tid :=
      fun c hc x hx => (next_of_branch h hg (hreach.branches c hc) hx).2
    have hiff := findSome_branches_iff hnext (h.getNextRecord hg hlink) hbranches
    simpa [Control.notes, Control.leavesOpen, hb, Walks, hleave] using hiff
  | enterLoop =>
    have hchild : step g noexecyields index (k.site.ep tid) = some (k.site.body.ep tid) :=
      step_enterLoop h hg (hentries _ (by simp [Control.entries, Control.notes]))
        (hentries _ (by simp [Control.entries, Control.links]))
    have hgo := harrive fun e he => by simp [Control.entries, Control.links, he]
    simp [Control.notes, Control.leavesOpen, Walks, hgo, hchild]
  | exitLoop =>
    obtain ⟨l, loops, hloops⟩ := List.exists_cons_of_ne_nil hlegal
    have hlabel : step g noexecyields index (k.site.ep tid) = some (l.next.ep tid) :=
      step_exitLoop h hg hplaced hpassed
        (hentries _ (by simp [Control.entries, Control.notes, hloops]))
        (hentries _ (by simp [Control.entries, Control.links, hloops]))
    have hgo := harrive fun e he => by simp [Control.entries, Control.links, hloops, he]
    simp [Control.notes, Control.leavesOpen, hloops, Walks, hgo, hlabel]
  | loopIterate => simp [Control.notes, Control.leavesOpen, Walks]
  | _ =>
    have hgo := harrive fun e he => by simp [Control.entries, Control.links, he]
    simp [Control.notes, Control.leavesOpen, Walks, hgo]

/-- What is behind a call is in the graph, and the solution takes the direction it is in. -/
theorem Passed.step (h : Passed executions g noexecyields index tid k) (hreach : code.Reaches k)
    (hlegal : k.Legal call) {calls : List Annotation}
    (hlog : ∀ e ∈ k.log tid (call :: calls), e ∈ threadLog executions tid)
    (htaken : ∀ taken ∈ k.taken (call :: calls), Gives g index tid taken.1 taken.2)
    (hexec : ∀ numinputs, call = .event .yield numinputs → noexecyields = false) :
    Passed executions g noexecyields index tid (k.move call) := by
  apply h.move hlegal (ne_loop_of_prev hreach) (fun e he => hlog e (List.mem_append_left _ he)) _
    hexec
  rintro direction rfl
  exact htaken (k.site, direction) (by simp [Control.taken])

/-- The walk follows the calls of a run until it meets a branch that they leave open and that
has a link. -/
theorem walk_iff (h : Recorded executions tid code)
    (hg : g.Logged (Recorder.runsLog executions)) (hplaced : g.Placed tid)
    (hyield : noexecyields = true →
      ∀ s numinputs, code s = some (.event .yield numinputs) → code s.next = none)
    {calls : List Annotation} (hreach : code.Reaches k)
    (hpassed : Passed executions g noexecyields index tid k) (hruns : code.Runs k calls)
    (hlog : ∀ e ∈ k.log tid calls, e ∈ threadLog executions tid)
    (htaken : ∀ taken ∈ k.taken calls, Gives g index tid taken.1 taken.2)
    (hstart : calls = [] → k.site ≠ Site.start) :
    (∀ n, walk g noexecyields index n (goesOn g noexecyields index tid k) =
        ((k.trace calls).map fun note => note.1.ep tid).take n) ↔
      ∀ b ∈ k.leftOpen noexecyields calls, g.getNextRecord (b.ep tid) = none := by
  induction calls generalizing k with
  | nil =>
    have hend : code k.site = none := hruns
    rw [Control.trace, List.map_nil, walk_eq_nil_iff, goesOn_leave h hg hplaced hreach hpassed
      (hstart rfl) (by simp [hend]) (by simp [hend]), List.findSome?_eq_none_iff, Control.leftOpen]
  | cons call calls ih =>
    obtain ⟨⟨i, hi, hallows⟩, hlegal, hrest⟩ := hruns
    have hentries : ∀ e ∈ k.entries tid call, e ∈ threadLog executions tid :=
      fun e he => hlog e (List.mem_append_left _ he)
    have hwalks := walks_notes_iff h hg hplaced hreach hpassed hi hallows hlegal hentries
    by_cases hexec : ∀ numinputs, call = .event .yield numinputs → noexecyields = false
    · have hmove := ih (hreach.move hi hallows hlegal)
        (hpassed.step hreach hlegal hlog htaken hexec) hrest
        (fun e he => hlog e (List.mem_append_right _ he))
        (fun taken htk => htaken taken (taken_subset k call calls htk))
        fun _ => move_ne_start hlegal
      rw [Control.trace, List.map_append, walk_append_iff, walkTo_notes hreach hlegal, hmove,
        hwalks, leftOpen_cons hexec, List.forall_mem_append]
    · -- the walk ends with the yield, and so does the thread
      push Not at hexec
      obtain ⟨numinputs, rfl, hnoexec⟩ := hexec
      obtain rfl : noexecyields = true := by simpa using hnoexec
      have hcalls : calls = [] := by
        cases i <;> simp only [Instruction.Allows] at hallows
        obtain ⟨rfl, rfl⟩ := hallows
        have hend := hyield rfl k.site _ hi
        cases calls with
        | nil => rfl
        | cons call calls =>
          obtain ⟨⟨i, hi, -⟩, -⟩ := hrest
          simp [Control.move, Control.behind, hend] at hi
      have hget : g.getType (k.site.ep tid) = some .yield :=
        (h.getType hg (hentries _ (by simp [Control.entries, Control.notes]))).1
      have hnone : ScheduleBuilder.step g true index (k.site.ep tid) = none := by
        simp [ScheduleBuilder.step, processRecord, hget]
      have hgo := hwalks.mpr (by simp [Control.leavesOpen])
      subst hcalls
      simpa [Control.trace, Control.notes, walk_eq_cons_iff, hnone, walk_none, Walks,
        Control.leftOpen] using hgo

end ScheduleBuilder

/-! ## Merged branches -/

namespace Control

variable {tid : Nat} {code : Code} {k : Control} {calls : List Annotation}

theorem log_of_merged {b : Site} (h : b ∈ k.merged calls) :
    .next (b.ep tid) (b.next.ep tid) ∈ k.log tid calls := by
  induction calls generalizing k with
  | nil => simp [merged] at h
  | cons call calls ih =>
    rw [log, List.mem_append]
    cases call with
    | merge mcid =>
      rw [merged, List.mem_append] at h
      refine h.imp (fun hb => ?_) ih
      simp only [entries, links, List.mem_append, List.mem_map]
      exact Or.inr ⟨b, hb, rfl⟩
    | _ => exact Or.inr (ih h)

theorem merged_of_log (h : code.Reaches k) (hruns : code.Runs k calls) {b : Site} {x : ExecPoint}
    (hb : code.type b = some .branchdir) (hx : .next (b.ep tid) x ∈ k.log tid calls) :
    b ∈ k.merged calls := by
  induction calls generalizing k with
  | nil => simp [log] at hx
  | cons call calls ih =>
    obtain ⟨⟨i, hi, hallows⟩, hlegal, hrest⟩ := hruns
    have ih := ih (h.move hi hallows hlegal) hrest
    have harrive : .next (b.ep tid) x ∉ k.arrive tid := by
      unfold arrive
      cases hprev : k.prev with
      | none => simp
      | some p =>
        obtain ⟨et, htype, hpasses, -⟩ := h.prev p hprev
        simp only [List.mem_singleton, GraphEntry.next.injEq, Site.ep_inj, true_and, not_and]
        rintro rfl
        obtain rfl := Option.some_inj.mp (hb.symm.trans htype)
        exact absurd hpasses (by simp [Code.Passes])
    rw [log, List.mem_append] at hx
    cases call with
    | merge mcid =>
      rw [merged, List.mem_append]
      refine hx.imp (fun hx => ?_) ih
      simp only [entries, notes, links, List.mem_append, List.mem_map, reduceCtorEq, and_false,
        exists_false, false_or, GraphEntry.next.injEq, Site.ep_inj, true_and] at hx
      obtain ⟨c, hc, rfl, -⟩ := hx
      exact hc
    | exitLoop =>
      obtain ⟨l, loops, hloops, hmem⟩ := hlegal.exists_loop
      have hl : code.type l = some .loopenter := h.loops l hmem
      have hsite : code.type k.site = some k.site.exitType := by
        cases i <;> simp only [Instruction.Allows] at hallows
        simp [Code.type_of_free h.free, hi, Instruction.type]
      apply hx.elim _ ih
      have hneither : b ≠ l ∧ b ≠ k.site := by
        constructor <;> rintro rfl
        · rw [hb] at hl
          simp at hl
        · rw [hb] at hsite
          exact absurd (Option.some_inj.mp hsite).symm (Code.exitType_ne _).1
      simp [entries, notes, links, harrive, hloops, hneither]
    | _ =>
      apply hx.elim _ ih
      simp [entries, notes, links, harrive]

theorem type_of_leftOpen (h : code.Reaches k) (hruns : code.Runs k calls) {noexecyields : Bool}
    {b : Site} (hb : b ∈ k.leftOpen noexecyields calls) : code.type b = some .branchdir := by
  induction calls generalizing k with
  | nil => exact h.branches b hb
  | cons call calls ih =>
    obtain ⟨⟨i, hi, hallows⟩, hlegal, hrest⟩ := hruns
    have ih := ih (h.move hi hallows hlegal) hrest
    cases call with
    | event et numinputs =>
      rw [ScheduleBuilder.leftOpen_event] at hb
      split_ifs at hb
      · simp at hb
      · exact ih hb
    | merge mcid =>
      rw [leftOpen, List.mem_append, List.mem_flatMap] at hb
      rcases hb with ⟨c, -, hb⟩ | hb
      · exact h.branches b (List.takeWhile_subset _ hb)
      · exact ih hb
    | _ =>
      simp only [leftOpen] at hb
      exact ih hb

end Control

namespace Recorded

variable {executions : List (List (Nat × Annotation))} {tid : Nat} {code : Code} {g : EventGraph}

theorem next_eq_none_iff (h : Recorded executions tid code)
    (hg : g.Logged (Recorder.runsLog executions)) {b : Site}
    (hb : code.type b = some .branchdir) :
    g.getNextRecord (b.ep tid) = none ↔
      ∀ calls ∈ executions, b ∉ Control.start.merged (threadCalls tid calls) := by
  constructor
  · intro hnone calls hcalls hmem
    have hlink := h.getNextRecord hg (x := b.next.ep tid)
      ⟨calls, hcalls, Control.log_of_merged hmem⟩
    simp [hnone] at hlink
  · intro hmerged
    apply getNextRecord_none hg
    rintro x ⟨calls, hcalls, hx⟩
    by_cases hnil : threadCalls tid calls = []
    · simp [hnil, Control.log] at hx
    · exact hmerged calls hcalls
        (Control.merged_of_log Code.reaches_start (h.runs calls hcalls hnil) hb hx)

end Recorded

/-! ## The recorded graph of all runs -/

def Recorder.requestsOf (s : Recorder) (tid : Nat) : List ExecPoint :=
  (s.requests.map Request.ep).filter fun ep => ep.tid = tid

namespace ScheduleBuilder

theorem placed_graph {s : Recorder} (hlinked : s.Linked) (len : ExecPoint → Nat)
    (first : ExecPoint) (tid : Nat) : (s.graph len first).Placed tid := by
  intro b hb
  apply hlinked.getBranch
  intro hnone
  exact hb (by simp [EventGraph.getType, Recorder.graph, hnone])

theorem requestsOf_run {before : List (List (Nat × Annotation))} {calls : List (Nat × Annotation)}
    (hbefore : ∀ calls ∈ before, Threads.start.WellNested calls)
    (hcalls : Threads.start.WellNested calls) (tid : Nat) :
    ((Recorder.empty.runs before).run calls).requestsOf tid =
      (Control.start.trace (threadCalls tid calls)).map fun note => note.1.ep tid := by
  obtain ⟨hlinked, hlogged⟩ := Recorder.logged_runs hbefore
  have hrequests := congrArg (List.map Prod.fst) (Recorder.requests_run hlinked hlogged hcalls tid)
  rw [List.map_map] at hrequests
  simp only [Function.comp_def] at hrequests
  rw [← hrequests, Recorder.requestsOf, List.filter_map, List.filter_map, List.map_map]
  rfl

/-- A run is walked as it was recorded exactly if no run merges a branch that it leaves open. -/
theorem walk_run_iff {before after : List (List (Nat × Annotation))}
    {calls : List (Nat × Annotation)} {tid : Nat} {code : Code}
    (h : Recorded (before ++ calls :: after) tid code) (hcalls : threadCalls tid calls ≠ [])
    (noexecyields : Bool) (hyield : noexecyields = true →
      ∀ s numinputs, code s = some (.event .yield numinputs) → code s.next = none)
    (len : ExecPoint → Nat) (first : ExecPoint) (index : ExecPoint → Option Nat)
    (hgives : ∀ taken ∈ Control.start.taken (threadCalls tid calls),
      Gives ((Recorder.empty.runs (before ++ calls :: after)).graph len first) index tid
        taken.1 taken.2) :
    ((((Recorder.empty.runs before).run calls).requestsOf tid).Nodup ∧
      ∀ n, walk ((Recorder.empty.runs (before ++ calls :: after)).graph len first) noexecyields
        index n (some (ExecPoint.start tid)) =
          (((Recorder.empty.runs before).run calls).requestsOf tid).take n) ↔
      ∀ b ∈ Control.start.leftOpen noexecyields (threadCalls tid calls),
        ∀ calls' ∈ before ++ calls :: after,
          b ∉ Control.start.merged (threadCalls tid calls') := by
  have hmem : calls ∈ before ++ calls :: after := by simp
  have hruns := h.runs calls hmem hcalls
  obtain ⟨hlinked, hlogged⟩ := Recorder.logged_runs h.nested
  have hg := hlogged len first
  have hplaced := placed_graph hlinked len first tid
  have hpassed : Passed (before ++ calls :: after)
      ((Recorder.empty.runs (before ++ calls :: after)).graph len first) noexecyields index tid
      Control.start := by
    constructor
    · simp [Control.start, Site.start, Path.branches]
    · simp [Control.start]
    · exact fun _ => Or.inl rfl
  rw [requestsOf_run (fun calls hbefore => h.nested calls (by simp [hbefore]))
    (h.nested calls hmem)]
  have hiff := walk_iff h hg hplaced hyield Code.reaches_start hpassed hruns
    (fun e he => ⟨calls, hmem, he⟩) hgives (fun hnil => absurd hnil hcalls)
  have hstart : goesOn ((Recorder.empty.runs (before ++ calls :: after)).graph len first)
      noexecyields index tid Control.start = some (ExecPoint.start tid) := rfl
  rw [hstart] at hiff
  rw [and_iff_right (Control.trace_nodup hruns tid), hiff]
  apply forall₂_congr
  intro b hb
  exact h.next_eq_none_iff hg (Control.type_of_leftOpen Code.reaches_start hruns hb)

/-- A branch that is merged in one direction and returned from in the other. -/
def returnCode : Code := fun s =>
  if s = ⟨[], 0⟩ then some .threadStart
  else if s = ⟨[], 1⟩ then some .branch
  else if s = ⟨[.arm 1 0], 0⟩ then some (.merge ⟨[], 1⟩)
  else if s = ⟨[], 3⟩ then some (.event .store 2)
  else none

def mergeRun : List (Nat × Annotation) :=
  [(0, .threadStart none), (0, .branchDir 0), (0, .merge 0), (0, .event .store 2)]

def returnRun : List (Nat × Annotation) := [(0, .threadStart none), (0, .branchDir 1)]

theorem recorded_returnCode : Recorded [mergeRun, returnRun] 0 returnCode := by
  have hboth : ∀ calls ∈ [mergeRun, returnRun], Threads.start.WellNested calls ∧
      returnCode.Runs Control.start (threadCalls 0 calls) := by
    intro calls hcalls
    rcases List.mem_cons.mp hcalls with rfl | hcalls
    · simp [mergeRun, Threads.WellNested, Threads.Legal, Threads.move, Threads.start,
        Control.Legal, Control.move, Control.start, Control.behind, Control.IsPlain, Site.start,
        Site.next, Site.arm, Path.mergeable, threadCalls, Code.Runs, returnCode,
        Instruction.Allows]
    · obtain rfl := List.mem_singleton.mp hcalls
      simp [returnRun, Threads.WellNested, Threads.Legal, Threads.move, Threads.start,
        Control.Legal, Control.move, Control.start, Control.behind, Site.start,
        Site.next, Site.arm, threadCalls, Code.Runs, returnCode, Instruction.Allows]
  exact ⟨fun calls hcalls => (hboth calls hcalls).1, fun calls hcalls _ => (hboth calls hcalls).2⟩

/-- The walk of the run that returns goes on to the merge and the store of the other run. -/
theorem walk_returnRun : Recorded [mergeRun, returnRun] 0 returnCode ∧
    (∀ taken ∈ Control.start.taken (threadCalls 0 returnRun),
      Gives ((Recorder.empty.runs [mergeRun, returnRun]).graph (fun _ => 2) (ExecPoint.start 0))
        (fun _ => some 1) 0 taken.1 taken.2) ∧
    ((Recorder.empty.runs [mergeRun]).run returnRun).requestsOf 0 =
      [Site.ep 0 ⟨[], 0⟩, Site.ep 0 ⟨[], 1⟩] ∧
    walk ((Recorder.empty.runs [mergeRun, returnRun]).graph (fun _ => 2) (ExecPoint.start 0)) false
      (fun _ => some 1) 4 (some (ExecPoint.start 0)) =
        [Site.ep 0 ⟨[], 0⟩, Site.ep 0 ⟨[], 1⟩, Site.ep 0 ⟨[], 2⟩, Site.ep 0 ⟨[], 3⟩] ∧
    ¬ ∀ n, walk ((Recorder.empty.runs [mergeRun, returnRun]).graph (fun _ => 2)
      (ExecPoint.start 0)) false (fun _ => some 1) n (some (ExecPoint.start 0)) =
        (((Recorder.empty.runs [mergeRun]).run returnRun).requestsOf 0).take n := by
  refine ⟨recorded_returnCode, ?_, by decide, by decide, ?_⟩
  · unfold Gives
    decide
  · intro h
    exact absurd (h 3) (by decide)

/-- The run that merges is walked as it was recorded, also where the other one has returned. -/
theorem walk_mergeRun : (((Recorder.empty.runs []).run mergeRun).requestsOf 0).Nodup ∧
    ∀ n, walk ((Recorder.empty.runs [mergeRun, returnRun]).graph (fun _ => 2) (ExecPoint.start 0))
      false (fun _ => some 0) n (some (ExecPoint.start 0)) =
        (((Recorder.empty.runs []).run mergeRun).requestsOf 0).take n := by
  have h : Recorded ([] ++ mergeRun :: [returnRun]) 0 returnCode := recorded_returnCode
  apply (walk_run_iff h (by decide) false (by simp) (fun _ => 2) (ExecPoint.start 0)
    (fun _ => some 0) (by unfold Gives; decide)).mpr
  decide

end ScheduleBuilder

end SatCheck
