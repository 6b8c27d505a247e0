import SatCheck.ThreadRuns
import SatCheck.SiteAhead
/-!
# The branch of the running thread

`MCExecution` has one `currbranch`, for the running thread, and keeps those of the others in
`CurrBranchList`.  A direction is stored in an `EPValue` unchanged.
-/

namespace SatCheck

/-- The members of `MCExecution`: `currbranch` of the running thread, and the rest as the recorder
has it, whose own `currbranch` is not read. -/
structure MCExecution where
  state : Recorder
  currThread : Option Nat
  currbranch : Option EPValue
  currBranchList : Nat → Option EPValue

/-- What happens in a run: the scheduler swaps threads, and the running thread makes calls. -/
inductive RunStep where
  | swapThreads (next : Option Nat)
  | call (call : Annotation)
  deriving DecidableEq, Repr

namespace MCExecution

/-- The branches of all threads, with that of the running thread put back. -/
def branches (e : MCExecution) : Nat → Option EPValue :=
  match e.currThread with
  | none => e.currBranchList
  | some old => Function.update e.currBranchList old e.currbranch

/-- `none` is the system context. -/
def setCurrentThread (e : MCExecution) (next : Option Nat) : MCExecution :=
  { e with
    currBranchList := e.branches
    currThread := next
    currbranch := next.bind e.branches }

def call (e : MCExecution) (call : Annotation) : MCExecution :=
  match e.currThread with
  | none => e
  | some tid =>
    let state := ({ e.state with currbranch := fun _ => e.currbranch } : Recorder).exec tid call
    { e with
      state := state
      currbranch := state.currbranch tid }

def step (e : MCExecution) : RunStep → MCExecution
  | .swapThreads next => e.setCurrentThread next
  | .call call => e.call call

def reset (e : MCExecution) : MCExecution :=
  { e with
    state := e.state.reset
    currbranch := none
    currBranchList := fun _ => none }

def run (e : MCExecution) (steps : List RunStep) : MCExecution := steps.foldl step e.reset

def runs (e : MCExecution) (executions : List (List RunStep)) : MCExecution :=
  executions.foldl (fun e steps => (e.run steps).setCurrentThread none) e

def empty : MCExecution := ⟨Recorder.empty, none, none, fun _ => none⟩

def calls : Option Nat → List RunStep → List (Nat × Annotation)
  | _, [] => []
  | _, .swapThreads next :: steps => calls next steps
  | none, .call _ :: steps => calls none steps
  | some tid, .call call :: steps => (tid, call) :: calls (some tid) steps

def recorder (e : MCExecution) : Recorder := { e.state with currbranch := e.branches }

end MCExecution

/-! ## Branches of other threads -/

namespace Recorder

/-- The recorder with other branches for all threads but `tid`. -/
def besides (s : Recorder) (tid : Nat) (branches : Nat → Option EPValue) : Recorder :=
  { s with currbranch := Function.update branches tid (s.currbranch tid) }

variable (s : Recorder) (tid : Nat) (branches : Nat → Option EPValue)

@[simp] theorem besides_currbranch :
    (s.besides tid branches).currbranch tid = s.currbranch tid := by
  simp [besides]

@[simp] theorem besides_records : (s.besides tid branches).records = s.records := rfl

@[simp] theorem besides_execpoint : (s.besides tid branches).execpoint = s.execpoint := rfl

@[simp] theorem besides_epvalues : (s.besides tid branches).epvalues = s.epvalues := rfl

theorem besides_update {s s' : Recorder} {tid : Nat} {branches : Nat → Option EPValue}
    {branch branch' : Option EPValue} (h : s' = s.besides tid branches)
    (hbranch : branch' = branch) :
    { s' with currbranch := Function.update s'.currbranch tid branch' } =
      ({ s with currbranch := Function.update s.currbranch tid branch } : Recorder).besides tid
        branches := by
  subst h hbranch
  simp [besides]

private theorem createRecord_besides (et : EventType) (numinputs : Nat) :
    (s.besides tid branches).createRecord tid et numinputs =
      (s.createRecord tid et numinputs).besides tid branches := by
  unfold createRecord
  rw [besides_records, besides_execpoint, besides_currbranch]
  cases s.records (s.execpoint tid) <;> rfl

private theorem linkNoted_besides (et : EventType) :
    (s.besides tid branches).linkNoted tid et = (s.linkNoted tid et).besides tid branches := by
  unfold linkNoted
  rw [besides_currbranch, besides_execpoint]
  have hlast : (s.besides tid branches).lastOf = s.lastOf := rfl
  rw [hlast]
  split_ifs
  · cases s.lastOf tid (s.currbranch tid) <;> rfl
  · rfl

theorem getOrCreateCurrRecord_besides (et : EventType) (numinputs : Nat) :
    (s.besides tid branches).getOrCreateCurrRecord tid et numinputs =
      (s.getOrCreateCurrRecord tid et numinputs).besides tid branches := by
  rw [getOrCreateCurrRecord_eq, getOrCreateCurrRecord_eq, createRecord_besides, linkNoted_besides,
    besides_currbranch]
  rfl

private theorem popLoop_besides (n : Nat) :
    popLoop tid n (s.besides tid branches) = (popLoop tid n s).besides tid branches := by
  induction n generalizing s with
  | zero => rfl
  | succ n ih =>
    have hpop : (s.besides tid branches).setExecPoint tid (s.execpoint tid).pop =
        (s.setExecPoint tid (s.execpoint tid).pop).besides tid branches := rfl
    have hbind : ((s.besides tid branches).currbranch tid).bind
          (fun branch => (s.besides tid branches).getBranch branch.record) =
        (s.currbranch tid).bind fun branch => s.getBranch branch.record := by
      rw [besides_currbranch]
      rfl
    have hbranch := besides_update hpop hbind
    unfold popLoop
    rw [besides_execpoint]
    simp only
    by_cases htype : (s.execpoint tid).getType = some .loop
    · rw [if_pos htype, if_pos htype]
      simp [htype, hpop]
    · rw [if_neg htype, if_neg htype]
      split_ifs
      · exact (congrArg (popLoop tid n) hbranch).trans (ih _)
      · exact (congrArg (popLoop tid n) hpop).trans (ih _)

theorem breakLoop_besides :
    (s.besides tid branches).breakLoop tid = (s.breakLoop tid).besides tid branches := by
  unfold breakLoop
  simp only [besides_execpoint, getOrCreateCurrRecord_besides]
  exact popLoop_besides ((s.getOrCreateCurrRecord tid
    (if (s.execpoint tid).directInLoop then .loopexit else .nonlocaltrans) 0).incrementTop tid)
    tid branches _

theorem labelLoop_besides (breakstate : ExecPoint) :
    (s.besides tid branches).labelLoop tid breakstate =
      (s.labelLoop tid breakstate).besides tid branches := by
  have hlabel := getOrCreateCurrRecord_besides (s.incrementTop tid) tid branches .label 0
  have hnext : (s.besides tid branches).incrementTop tid =
    (s.incrementTop tid).besides tid branches := rfl
  unfold labelLoop
  simp only [hnext, besides_execpoint, hlabel, besides_records]
  split_ifs <;> rfl

/-- The calls of a thread do not depend on the branches of the others. -/
theorem exec_besides (call : Annotation) :
    (s.besides tid branches).exec tid call = (s.exec tid call).besides tid branches := by
  cases call with
  | event et numinputs =>
    simp only [exec, getOrCreateCurrRecord_besides]
    rfl
  | branchDir direction =>
    have hnoted := getOrCreateCurrRecord_besides s tid branches .branchdir 1
    have hvalue : ((s.besides tid branches).getOrCreateCurrRecord tid .branchdir 1).addEPValue
          (s.execpoint tid) direction =
        ((s.getOrCreateCurrRecord tid .branchdir 1).addEPValue (s.execpoint tid) direction).besides
          tid branches := by
      rw [hnoted]
      rfl
    unfold exec branchDir
    simp only [besides_execpoint, hvalue]
    simp [besides, setExecPoint]
  | merge mcid =>
    simp only [exec, merge, besides_epvalues]
    cases (s.epvalues tid)[mcid]? with
    | none => rfl
    | some value =>
      let merged := ({ s with
        currbranch := Function.update s.currbranch tid (s.getBranch value.record) } : Recorder)
      let next := (merged.setExecPoint tid
        ((s.execpoint tid).rollback value.record.getSize)).incrementTop tid
      have hmerged : { s.besides tid branches with
          currbranch := Function.update (s.besides tid branches).currbranch tid
            ((s.besides tid branches).getBranch value.record) } = merged.besides tid branches :=
        besides_update rfl rfl
      have hnoted := getOrCreateCurrRecord_besides next tid branches .merge 0
      exact (congrArg (fun s : Recorder => (((s.setExecPoint tid
          ((s.execpoint tid).rollback value.record.getSize)).incrementTop tid).getOrCreateCurrRecord
            tid .merge 0).incrementTop tid) hmerged).trans
        (congrArg (incrementTop · tid) hnoted)
  | enterLoop =>
    have hstart := getOrCreateCurrRecord_besides
      ((s.getOrCreateCurrRecord tid .loopenter 0).setExecPoint tid
        (((s.execpoint tid).push .loop 0).push .counter 0)) tid branches .loopstart 0
    simp only [exec, enterLoop, getOrCreateCurrRecord_besides]
    exact congrArg (fun s : Recorder => (s.setChildRecord _ _).incrementTop tid) hstart
  | exitLoop =>
    unfold exec exitLoop
    simp only [breakLoop_besides, labelLoop_besides, besides_execpoint]
  | loopIterate => rfl
  | threadCreate =>
    simp only [exec, threadCreate, getOrCreateCurrRecord_besides]
    rfl
  | threadStart parent =>
    simp only [exec, threadStart, getOrCreateCurrRecord_besides]
    cases parent <;> rfl

/-- `getRecord()->getBranch()` leads from a branch to these, until there is none. -/
inductive BranchesFrom (s : Recorder) : Option EPValue → List EPValue → Prop
  | null : BranchesFrom s none []
  | getBranch {branch : EPValue} {r : EPRecord} {values : List EPValue}
      (record : s.records branch.record = some r) (rest : BranchesFrom s r.branch values) :
      BranchesFrom s (some branch) (branch :: values)

end Recorder

namespace ExecPoint

/-- The EP_BRANCH entries above some others, the innermost one first, each as the prefix below it
and its value. -/
def branchEntries (tid : Nat) (below : List (ExecPointType × Nat)) :
    List (ExecPointType × Nat) → List EPValue
  | [] => []
  | p :: pairs =>
      branchEntries tid (below ++ [p]) pairs ++ if p.1 = .branch then [⟨⟨tid, below⟩, p.2⟩] else []

def branchValues (ep : ExecPoint) : List EPValue := branchEntries ep.tid [] ep.pairs

theorem branchEntries_append (tid : Nat) (below pairs qs : List (ExecPointType × Nat)) :
    branchEntries tid below (pairs ++ qs) =
      branchEntries tid (below ++ pairs) qs ++ branchEntries tid below pairs := by
  induction pairs generalizing below with
  | nil => simp [branchEntries]
  | cons p pairs ih => simp [branchEntries, ih]

private theorem branchEntries_path (tid : Nat) (path : Path) :
    branchEntries tid [] path.entries = path.arms.map fun a => ⟨a.1.ep tid, a.2⟩ := by
  induction path with
  | nil => rfl
  | cons f path ih =>
    rw [Path.entries_cons, branchEntries_append, ih]
    cases f <;> simp [branchEntries, Frame.entries, Path.arms, Site.ep]

private theorem branchValues_ep (tid : Nat) (s : Site) :
    (s.ep tid).branchValues = s.path.arms.map fun a => ⟨a.1.ep tid, a.2⟩ := by
  have hpairs : (s.ep tid).pairs = s.path.entries ++ [(.counter, s.n)] := rfl
  rw [branchValues, hpairs, branchEntries_append]
  exact branchEntries_path tid s.path

end ExecPoint

namespace Recorder

variable {s : Recorder}

theorem Linked.branchesFrom (h : s.Linked) {tid : Nat} {path : Path}
    (hrecords : ∀ b ∈ path.branches, s.records (b.ep tid) ≠ none) :
    s.BranchesFrom (branchOf tid path) (path.arms.map fun a => ⟨a.1.ep tid, a.2⟩) := by
  induction path with
  | nil => exact .null
  | cons f path ih =>
    cases f with
    | loop n i => exact ih hrecords
    | arm n d =>
      obtain ⟨r, hr⟩ := Option.ne_none_iff_exists'.mp (hrecords ⟨path, n⟩ (by simp [Path.branches]))
      have hbranch : r.branch = branchOf tid path := by
        have hget := h.getBranch (b := ⟨path, n⟩) (hrecords ⟨path, n⟩ (by simp [Path.branches]))
        simpa [Recorder.getBranch, hr] using hget
      have hrest := ih fun b hb => hrecords b (by simp [Path.branches, hb])
      rw [← hbranch] at hrest
      exact .getBranch hr hrest

theorem BranchesFrom.congr {s s' : Recorder} {branch : Option EPValue} {values : List EPValue}
    (h : s.BranchesFrom branch values) (hrecords : s'.records = s.records) :
    s'.BranchesFrom branch values := by
  induction h with
  | null => exact .null
  | getBranch record _ ih => exact .getBranch (hrecords ▸ record) ih

theorem At.branchesFrom (h : s.Linked) {tid : Nat} {b : Site} (hat : s.At tid b) :
    s.BranchesFrom (s.currbranch tid) (s.execpoint tid).branchValues := by
  rw [hat.point, hat.curr, ExecPoint.branchValues_ep]
  exact h.branchesFrom fun c hc => h.last tid _ _ (hat.branches c hc)

end Recorder

/-! ## The steps of a run -/

namespace MCExecution

variable (e : MCExecution)

theorem branches_self {tid : Nat} (h : e.currThread = some tid) :
    e.branches tid = e.currbranch := by
  simp [branches, h]

theorem branches_of_ne {tid : Nat} (h : e.currThread ≠ some tid) :
    e.branches tid = e.currBranchList tid := by
  unfold branches
  cases hthread : e.currThread with
  | none => rfl
  | some old =>
    have hne : tid ≠ old := fun heq => h (heq ▸ hthread)
    exact Function.update_of_ne hne _ _

private theorem branches_setCurrentThread (next : Option Nat) :
    (e.setCurrentThread next).branches = e.branches := by
  cases next with
  | none => rfl
  | some tid => simp [setCurrentThread, branches]

theorem recorder_setCurrentThread (next : Option Nat) :
    (e.setCurrentThread next).recorder = e.recorder := by
  unfold recorder
  rw [branches_setCurrentThread]
  rfl

private theorem recorder_call {tid : Nat} (h : e.currThread = some tid) (call : Annotation) :
    (e.call call).recorder = e.recorder.exec tid call := by
  have hbesides : e.recorder =
      ({ e.state with currbranch := fun _ => e.currbranch } : Recorder).besides tid
        e.currBranchList := by
    simp [recorder, branches, h, Recorder.besides]
  rw [hbesides, Recorder.exec_besides]
  simp [MCExecution.call, recorder, branches, h, Recorder.besides]

@[simp] theorem call_currThread (call : Annotation) : (e.call call).currThread = e.currThread := by
  unfold MCExecution.call
  split
  · rfl
  · rename_i h
    simp [h]

private theorem recorder_reset : e.reset.recorder = e.recorder.reset := by
  have hbranches : e.reset.branches = fun _ => none := by
    unfold branches reset
    cases e.currThread with
    | none => rfl
    | some old => simp
  unfold recorder
  rw [hbranches]
  rfl

private theorem recorder_foldl (steps : List RunStep) :
    (steps.foldl step e).recorder =
      (calls e.currThread steps).foldl (fun s call => s.exec call.1 call.2) e.recorder := by
  induction steps generalizing e with
  | nil => rfl
  | cons s steps ih =>
    rw [List.foldl_cons, ih]
    cases s with
    | swapThreads next =>
      rw [step, recorder_setCurrentThread]
      rfl
    | call call =>
      rw [step, call_currThread]
      cases hthread : e.currThread with
      | none => simp [MCExecution.call, hthread, calls]
      | some tid => rw [recorder_call e hthread, calls, List.foldl_cons]

theorem recorder_run {e : MCExecution} (h : e.currThread = none) (steps : List RunStep) :
    (e.run steps).recorder = e.recorder.run (calls none steps) := by
  have hthread : e.reset.currThread = none := h
  rw [run, recorder_foldl, recorder_reset, hthread]
  rfl

private theorem recorder_runs {e : MCExecution} (h : e.currThread = none)
    (executions : List (List RunStep)) :
    (e.runs executions).recorder = e.recorder.runs (executions.map (calls none)) ∧
      (e.runs executions).currThread = none := by
  induction executions generalizing e with
  | nil => exact ⟨rfl, h⟩
  | cons steps executions ih =>
    obtain ⟨hrecorder, hthread⟩ := ih (e := (e.run steps).setCurrentThread none) rfl
    constructor
    · rw [recorder_setCurrentThread, recorder_run h] at hrecorder
      exact hrecorder
    · exact hthread

/-- The branch of every thread leads to the branches of its point, in `currbranch` while it runs
and in `CurrBranchList` otherwise. -/
theorem branchesFrom_run {executions : List (List RunStep)} {steps : List RunStep}
    (hexecutions : ∀ steps ∈ executions, Threads.start.WellNested (calls none steps))
    (hsteps : Threads.start.WellNested (calls none steps)) {e : MCExecution}
    (he : e = (empty.runs executions).run steps) (tid : Nat) :
    (e.currThread = some tid →
      e.state.BranchesFrom e.currbranch (e.state.execpoint tid).branchValues) ∧
    (e.currThread ≠ some tid →
      e.state.BranchesFrom (e.currBranchList tid) (e.state.execpoint tid).branchValues) := by
  obtain ⟨hruns, hthread⟩ := recorder_runs (e := empty) rfl executions
  have hrecorder : e.recorder =
      (Recorder.empty.runs (executions.map (calls none))).run (calls none steps) := by
    rw [he, recorder_run hthread, hruns]
    rfl
  have hnested : ∀ run ∈ executions.map (calls none), Threads.start.WellNested run := by
    simpa using hexecutions
  obtain ⟨hlinked, hlogged⟩ := Recorder.logged_runs hnested
  obtain ⟨ts, htracks⟩ := (Recorder.Tracks.reset hlinked hlogged).foldl hsteps
  rw [← Recorder.run, ← hrecorder] at htracks
  have hall : e.state.BranchesFrom (e.branches tid) (e.state.execpoint tid).branchValues :=
    ((htracks.stands tid).toAt.branchesFrom htracks.linked).congr rfl
  constructor
  · intro hcurr
    rwa [branches_self e hcurr] at hall
  · intro hcurr
    rwa [branches_of_ne e hcurr] at hall

/-- A thread is left in a branch in a loop while another one is in two branches. -/
def switchedRun : List RunStep :=
  [.swapThreads (some 0), .call (.threadStart none), .call .threadCreate, .call .enterLoop,
    .call (.branchDir 1), .swapThreads (some 1),
    .call (.threadStart (some ⟨0, [(.counter, 1)]⟩)), .call (.branchDir 2), .call (.branchDir 0)]

theorem branchesFrom_switchedRun :
    (empty.run switchedRun).state.BranchesFrom
        (some ⟨⟨1, [(.counter, 1), (.branch, 2), (.counter, 0)]⟩, 0⟩)
        [⟨⟨1, [(.counter, 1), (.branch, 2), (.counter, 0)]⟩, 0⟩, ⟨⟨1, [(.counter, 1)]⟩, 2⟩] ∧
      (empty.run switchedRun).state.BranchesFrom
        (some ⟨⟨0, [(.counter, 2), (.loop, 0), (.counter, 1)]⟩, 1⟩)
        [⟨⟨0, [(.counter, 2), (.loop, 0), (.counter, 1)]⟩, 1⟩] := by
  have hnested : Threads.start.WellNested (calls none switchedRun) := by
    simp [calls, switchedRun, Threads.WellNested, Threads.Legal, Threads.move, Threads.start,
      Control.Legal, Control.start, Site.start, Site.ep]
    rfl
  have hnone : ∀ steps ∈ ([] : List (List RunStep)),
      Threads.start.WellNested (calls none steps) := by simp
  have hall := branchesFrom_run hnone hnested rfl
  exact ⟨(hall 1).1 (by decide +kernel), (hall 0).2 (by decide +kernel)⟩

end MCExecution

end SatCheck
