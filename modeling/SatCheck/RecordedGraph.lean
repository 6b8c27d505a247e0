import SatCheck.RecorderCursor
import SatCheck.Traversal
/-!
# Graphs of recorded runs

What the annotation calls keep true of the records, the branches and the execution points
of each thread, and the event graph that a sequence of runs leaves.
-/

namespace SatCheck

/-- A graph in which a branch lies in the thread of its records. -/
structure ThreadGraph extends EventGraph where
  branch_tid : ∀ record branch,
    toEventGraph.getBranch record = some branch → branch.record.tid = record.tid

namespace Recorder

/-- Records, branches and points stay in their thread. -/
structure InThread (s : Recorder) : Prop where
  branch : ∀ record branch, s.getBranch record = some branch → branch.record.tid = record.tid
  point : ∀ tid, (s.execpoint tid).tid = tid
  curr : ∀ tid branch, s.currbranch tid = some branch → branch.record.tid = tid
  values : ∀ tid, ∀ value ∈ s.epvalues tid, value.record.tid = tid

theorem InThread.empty : Recorder.empty.InThread where
  branch := by simp [Recorder.empty, getBranch]
  point := fun _ => rfl
  curr := by simp [Recorder.empty]
  values := by simp [Recorder.empty]

/-! ## Links leave branches as they are -/

theorem getBranch_update_map (s : Recorder) (record ep : ExecPoint) (f : EPRecord → EPRecord)
    (hf : ∀ r, (f r).branch = r.branch) :
    ((Function.update s.records record ((s.records record).map f)) ep).bind EPRecord.branch =
      s.getBranch ep := by
  by_cases hep : ep = record
  · subst hep
    unfold getBranch
    cases h : s.records ep <;> simp [hf]
  · simp [hep, getBranch]

@[simp] theorem getBranch_setNextRecord (s : Recorder) (record next ep : ExecPoint) :
    (s.setNextRecord record next).getBranch ep = s.getBranch ep :=
  getBranch_update_map s record ep _ fun _ => rfl

@[simp] theorem getBranch_setChildRecord (s : Recorder) (record child ep : ExecPoint) :
    (s.setChildRecord record child).getBranch ep = s.getBranch ep :=
  getBranch_update_map s record ep _ fun _ => rfl

@[simp] theorem getBranch_addEPValue (s : Recorder) (record : ExecPoint) (value : Nat)
    (ep : ExecPoint) : (s.addEPValue record value).getBranch ep = s.getBranch ep :=
  getBranch_update_map s record ep _ fun _ => rfl

@[simp] theorem getBranch_link (s : Recorder) (last : Option ExecPoint) (record ep : ExecPoint) :
    (s.link last record).getBranch ep = s.getBranch ep := by
  cases last <;> simp [link]

@[simp] theorem link_currbranch (s : Recorder) (last : Option ExecPoint) (record : ExecPoint) :
    (s.link last record).currbranch = s.currbranch := by
  cases last <;> rfl

@[simp] theorem createRecord_currbranch (s : Recorder) (tid : Nat) (et : EventType)
    (numinputs : Nat) : (s.createRecord tid et numinputs).currbranch = s.currbranch := by
  unfold createRecord
  split <;> rfl

@[simp] theorem getOrCreateCurrRecord_currbranch (s : Recorder) (tid : Nat) (et : EventType)
    (numinputs : Nat) :
    (s.getOrCreateCurrRecord tid et numinputs).currbranch = s.currbranch := by
  unfold getOrCreateCurrRecord
  simp only
  split <;> split_ifs <;> simp

private theorem getBranch_createRecord (s : Recorder) (tid : Nat) (et : EventType) (numinputs : Nat)
    (ep : ExecPoint) : (s.createRecord tid et numinputs).getBranch ep =
      if ep = s.execpoint tid ∧ s.records ep = none then s.currbranch tid else s.getBranch ep := by
  unfold createRecord
  cases h : s.records (s.execpoint tid) with
  | some r =>
    split_ifs with hep
    · rw [hep.1, h] at hep
      simp at hep
    · rfl
  | none =>
    by_cases hep : ep = s.execpoint tid
    · subst hep
      simp [getBranch, h]
    · simp [getBranch, hep]

theorem getBranch_getOrCreateCurrRecord (s : Recorder) (tid : Nat) (et : EventType)
    (numinputs : Nat) (ep : ExecPoint) :
    (s.getOrCreateCurrRecord tid et numinputs).getBranch ep =
      if ep = s.execpoint tid ∧ s.records ep = none then s.currbranch tid else s.getBranch ep := by
  rw [← getBranch_createRecord s tid et numinputs]
  unfold getOrCreateCurrRecord
  simp only
  split <;> split_ifs <;> first
    | exact getBranch_link _ _ _ _
    | rfl

/-! ## Calls stay in their thread -/

namespace InThread

variable {s : Recorder}

theorem setNextRecord (h : s.InThread) (record next : ExecPoint) :
    (s.setNextRecord record next).InThread where
  branch := by simpa using h.branch
  point := h.point
  curr := h.curr
  values := h.values

theorem setChildRecord (h : s.InThread) (record child : ExecPoint) :
    (s.setChildRecord record child).InThread where
  branch := by simpa using h.branch
  point := h.point
  curr := h.curr
  values := h.values

theorem addEPValue (h : s.InThread) (record : ExecPoint) (value : Nat) :
    (s.addEPValue record value).InThread where
  branch := by simpa using h.branch
  point := h.point
  curr := h.curr
  values := h.values

theorem setExecPoint (h : s.InThread) (tid : Nat) (ep : ExecPoint) (hep : ep.tid = tid) :
    (s.setExecPoint tid ep).InThread where
  branch := h.branch
  point := fun tid' => by
    by_cases ht : tid' = tid
    · subst ht
      simpa [Recorder.setExecPoint] using hep
    · simpa [Recorder.setExecPoint, ht] using h.point tid'
  curr := h.curr
  values := h.values

theorem incrementTop (h : s.InThread) (tid : Nat) : (s.incrementTop tid).InThread :=
  h.setExecPoint tid _ (h.point tid)

theorem setCurrBranch (h : s.InThread) (tid : Nat) (currbranch : Option EPValue)
    (hcurr : ∀ branch, currbranch = some branch → branch.record.tid = tid) :
    ({ s with currbranch := Function.update s.currbranch tid currbranch } : Recorder).InThread where
  branch := h.branch
  point := h.point
  curr := fun tid' branch hbranch => by
    by_cases ht : tid' = tid
    · subst ht
      exact hcurr branch (by simpa using hbranch)
    · exact h.curr tid' branch (by simpa [ht] using hbranch)
  values := h.values

theorem getOrCreateCurrRecord (h : s.InThread) (tid : Nat) (et : EventType) (numinputs : Nat) :
    (s.getOrCreateCurrRecord tid et numinputs).InThread where
  branch := fun record branch hbranch => by
    rw [getBranch_getOrCreateCurrRecord] at hbranch
    split_ifs at hbranch with hrecord
    · calc branch.record.tid = tid := h.curr tid branch hbranch
        _ = (s.execpoint tid).tid := (h.point tid).symm
        _ = record.tid := by rw [hrecord.1]
    · exact h.branch record branch hbranch
  point := by simpa using h.point
  curr := by simpa using h.curr
  values := by simpa using h.values

theorem branchDir (h : s.InThread) (tid direction : Nat) :
    (s.branchDir tid direction).InThread := by
  have hnew := (h.getOrCreateCurrRecord tid .branchdir 1).addEPValue (s.execpoint tid) direction
  have hpoint : (s.execpoint tid).tid = tid := h.point tid
  constructor
  · exact hnew.branch
  · exact (hnew.setExecPoint tid (((s.execpoint tid).push .branch direction).push .counter 0)
      hpoint).point
  · apply (hnew.setCurrBranch tid _ _).curr
    intro branch hbranch
    obtain rfl := Option.some_inj.mp hbranch
    exact hpoint
  · intro tid' value hvalue
    by_cases ht : tid' = tid
    · subst ht
      simp only [Recorder.branchDir, Recorder.setExecPoint, Function.update_self,
        List.mem_append, List.mem_singleton] at hvalue
      rcases hvalue with hvalue | rfl
      · exact hnew.values _ value hvalue
      · exact hpoint
    · apply hnew.values tid' value
      simpa [Recorder.branchDir, Recorder.setExecPoint, ht] using hvalue

theorem merge (h : s.InThread) (tid mcid : Nat) : (s.merge tid mcid).InThread := by
  unfold Recorder.merge
  cases hv : (s.epvalues tid)[mcid]? with
  | none => exact h
  | some value =>
    have htid : value.record.tid = tid := h.values tid value (List.mem_of_getElem? hv)
    apply incrementTop
    apply getOrCreateCurrRecord
    apply incrementTop
    apply setExecPoint
    · apply h.setCurrBranch
      intro branch hbranch
      rw [h.branch value.record branch hbranch, htid]
    · exact h.point tid

theorem enterLoop (h : s.InThread) (tid : Nat) : (s.enterLoop tid).InThread := by
  unfold Recorder.enterLoop
  apply incrementTop
  apply setChildRecord
  apply getOrCreateCurrRecord
  apply setExecPoint
  · exact h.getOrCreateCurrRecord tid .loopenter 0
  · exact h.point tid

private theorem popLoop (h : s.InThread) (tid n : Nat) : (Recorder.popLoop tid n s).InThread := by
  induction n generalizing s with
  | zero => exact h
  | succ n ih =>
    have hpop := h.setExecPoint tid (s.execpoint tid).pop (h.point tid)
    have hcurr := hpop.setCurrBranch tid
      ((s.currbranch tid).bind fun branch => s.getBranch branch.record) (by
        intro branch hbranch
        obtain ⟨outer, houter, hinner⟩ := Option.bind_eq_some_iff.mp hbranch
        rw [h.branch outer.record branch hinner, h.curr tid outer houter])
    unfold Recorder.popLoop
    simp only
    split_ifs
    · exact hcurr
    · exact hpop
    · exact ih hcurr
    · exact ih hpop

private theorem breakLoop (h : s.InThread) (tid : Nat) : (s.breakLoop tid).InThread := by
  unfold Recorder.breakLoop
  exact ((h.getOrCreateCurrRecord tid _ 0).incrementTop tid).popLoop tid _

private theorem labelLoop (h : s.InThread) (tid : Nat) (breakstate : ExecPoint) :
    (s.labelLoop tid breakstate).InThread := by
  have hlabel := (h.incrementTop tid).getOrCreateCurrRecord tid .label 0
  unfold Recorder.labelLoop
  simp only
  split_ifs
  · exact ((hlabel.setNextRecord _ _).setNextRecord _ _).incrementTop tid
  · exact (hlabel.setNextRecord _ _).incrementTop tid

private theorem threadStart (h : s.InThread) (tid : Nat) (parent : Option ExecPoint) :
    (s.threadStart tid parent).InThread := by
  have hnew := h.getOrCreateCurrRecord tid .threadbegin 0
  unfold Recorder.threadStart
  cases parent with
  | none => exact hnew.incrementTop tid
  | some parent => exact (hnew.setChildRecord parent (s.execpoint tid)).incrementTop tid

private theorem exec (h : s.InThread) (tid : Nat) (call : Annotation) :
    (s.exec tid call).InThread := by
  cases call with
  | event et numinputs => exact (h.getOrCreateCurrRecord tid et numinputs).incrementTop tid
  | branchDir direction => exact h.branchDir tid direction
  | merge mcid => exact h.merge tid mcid
  | enterLoop => exact h.enterLoop tid
  | exitLoop => exact (h.breakLoop tid).labelLoop tid (s.execpoint tid)
  | loopIterate =>
    have hpoint : (s.execpoint tid).tid = tid := h.point tid
    exact h.setExecPoint tid _ hpoint
  | threadCreate => exact (h.getOrCreateCurrRecord tid .threadcreate 0).incrementTop tid
  | threadStart parent => exact h.threadStart tid parent

private theorem reset (h : s.InThread) : s.reset.InThread where
  branch := h.branch
  point := fun _ => rfl
  curr := by simp [Recorder.reset]
  values := by simp [Recorder.reset]

private theorem run (h : s.InThread) (calls : List (Nat × Annotation)) :
    (s.run calls).InThread := by
  have hfoldl : ∀ s : Recorder, s.InThread →
      (calls.foldl (fun s call => s.exec call.1 call.2) s).InThread := by
    induction calls with
    | nil => exact fun _ h => h
    | cons call calls ih => exact fun s h => ih _ (h.exec call.1 call.2)
  exact hfoldl _ h.reset

end InThread

def runs (s : Recorder) (executions : List (List (Nat × Annotation))) : Recorder :=
  executions.foldl run s

theorem InThread.runs {s : Recorder} (h : s.InThread)
    (executions : List (List (Nat × Annotation))) :
    (s.runs executions).InThread := by
  induction executions generalizing s with
  | nil => exact h
  | cons calls executions ih => exact ih (h.run calls)

def graph (s : Recorder) (len : ExecPoint → Nat) (first : ExecPoint) : EventGraph :=
  ⟨s.records, s.firstrecord, len, first⟩

def recordedGraph (executions : List (List (Nat × Annotation))) (len : ExecPoint → Nat)
    (first : ExecPoint) : ThreadGraph where
  toEventGraph := (empty.runs executions).graph len first
  branch_tid := (InThread.empty.runs executions).branch

end Recorder

end SatCheck
