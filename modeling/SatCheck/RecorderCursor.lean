import SatCheck.EventRecorder
import Mathlib.Tactic.SplitIfs
/-!
# The point of a thread

Where a thread stands and what it records only depends on its own calls in the run: an
annotation call notes records at the point, nests into a branch or a loop, or leaves one.
-/

namespace SatCheck

/-! ## What a call does to the point -/

/-- `note` moves on behind the record, `nest` goes into the branch or loop of the record,
and `leave` pops and increments. -/
inductive Op where
  | note (request : Request)
  | nest (request : Request) (type : ExecPointType) (value : Nat)
  | leave (ep : ExecPoint)
  deriving DecidableEq, Repr

namespace Op

def request? : Op → Option Request
  | note request | nest request _ _ => some request
  | leave _ => none

def after : Op → ExecPoint
  | note request => request.ep.incrementTop
  | nest request type value => (request.ep.push type value).push .counter 0
  | leave ep => ep

def left? : Op → Option ExecPoint
  | leave ep => some ep
  | _ => none

end Op

def pointAfter (start : ExecPoint) (ops : List Op) : ExecPoint :=
  match ops.getLast? with
  | none => start
  | some op => op.after

def ExecPoint.popToLoop : Nat → ExecPoint → ExecPoint
  | 0, ep => ep
  | n + 1, ep => if ep.getType = some .loop then ep.pop else popToLoop n ep.pop

/-- What the point of a thread depends on: the point and the records of its branches. -/
structure Cursor where
  ep : ExecPoint
  branches : List ExecPoint

namespace Cursor

def ops (c : Cursor) : Annotation → List Op
  | .event et numinputs => [.note ⟨c.ep, et, numinputs⟩]
  | .branchDir direction => [.nest ⟨c.ep, .branchdir, 1⟩ .branch direction]
  | .merge mcid =>
      match c.branches[mcid]? with
      | none => []
      | some branch =>
          let ep := (c.ep.rollback branch.getSize).incrementTop
          [.leave ep, .note ⟨ep, .merge, 0⟩]
  | .enterLoop =>
      [.nest ⟨c.ep, .loopenter, 0⟩ .loop 0,
        .note ⟨(c.ep.push .loop 0).push .counter 0, .loopstart, 0⟩]
  | .exitLoop =>
      let label := (c.ep.incrementTop.popToLoop c.ep.incrementTop.getSize).incrementTop
      [.note ⟨c.ep, if c.ep.directInLoop then .loopexit else .nonlocaltrans, 0⟩, .leave label,
        .note ⟨label, .label, 0⟩]
  | .loopIterate => [.leave (c.ep.pop.incrementTop.push .counter 0)]
  | .threadCreate => [.note ⟨c.ep, .threadcreate, 0⟩]
  | .threadStart _ => [.note ⟨c.ep, .threadbegin, 0⟩]

def move (c : Cursor) (call : Annotation) : Cursor where
  ep := pointAfter c.ep (c.ops call)
  branches := match call with
    | .branchDir _ => c.branches ++ [c.ep]
    | _ => c.branches

def trace : Cursor → List Annotation → List Op
  | _, [] => []
  | c, call :: calls => c.ops call ++ trace (c.move call) calls

end Cursor

/-! ## The recorder follows the cursor -/

namespace Recorder

variable (s : Recorder)

def cursor (tid : Nat) : Cursor := ⟨s.execpoint tid, (s.epvalues tid).map EPValue.record⟩

@[simp] theorem link_execpoint (last : Option ExecPoint) (record : ExecPoint) :
    (s.link last record).execpoint = s.execpoint := by
  cases last <;> rfl

@[simp] theorem link_epvalues (last : Option ExecPoint) (record : ExecPoint) :
    (s.link last record).epvalues = s.epvalues := by
  cases last <;> rfl

@[simp] theorem link_requests (last : Option ExecPoint) (record : ExecPoint) :
    (s.link last record).requests = s.requests := by
  cases last <;> rfl

@[simp] theorem createRecord_execpoint (tid : Nat) (et : EventType) (numinputs : Nat) :
    (s.createRecord tid et numinputs).execpoint = s.execpoint := by
  unfold createRecord
  split <;> rfl

@[simp] theorem createRecord_epvalues (tid : Nat) (et : EventType) (numinputs : Nat) :
    (s.createRecord tid et numinputs).epvalues = s.epvalues := by
  unfold createRecord
  split <;> rfl

@[simp] theorem createRecord_requests (tid : Nat) (et : EventType) (numinputs : Nat) :
    (s.createRecord tid et numinputs).requests = s.requests := by
  unfold createRecord
  split <;> rfl

@[simp] theorem getOrCreateCurrRecord_execpoint (tid : Nat) (et : EventType) (numinputs : Nat) :
    (s.getOrCreateCurrRecord tid et numinputs).execpoint = s.execpoint := by
  unfold getOrCreateCurrRecord
  simp only
  split <;> split_ifs <;> simp

@[simp] theorem getOrCreateCurrRecord_epvalues (tid : Nat) (et : EventType) (numinputs : Nat) :
    (s.getOrCreateCurrRecord tid et numinputs).epvalues = s.epvalues := by
  unfold getOrCreateCurrRecord
  simp only
  split <;> split_ifs <;> simp

@[simp] theorem getOrCreateCurrRecord_requests (tid : Nat) (et : EventType) (numinputs : Nat) :
    (s.getOrCreateCurrRecord tid et numinputs).requests =
      s.requests ++ [⟨s.execpoint tid, et, numinputs⟩] := by
  unfold getOrCreateCurrRecord
  simp only
  split <;> split_ifs <;> simp

theorem popLoop_spec (tid n : Nat) :
    (popLoop tid n s).execpoint =
        Function.update s.execpoint tid ((s.execpoint tid).popToLoop n) ∧
      (popLoop tid n s).epvalues = s.epvalues ∧ (popLoop tid n s).requests = s.requests := by
  induction n generalizing s with
  | zero => simp [popLoop, ExecPoint.popToLoop]
  | succ n ih =>
    unfold popLoop
    simp only
    by_cases hloop : (s.execpoint tid).getType = some .loop
    · simp [hloop, setExecPoint, ExecPoint.popToLoop]
    · rw [if_neg hloop]
      obtain ⟨hep, hvalues, hrequests⟩ := ih (if (s.execpoint tid).getType = some .branch then
          { s.setExecPoint tid (s.execpoint tid).pop with
            currbranch := Function.update (s.setExecPoint tid (s.execpoint tid).pop).currbranch tid
              (((s.setExecPoint tid (s.execpoint tid).pop).currbranch tid).bind fun branch =>
                (s.setExecPoint tid (s.execpoint tid).pop).getBranch branch.record) }
        else s.setExecPoint tid (s.execpoint tid).pop)
      rw [hep, hvalues, hrequests]
      split_ifs <;> simp [setExecPoint, ExecPoint.popToLoop, hloop]

theorem breakLoop_spec (tid : Nat) :
    (s.breakLoop tid).execpoint = Function.update s.execpoint tid
        ((s.execpoint tid).incrementTop.popToLoop (s.execpoint tid).incrementTop.getSize) ∧
      (s.breakLoop tid).epvalues = s.epvalues ∧
      (s.breakLoop tid).requests = s.requests ++
        [⟨s.execpoint tid, if (s.execpoint tid).directInLoop then .loopexit else .nonlocaltrans,
          0⟩] := by
  unfold breakLoop
  simp only
  obtain ⟨hep, hvalues, hrequests⟩ := popLoop_spec ((s.getOrCreateCurrRecord tid
    (if (s.execpoint tid).directInLoop then .loopexit else .nonlocaltrans) 0).incrementTop tid)
    tid (s.execpoint tid).incrementTop.getSize
  simp_all [incrementTop, setExecPoint]

theorem labelLoop_spec (tid : Nat) (breakstate : ExecPoint) :
    (s.labelLoop tid breakstate).execpoint = Function.update s.execpoint tid
        (s.execpoint tid).incrementTop.incrementTop ∧
      (s.labelLoop tid breakstate).epvalues = s.epvalues ∧
      (s.labelLoop tid breakstate).requests =
        s.requests ++ [⟨(s.execpoint tid).incrementTop, .label, 0⟩] := by
  unfold labelLoop
  simp only
  split_ifs <;> simp [incrementTop, setExecPoint, setNextRecord]

theorem exec_execpoint (tid : Nat) (call : Annotation) :
    (s.exec tid call).execpoint =
      Function.update s.execpoint tid ((s.cursor tid).move call).ep := by
  cases call with
  | merge mcid =>
    simp only [exec, merge, cursor, Cursor.move, Cursor.ops, List.getElem?_map]
    cases (s.epvalues tid)[mcid]? <;>
      simp [incrementTop, setExecPoint, pointAfter, Op.after]
  | exitLoop =>
    simp only [exec, exitLoop]
    rw [(labelLoop_spec _ tid _).1, (breakLoop_spec s tid).1]
    simp [Cursor.move, Cursor.ops, pointAfter, Op.after, cursor]
  | threadStart parent =>
    cases parent <;>
      simp [exec, threadStart, incrementTop, setExecPoint, setChildRecord, Cursor.move,
        Cursor.ops, pointAfter, Op.after, cursor]
  | _ =>
    simp [exec, branchDir, enterLoop, loopIterate, threadCreate, addEPValue, incrementTop,
      setExecPoint, setChildRecord, Cursor.move, Cursor.ops, pointAfter, Op.after, cursor]

theorem exec_epvalues (tid : Nat) (call : Annotation) (t : Nat) :
    ((s.exec tid call).epvalues t).map EPValue.record =
      if t = tid then ((s.cursor tid).move call).branches
      else (s.epvalues t).map EPValue.record := by
  cases call with
  | branchDir direction =>
    by_cases ht : t = tid
    · subst ht
      simp [exec, branchDir, setExecPoint, addEPValue, Cursor.move, cursor]
    · simp [exec, branchDir, setExecPoint, addEPValue, ht]
  | merge mcid =>
    simp only [exec, merge]
    cases (s.epvalues tid)[mcid]? <;>
      simp +contextual [incrementTop, setExecPoint, Cursor.move, cursor]
  | exitLoop =>
    simp only [exec, exitLoop]
    rw [(labelLoop_spec _ tid _).2.1, (breakLoop_spec s tid).2.1]
    simp +contextual [Cursor.move, cursor]
  | threadStart parent =>
    cases parent <;>
      simp +contextual [exec, threadStart, incrementTop, setExecPoint, setChildRecord,
        Cursor.move, cursor]
  | _ =>
    simp +contextual [exec, enterLoop, loopIterate, threadCreate, incrementTop, setExecPoint,
      setChildRecord, Cursor.move, cursor]

theorem exec_requests (tid : Nat) (call : Annotation) :
    (s.exec tid call).requests =
      s.requests ++ ((s.cursor tid).ops call).filterMap Op.request? := by
  cases call with
  | merge mcid =>
    simp only [exec, merge, cursor, Cursor.ops, List.getElem?_map]
    cases (s.epvalues tid)[mcid]? <;>
      simp [incrementTop, setExecPoint, List.filterMap_cons, Op.request?]
  | exitLoop =>
    simp only [exec, exitLoop]
    rw [(labelLoop_spec _ tid _).2.2, (breakLoop_spec s tid).2.2, (breakLoop_spec s tid).1]
    simp only [Function.update_self, List.append_assoc]
    rfl
  | threadStart parent =>
    cases parent <;>
      simp [exec, threadStart, incrementTop, setExecPoint, setChildRecord, Cursor.ops,
        Op.request?, cursor]
  | _ =>
    simp [exec, branchDir, enterLoop, loopIterate, threadCreate, addEPValue, incrementTop,
      setExecPoint, setChildRecord, Cursor.ops, List.filterMap_cons,
      Op.request?, cursor]

theorem exec_cursor (tid : Nat) (call : Annotation) (t : Nat) :
    (s.exec tid call).cursor t = if t = tid then (s.cursor tid).move call else s.cursor t := by
  have hep := congrFun (exec_execpoint s tid call) t
  have hbranches := exec_epvalues s tid call t
  unfold cursor at hep hbranches ⊢
  rw [hep, hbranches]
  by_cases ht : t = tid
  · subst ht
    simp
  · simp [ht]

end Recorder

def threadCalls (tid : Nat) (calls : List (Nat × Annotation)) : List Annotation :=
  calls.filterMap fun call => if call.1 = tid then some call.2 else none

def threadTrace (tid : Nat) (calls : List (Nat × Annotation)) : List Op :=
  Cursor.trace ⟨ExecPoint.start tid, []⟩ (threadCalls tid calls)

private theorem mem_requests_foldl (s : Recorder) (calls : List (Nat × Annotation))
    (request : Request) :
    request ∈ (calls.foldl (fun s call => s.exec call.1 call.2) s).requests ↔
      request ∈ s.requests ∨ ∃ tid, request ∈
        ((s.cursor tid).trace (threadCalls tid calls)).filterMap Op.request? := by
  induction calls generalizing s with
  | nil => simp [threadCalls, Cursor.trace]
  | cons call calls ih =>
    obtain ⟨tid, call⟩ := call
    have hcalls : ∀ t, threadCalls t ((tid, call) :: calls) =
        if tid = t then call :: threadCalls t calls else threadCalls t calls := by
      intro t
      by_cases ht : tid = t <;> simp [threadCalls, ht]
    rw [List.foldl_cons, ih, Recorder.exec_requests, List.mem_append]
    constructor
    · rintro ((hold | hnew) | ⟨t, ht⟩)
      · exact .inl hold
      · refine .inr ⟨tid, ?_⟩
        rw [hcalls, if_pos rfl, Cursor.trace, List.filterMap_append]
        exact List.mem_append_left _ hnew
      · refine .inr ⟨t, ?_⟩
        rw [Recorder.exec_cursor] at ht
        rw [hcalls]
        split_ifs at ht ⊢ with h h' h'
        · subst h
          rw [Cursor.trace, List.filterMap_append]
          exact List.mem_append_right _ ht
        · exact absurd h.symm h'
        · exact absurd h'.symm h
        · exact ht
    · rintro (hold | ⟨t, ht⟩)
      · exact .inl (.inl hold)
      · rw [hcalls] at ht
        split_ifs at ht with h
        · subst h
          rw [Cursor.trace, List.filterMap_append, List.mem_append] at ht
          rcases ht with ht | ht
          · exact .inl (.inr ht)
          · refine .inr ⟨tid, ?_⟩
            rwa [Recorder.exec_cursor, if_pos rfl]
        · refine .inr ⟨t, ?_⟩
          rwa [Recorder.exec_cursor, if_neg fun h' => h h'.symm]

theorem mem_requests_run (s : Recorder) (calls : List (Nat × Annotation)) (request : Request) :
    request ∈ (s.run calls).requests ↔
      ∃ tid, request ∈ (threadTrace tid calls).filterMap Op.request? := by
  refine (mem_requests_foldl s.reset calls request).trans ?_
  exact or_iff_right List.not_mem_nil

end SatCheck
