import SatCheck.RecorderCursor
import Mathlib.Data.List.Induction
import Mathlib.Tactic.IntervalCases
/-!
# Execution points across runs

Two runs of a program record events of one kind at every common point when neither of
them leaves a branch or a loop to a point of the other with different calls ahead.
-/

namespace SatCheck

/-! ## Points and requests of a trace -/

/-- Every record is noted at the point that the operations before it have led to. -/
def Chain : ExecPoint → List Op → Prop
  | _, [] => True
  | ep, op :: ops => (∀ request, op.request? = some request → request.ep = ep) ∧ Chain op.after ops

@[simp] theorem pointAfter_nil (ep : ExecPoint) : pointAfter ep [] = ep := rfl

theorem pointAfter_cons (ep : ExecPoint) (op : Op) (ops : List Op) :
    pointAfter ep (op :: ops) = pointAfter op.after ops := by
  cases h : ops.getLast? with
  | none =>
    rw [List.getLast?_eq_none_iff] at h
    subst h
    rfl
  | some last => simp [pointAfter, List.getLast?_cons, h]

theorem pointAfter_append (ep : ExecPoint) (ops ops' : List Op) :
    pointAfter ep (ops ++ ops') = pointAfter (pointAfter ep ops) ops' := by
  induction ops generalizing ep with
  | nil => rfl
  | cons op ops ih => rw [List.cons_append, pointAfter_cons, pointAfter_cons, ih]

theorem chain_append {ep : ExecPoint} {ops ops' : List Op} :
    Chain ep (ops ++ ops') ↔ Chain ep ops ∧ Chain (pointAfter ep ops) ops' := by
  induction ops generalizing ep with
  | nil => simp [Chain]
  | cons op ops ih => rw [List.cons_append, Chain, Chain, ih, pointAfter_cons, and_assoc]

theorem Cursor.chain_ops (c : Cursor) (call : Annotation) : Chain c.ep (c.ops call) := by
  cases call with
  | merge mcid =>
    cases hbranch : c.branches[mcid]? <;> simp [Cursor.ops, hbranch, Chain, Op.request?, Op.after]
  | _ => simp [Chain, Cursor.ops, Op.request?, Op.after]

theorem Cursor.chain_trace (c : Cursor) (calls : List Annotation) : Chain c.ep (c.trace calls) := by
  induction calls generalizing c with
  | nil => trivial
  | cons call calls ih => exact chain_append.mpr ⟨c.chain_ops call, ih (c.move call)⟩

theorem mem_requests_of_chain {ep : ExecPoint} {ops : List Op} (h : Chain ep ops)
    {request : Request} :
    request ∈ ops.filterMap Op.request? ↔ ∃ pre op post, ops = pre ++ op :: post ∧
      op.request? = some request ∧ request.ep = pointAfter ep pre := by
  constructor
  · intro hmem
    obtain ⟨op, hop, hrequest⟩ := List.mem_filterMap.mp hmem
    obtain ⟨pre, post, rfl⟩ := List.append_of_mem hop
    exact ⟨pre, op, post, rfl, hrequest, (chain_append.mp h).2.1 request hrequest⟩
  · rintro ⟨pre, op, post, rfl, hrequest, -⟩
    exact List.mem_filterMap.mpr ⟨op, by simp, hrequest⟩

/-! ## Agreement -/

def Request.sameKind (a b : Request) : Bool := a.event = b.event && a.numinputs = b.numinputs

/-- The records noted side by side are of one kind, up to where one side leaves or the two
nest into different directions. -/
def agree : List Op → List Op → Bool
  | .note a :: as, .note b :: bs => a.sameKind b && agree as bs
  | .nest a type value :: as, .nest b type' value' :: bs =>
      a.sameKind b && (type ≠ type' || value ≠ value' || agree as bs)
  | .note a :: _, .nest b _ _ :: _ => a.sameKind b
  | .nest a _ _ :: _, .note b :: _ => a.sameKind b
  | _, _ => true

/-- Where the first side leaves to a point of the second one, the two agree on what follows. -/
def LeavesAgree (start : ExecPoint) (as bs : List Op) : Prop :=
  ∀ i < as.length, ∀ j ≤ bs.length,
    (as[i]?).bind Op.left? = some (pointAfter start (bs.take j)) →
      agree (as.drop (i + 1)) (bs.drop j) = true

instance (start : ExecPoint) (as bs : List Op) : Decidable (LeavesAgree start as bs) :=
  inferInstanceAs (Decidable (∀ i < as.length, ∀ j ≤ bs.length,
    (as[i]?).bind Op.left? = some (pointAfter start (bs.take j)) →
      agree (as.drop (i + 1)) (bs.drop j) = true))

@[simp] theorem sameKind_self (a : Request) : a.sameKind a = true := by simp [Request.sameKind]

theorem sameKind_comm (a b : Request) : a.sameKind b = b.sameKind a := by
  simp [Request.sameKind, eq_comm]

theorem agree_comm (as bs : List Op) : agree as bs = agree bs as := by
  induction as generalizing bs with
  | nil =>
    cases bs with
    | nil => rfl
    | cons b bs => cases b <;> rfl
  | cons a as ih =>
    cases bs with
    | nil => cases a <;> rfl
    | cons b bs => cases a <;> cases b <;> simp [agree, sameKind_comm, ih, eq_comm]

@[simp] theorem agree_nil_left (bs : List Op) : agree [] bs = true := by
  cases bs with
  | nil => rfl
  | cons b bs => cases b <;> rfl

@[simp] theorem agree_nil_right (as : List Op) : agree as [] = true := by
  rw [agree_comm, agree_nil_left]

theorem agree_append_left (ops as bs : List Op) (h : agree as bs = true) :
    agree (ops ++ as) (ops ++ bs) = true := by
  induction ops with
  | nil => exact h
  | cons op ops ih => cases op <;> simp [agree, ih]

theorem agree_of_sameKind {ep : ExecPoint} {as bs : List Op} (ha : Chain ep as)
    (hb : Chain ep bs)
    (hkind : ∀ a ∈ as.filterMap Op.request?, ∀ b ∈ bs.filterMap Op.request?, a.ep = b.ep →
      a.sameKind b = true) : agree as bs = true := by
  induction as generalizing ep bs with
  | nil => exact agree_nil_left bs
  | cons a as ih =>
    cases bs with
    | nil => exact agree_nil_right _
    | cons b bs =>
      have hhead : ∀ ra rb, a.request? = some ra → b.request? = some rb →
          ra.sameKind rb = true := by
        intro ra rb hra hrb
        apply hkind ra (List.mem_filterMap.mpr ⟨a, List.mem_cons_self, hra⟩) rb
          (List.mem_filterMap.mpr ⟨b, List.mem_cons_self, hrb⟩)
        rw [ha.1 ra hra, hb.1 rb hrb]
      have htail : a.after = b.after → agree as bs = true := by
        intro hafter
        refine ih ha.2 (hafter ▸ hb.2) fun x hx y hy => hkind x ?_ y ?_
        · obtain ⟨op, hop, hx⟩ := List.mem_filterMap.mp hx
          exact List.mem_filterMap.mpr ⟨op, List.mem_cons_of_mem a hop, hx⟩
        · obtain ⟨op, hop, hy⟩ := List.mem_filterMap.mp hy
          exact List.mem_filterMap.mpr ⟨op, List.mem_cons_of_mem b hop, hy⟩
      cases a with
      | leave ep' => cases b <;> rfl
      | note ra =>
        have hra := ha.1 ra rfl
        cases b with
        | leave ep' => rfl
        | nest rb type value => exact hhead ra rb rfl rfl
        | note rb =>
          have hrb := hb.1 rb rfl
          rw [agree, hhead ra rb rfl rfl, htail (by simp [Op.after, hra, hrb])]
          rfl
      | nest ra type value =>
        have hra := ha.1 ra rfl
        cases b with
        | leave ep' => rfl
        | note rb => exact hhead ra rb rfl rfl
        | nest rb type' value' =>
          have hrb := hb.1 rb rfl
          rw [agree, hhead ra rb rfl rfl]
          by_cases hsame : type = type' ∧ value = value'
          · rw [htail (by simp [Op.after, hra, hrb, hsame])]
            simp
          · rw [not_and_or] at hsame
            rcases hsame with h | h <;> simp [h]

/-! ## Points lead back to one operation -/

theorem ExecPoint.incrementTop_injective : Function.Injective ExecPoint.incrementTop := by
  rintro ⟨tid, ps⟩ ⟨tid', qs⟩ h
  rcases List.eq_nil_or_concat' ps with rfl | ⟨ps, ⟨type, value⟩, rfl⟩ <;>
    rcases List.eq_nil_or_concat' qs with rfl | ⟨qs, ⟨type', value'⟩, rfl⟩ <;>
    simp_all [incrementTop]

theorem ExecPoint.incrementTop_ne_push_zero (ep ep' : ExecPoint) (type : ExecPointType) :
    ep.incrementTop ≠ ep'.push type 0 := by
  rcases ep with ⟨tid, ps⟩
  rcases List.eq_nil_or_concat' ps with rfl | ⟨ps, ⟨type', value⟩, rfl⟩ <;>
    simp [incrementTop, push]

theorem ExecPoint.start_eq_push (tid : Nat) : ExecPoint.start tid = push ⟨tid, []⟩ .counter 0 := rfl

theorem ExecPoint.push_injective {ep ep' : ExecPoint} {type type' : ExecPointType}
    {value value' : Nat} (h : ep.push type value = ep'.push type' value') :
    ep = ep' ∧ type = type' ∧ value = value' := by
  rcases ep with ⟨tid, ps⟩
  rcases ep' with ⟨tid', qs⟩
  simp only [push, mk.injEq] at h
  obtain ⟨rfl, h⟩ := h
  obtain ⟨rfl, hlast⟩ := List.append_inj' h rfl
  simp_all

theorem LeavesAgree.apply {start ep : ExecPoint} {as bs pre post pre' post' : List Op}
    (h : LeavesAgree start as bs) (ha : as = pre ++ .leave ep :: post) (hb : bs = pre' ++ post')
    (hep : pointAfter start pre' = ep) : agree post post' = true := by
  subst ha hb
  have hleave := h pre.length (by simp) pre'.length (by simp)
  rw [List.getElem?_append_right (Nat.le_refl _), Nat.sub_self, List.take_left, List.drop_left,
    hep, List.drop_append, List.drop_eq_nil_of_le (Nat.le_succ _)] at hleave
  simpa [Op.left?] using hleave

theorem agree_of_pointAfter_eq {tid : Nat} {as bs : List Op} (ha : Chain (ExecPoint.start tid) as)
    (hb : Chain (ExecPoint.start tid) bs) (hstart : agree as bs = true)
    (h : LeavesAgree (ExecPoint.start tid) as bs) (h' : LeavesAgree (ExecPoint.start tid) bs as)
    (pre post pre' post' : List Op) (hsplit : as = pre ++ post) (hsplit' : bs = pre' ++ post')
    (hpoint : pointAfter (ExecPoint.start tid) pre = pointAfter (ExecPoint.start tid) pre') :
    agree post post' = true := by
  induction pre using List.reverseRecOn generalizing post pre' post' with
  | nil =>
    rcases List.eq_nil_or_concat' pre' with rfl | ⟨pre', b, rfl⟩
    · rw [List.nil_append] at hsplit hsplit'
      rwa [← hsplit, ← hsplit']
    · rw [List.append_assoc] at hsplit'
      rw [pointAfter_append, pointAfter_cons, pointAfter_nil, pointAfter_nil] at hpoint
      cases b with
      | leave ep =>
        rw [agree_comm]
        exact h'.apply hsplit' hsplit hpoint
      | note request =>
        exact absurd hpoint.symm (ExecPoint.incrementTop_ne_push_zero request.ep ⟨tid, []⟩ .counter)
      | nest request type value =>
        rw [ExecPoint.start_eq_push] at hpoint
        have hempty := (ExecPoint.push_injective hpoint).1
        simp [ExecPoint.push] at hempty
  | append_singleton pre a ih =>
    rw [List.append_assoc] at hsplit
    rw [pointAfter_append, pointAfter_cons, pointAfter_nil] at hpoint
    have hra : ∀ request, a.request? = some request → request.ep = pointAfter _ pre :=
      (chain_append.mp (hsplit ▸ ha : Chain _ (pre ++ a :: post))).2.1
    rcases List.eq_nil_or_concat' pre' with rfl | ⟨pre', b, rfl⟩
    · cases a with
      | leave ep => exact h.apply hsplit hsplit' hpoint.symm
      | note request =>
        exact absurd hpoint (ExecPoint.incrementTop_ne_push_zero request.ep ⟨tid, []⟩ .counter)
      | nest request type value =>
        rw [pointAfter_nil, ExecPoint.start_eq_push] at hpoint
        have hempty := (ExecPoint.push_injective hpoint).1
        simp [ExecPoint.push] at hempty
    · rw [List.append_assoc] at hsplit'
      have hrb : ∀ request, b.request? = some request → request.ep = pointAfter _ pre' :=
        (chain_append.mp (hsplit' ▸ hb : Chain _ (pre' ++ b :: post'))).2.1
      rw [pointAfter_append, pointAfter_cons, pointAfter_nil] at hpoint
      have hback := ih (a :: post) pre' (b :: post') hsplit hsplit'
      have hleft : ∀ ep, b = .leave ep → agree post post' = true := by
        rintro ep rfl
        have hsplit'' : as = (pre ++ [a]) ++ post := by rw [hsplit, List.append_assoc]
        rw [agree_comm]
        refine h'.apply hsplit' hsplit'' ?_
        rw [pointAfter_append, pointAfter_cons, pointAfter_nil, hpoint]
        rfl
      cases a with
      | leave ep =>
        have hsplit'' : bs = (pre' ++ [b]) ++ post' := by rw [hsplit', List.append_assoc]
        refine h.apply hsplit hsplit'' ?_
        rw [pointAfter_append, pointAfter_cons, pointAfter_nil, ← hpoint]
        rfl
      | note ra =>
        cases b with
        | leave ep => exact hleft ep rfl
        | note rb =>
          have hep := ExecPoint.incrementTop_injective hpoint
          rw [hra ra rfl, hrb rb rfl] at hep
          have hagree := hback hep
          rw [agree, Bool.and_eq_true] at hagree
          exact hagree.2
        | nest rb type value => exact absurd hpoint (ExecPoint.incrementTop_ne_push_zero _ _ _)
      | nest ra type value =>
        cases b with
        | leave ep => exact hleft ep rfl
        | note rb => exact absurd hpoint.symm (ExecPoint.incrementTop_ne_push_zero _ _ _)
        | nest rb type' value' =>
          obtain ⟨hep, rfl, rfl⟩ := ExecPoint.push_injective (ExecPoint.push_injective hpoint).1
          rw [hra ra rfl, hrb rb rfl] at hep
          have hagree : ra.sameKind rb = true ∧ agree post post' = true := by
            simpa [agree] using hback hep
          exact hagree.2

theorem sameKind_of_leavesAgree {tid : Nat} {as bs : List Op}
    (ha : Chain (ExecPoint.start tid) as) (hb : Chain (ExecPoint.start tid) bs)
    (hstart : agree as bs = true) (h : LeavesAgree (ExecPoint.start tid) as bs)
    (h' : LeavesAgree (ExecPoint.start tid) bs as) {a b : Request}
    (hra : a ∈ as.filterMap Op.request?) (hrb : b ∈ bs.filterMap Op.request?)
    (hep : a.ep = b.ep) : a.sameKind b = true := by
  obtain ⟨pre, op, post, rfl, hreq, hpoint⟩ := (mem_requests_of_chain ha).mp hra
  obtain ⟨pre', op', post', rfl, hreq', hpoint'⟩ := (mem_requests_of_chain hb).mp hrb
  have hagree := agree_of_pointAfter_eq ha hb hstart h h' pre (op :: post) pre' (op' :: post')
    rfl rfl (by rw [← hpoint, ← hpoint', hep])
  cases op <;> cases op' <;> simp_all [agree, Op.request?]

theorem leavesAgree_of_sameKind {start : ExecPoint} {as bs : List Op} (ha : Chain start as)
    (hb : Chain start bs) (hkind : ∀ a ∈ as.filterMap Op.request?,
      ∀ b ∈ bs.filterMap Op.request?, a.ep = b.ep → a.sameKind b = true) :
    LeavesAgree start as bs := by
  intro i hi j _ hleave
  have hsplit : as.take (i + 1) ++ as.drop (i + 1) = as := List.take_append_drop _ _
  have hsplit' : bs.take j ++ bs.drop j = bs := List.take_append_drop _ _
  obtain ⟨op, hop, hleft⟩ := Option.bind_eq_some_iff.mp hleave
  have hafter : pointAfter start (as.take (i + 1)) = pointAfter start (bs.take j) := by
    rw [List.take_add_one, hop, Option.toList_some, pointAfter_append, pointAfter_cons,
      pointAfter_nil]
    cases op <;> simp_all [Op.left?, Op.after]
  rw [← hsplit, chain_append] at ha
  rw [← hsplit', chain_append] at hb
  refine agree_of_sameKind ha.2 (hafter ▸ hb.2) fun a hmem b hmem' => hkind a ?_ b ?_
  · exact ((List.drop_sublist _ _).filterMap _).subset hmem
  · exact ((List.drop_sublist _ _).filterMap _).subset hmem'

/-! ## Programs -/

/-- What a thread does next: an annotation call that does not depend on anything else, or
a branch. -/
inductive Step where
  | call (call : Annotation)
  | branch
  deriving DecidableEq, Repr

/-- The next call of a thread is determined by the directions it has taken so far, and by
the number of calls since the last one; `none` is the end. -/
abbrev Program := List Nat → Nat → Option Step

/-- The calls of a run from some directions and calls on, up to any point of it. -/
inductive Program.Run (program : Program) : List Nat → Nat → List Annotation → Prop
  | stop {taken : List Nat} {n : Nat} : Run program taken n []
  | call {taken : List Nat} {n : Nat} {call : Annotation} {calls : List Annotation}
      (h : program taken n = some (.call call)) (hrest : Run program taken (n + 1) calls) :
      Run program taken n (call :: calls)
  | branch {taken : List Nat} {n direction : Nat} {calls : List Annotation}
      (h : program taken n = some .branch) (hrest : Run program (taken ++ [direction]) 0 calls) :
      Run program taken n (.branchDir direction :: calls)

theorem agree_of_run {program : Program} {taken : List Nat} {n : Nat} {as bs : List Annotation}
    (ha : program.Run taken n as) (hb : program.Run taken n bs) (c : Cursor) :
    agree (c.trace as) (c.trace bs) = true := by
  induction ha generalizing bs c with
  | stop => exact agree_nil_left _
  | call h _ ih =>
    cases hb with
    | stop => exact agree_nil_right _
    | call h' hrest' =>
      rw [h, Option.some.injEq, Step.call.injEq] at h'
      subst h'
      exact agree_append_left _ _ _ (ih hrest' _)
    | branch h' _ => simp [h] at h'
  | @branch taken n direction calls h _ ih =>
    cases hb with
    | stop => exact agree_nil_right _
    | call h' _ => simp [h] at h'
    | @branch _ _ direction' _ _ hrest' =>
      by_cases hdir : direction = direction'
      · subst hdir
        exact agree_append_left _ _ _ (ih hrest' _)
      · simp [Cursor.trace, Cursor.ops, agree, hdir]

def Behaves (program : Nat → Program) (calls : List (Nat × Annotation)) : Prop :=
  ∀ tid, (program tid).Run [] 0 (threadCalls tid calls)

theorem ExecPoint.popToLoop_tid (n : Nat) (ep : ExecPoint) : (ep.popToLoop n).tid = ep.tid := by
  induction n generalizing ep with
  | zero => rfl
  | succ n ih =>
    unfold popToLoop
    split_ifs
    · rfl
    · rw [ih, pop_tid]

theorem Cursor.tid_ops {c : Cursor} {call : Annotation} {op : Op} (h : op ∈ c.ops call) :
    op.after.tid = c.ep.tid ∧
      ∀ request, op.request? = some request → request.ep.tid = c.ep.tid := by
  cases call with
  | merge mcid =>
    cases hbranch : c.branches[mcid]? with
    | none => simp [ops, hbranch] at h
    | some branch =>
      simp only [ops, hbranch, List.mem_cons, List.not_mem_nil, or_false] at h
      rcases h with rfl | rfl <;> simp [Op.after, Op.request?, ExecPoint.rollback]
  | exitLoop =>
    simp only [ops, List.mem_cons, List.not_mem_nil, or_false] at h
    rcases h with rfl | rfl | rfl <;> simp [Op.after, Op.request?, ExecPoint.popToLoop_tid]
  | enterLoop =>
    simp only [ops, List.mem_cons, List.not_mem_nil, or_false] at h
    rcases h with rfl | rfl <;> simp [Op.after, Op.request?]
  | _ =>
    simp only [ops, List.mem_singleton] at h
    subst h
    simp [Op.after, Op.request?]

theorem Cursor.tid_move (c : Cursor) (call : Annotation) : (c.move call).ep.tid = c.ep.tid := by
  unfold move pointAfter
  cases h : (c.ops call).getLast? with
  | none => rfl
  | some op => exact (tid_ops (List.mem_of_getLast? h)).1

theorem Cursor.tid_of_mem_requests {c : Cursor} {calls : List Annotation} {request : Request}
    (h : request ∈ (c.trace calls).filterMap Op.request?) : request.ep.tid = c.ep.tid := by
  induction calls generalizing c with
  | nil => simp [trace] at h
  | cons call calls ih =>
    rw [trace, List.filterMap_append, List.mem_append] at h
    rcases h with h | h
    · obtain ⟨op, hop, hrequest⟩ := List.mem_filterMap.mp h
      exact (tid_ops hop).2 request hrequest
    · rw [ih h, tid_move]

theorem chain_threadTrace (tid : Nat) (calls : List (Nat × Annotation)) :
    Chain (ExecPoint.start tid) (threadTrace tid calls) :=
  Cursor.chain_trace ⟨ExecPoint.start tid, []⟩ _

/-- Leaving a branch or a loop never leads one of two runs to a point of the other where
they go on with different records. -/
def AllLeavesAgree (as bs : List (Nat × Annotation)) : Prop :=
  ∀ tid, LeavesAgree (ExecPoint.start tid) (threadTrace tid as) (threadTrace tid bs) ∧
    LeavesAgree (ExecPoint.start tid) (threadTrace tid bs) (threadTrace tid as)

private theorem sameKind_of_allLeavesAgree {program : Nat → Program}
    {as bs : List (Nat × Annotation)}
    (ha : Behaves program as) (hb : Behaves program bs) (h : AllLeavesAgree as bs)
    {s s' : Recorder} {a b : Request} (hmem : a ∈ (s.run as).requests)
    (hmem' : b ∈ (s'.run bs).requests) (hep : a.ep = b.ep) : a.sameKind b = true := by
  obtain ⟨tid, hmem⟩ := (mem_requests_run s as a).mp hmem
  obtain ⟨tid', hmem'⟩ := (mem_requests_run s' bs b).mp hmem'
  have htid : tid = tid' :=
    calc tid = a.ep.tid := (Cursor.tid_of_mem_requests hmem).symm
      _ = b.ep.tid := by rw [hep]
      _ = tid' := Cursor.tid_of_mem_requests hmem'
  subst htid
  have hstart := agree_of_run (ha tid) (hb tid) ⟨ExecPoint.start tid, []⟩
  exact sameKind_of_leavesAgree (chain_threadTrace tid as) (chain_threadTrace tid bs) hstart
    (h tid).1 (h tid).2 hmem hmem' hep

/-- Events at equal points have one type and one number of inputs. -/
def SameKinds (as bs : List Request) : Prop :=
  ∀ a ∈ as, ∀ b ∈ bs, a.ep = b.ep → a.event = b.event ∧ a.numinputs = b.numinputs

/-- Two runs record events of one kind at every common point exactly when all their leaves
agree. -/
theorem sameKind_iff {program : Nat → Program} {as bs : List (Nat × Annotation)}
    (ha : Behaves program as) (hb : Behaves program bs) (s s' : Recorder) :
    SameKinds (s.run as).requests (s'.run bs).requests ↔ AllLeavesAgree as bs := by
  constructor
  · intro hkind tid
    have hsame : ∀ a ∈ (threadTrace tid as).filterMap Op.request?,
        ∀ b ∈ (threadTrace tid bs).filterMap Op.request?, a.ep = b.ep → a.sameKind b = true := by
      intro a hmem b hmem' hep
      have hboth := hkind a ((mem_requests_run s as a).mpr ⟨tid, hmem⟩) b
        ((mem_requests_run s' bs b).mpr ⟨tid, hmem'⟩) hep
      simpa [Request.sameKind] using hboth
    refine ⟨leavesAgree_of_sameKind (chain_threadTrace tid as) (chain_threadTrace tid bs) hsame,
      leavesAgree_of_sameKind (chain_threadTrace tid bs) (chain_threadTrace tid as)
        fun b hmem' a hmem hep => ?_⟩
    rw [sameKind_comm]
    exact hsame a hmem b hmem' hep.symm
  · intro h a hmem b hmem' hep
    simpa [Request.sameKind] using sameKind_of_allLeavesAgree ha hb h hmem hmem' hep

/-! ## A return from nested loops -/

theorem threadCalls_map (tid : Nat) (calls : List Annotation) :
    threadCalls tid (calls.map fun call => (0, call)) = if tid = 0 then calls else [] := by
  by_cases htid : tid = 0
  · simp [threadCalls, List.filterMap_map, htid]
  · simp [threadCalls, List.filterMap_map, htid, Ne.symm htid]

theorem behaves_main {program : Program} {calls : List Annotation} (h : program.Run [] 0 calls) :
    Behaves (fun _ => program) (calls.map fun call => (0, call)) := by
  intro tid
  rw [threadCalls_map]
  split_ifs
  · exact h
  · exact .stop

/-- A loop in a loop with a branch.  Direction 0 leaves the inner loop, loads and leaves the
outer one; direction 1 does the same, or it leaves both loops at once. -/
def nestedLoops (returns : Bool) : Program
  | [], 0 => some (.call .enterLoop)
  | [], 1 => some (.call .enterLoop)
  | [], 2 => some .branch
  | [_], 0 => some (.call .exitLoop)
  | [0], 1 => some (.call (.event .load 0))
  | [0], 2 => some (.call .exitLoop)
  | [1], 1 => some (.call (if returns then .exitLoop else .event .load 0))
  | [1], 2 => if returns then none else some (.call .exitLoop)
  | _, _ => none

def breakCalls (direction : Nat) : List Annotation :=
  [.enterLoop, .enterLoop, .branchDir direction, .exitLoop, .event .load 0, .exitLoop]

def returnCalls : List Annotation := [.enterLoop, .enterLoop, .branchDir 1, .exitLoop, .exitLoop]

theorem sameKind_breakCalls :
    SameKinds (Recorder.empty.run ((breakCalls 0).map fun call => (0, call))).requests
      (Recorder.empty.run ((breakCalls 1).map fun call => (0, call))).requests := by
  have hbreak : ∀ direction < 2, (nestedLoops false).Run [] 0 (breakCalls direction) := by
    intro direction hlt
    interval_cases direction <;>
      exact .call rfl (.call rfl (.branch rfl (.call rfl (.call rfl (.call rfl .stop)))))
  apply (sameKind_iff (behaves_main (hbreak 0 (by decide))) (behaves_main (hbreak 1 (by decide)))
    Recorder.empty Recorder.empty).mpr
  intro tid
  simp only [threadTrace, threadCalls_map]
  split_ifs with htid
  · subst htid
    decide
  · exact ⟨by simp [LeavesAgree, Cursor.trace], by simp [LeavesAgree, Cursor.trace]⟩

/-- Behind the inner loop one run records the exit from the outer loop, the other a load. -/
theorem not_sameKind : Behaves (fun _ => nestedLoops true) (returnCalls.map fun call => (0, call)) ∧
    Behaves (fun _ => nestedLoops true) ((breakCalls 0).map fun call => (0, call)) ∧
    ¬ SameKinds (Recorder.empty.run (returnCalls.map fun call => (0, call))).requests
      (Recorder.empty.run ((breakCalls 0).map fun call => (0, call))).requests := by
  refine ⟨behaves_main (.call rfl (.call rfl (.branch rfl (.call rfl (.call rfl .stop))))),
    behaves_main (.call rfl (.call rfl (.branch rfl (.call rfl (.call rfl (.call rfl .stop)))))),
    fun hsame => ?_⟩
  have hkind := hsame ⟨⟨0, [(.counter, 0), (.loop, 0), (.counter, 3)]⟩, .loopexit, 0⟩
    ((mem_requests_run _ _ _).mpr ⟨0, by decide⟩)
    ⟨⟨0, [(.counter, 0), (.loop, 0), (.counter, 3)]⟩, .load, 0⟩
    ((mem_requests_run _ _ _).mpr ⟨0, by decide⟩) rfl
  exact absurd hkind.1 (by decide)

/-! ## Records of a graph -/

namespace Recorder

def kind (s : Recorder) (ep : ExecPoint) : Option (EventType × Nat) :=
  (s.records ep).map fun r => (r.event, r.numinputs)

theorem kind_update_map (s : Recorder) (record ep : ExecPoint) (f : EPRecord → EPRecord)
    (hf : ∀ r, (f r).event = r.event ∧ (f r).numinputs = r.numinputs) :
    (Function.update s.records record ((s.records record).map f) ep).map
        (fun r => (r.event, r.numinputs)) = s.kind ep := by
  by_cases hep : ep = record
  · subst hep
    rw [Function.update_self, Option.map_map, kind]
    congr 1
    funext r
    simp [(hf r).1, (hf r).2]
  · rw [Function.update_of_ne hep, kind]

@[simp] theorem kind_setNextRecord (s : Recorder) (record next ep : ExecPoint) :
    (s.setNextRecord record next).kind ep = s.kind ep :=
  kind_update_map s record ep _ fun _ => ⟨rfl, rfl⟩

@[simp] theorem kind_setChildRecord (s : Recorder) (record child ep : ExecPoint) :
    (s.setChildRecord record child).kind ep = s.kind ep :=
  kind_update_map s record ep _ fun _ => ⟨rfl, rfl⟩

@[simp] theorem kind_addEPValue (s : Recorder) (record : ExecPoint) (value : Nat)
    (ep : ExecPoint) : (s.addEPValue record value).kind ep = s.kind ep :=
  kind_update_map s record ep _ fun _ => ⟨rfl, rfl⟩

@[simp] theorem kind_link (s : Recorder) (last : Option ExecPoint) (record ep : ExecPoint) :
    (s.link last record).kind ep = s.kind ep := by
  cases last with
  | none => rfl
  | some last => exact kind_setNextRecord s last record ep

/-- A record keeps its kind, and a new record has the kind of a request. -/
def KindsFrom (s s' : Recorder) : Prop :=
  (∀ request ∈ s.requests, request ∈ s'.requests) ∧
    ∀ ep k, s'.kind ep = some k → s.kind ep = some k ∨
      ∃ request ∈ s'.requests, request.ep = ep ∧ (request.event, request.numinputs) = k

theorem KindsFrom.of_eq {s s' : Recorder} (hrequests : s'.requests = s.requests)
    (hkind : ∀ ep, s'.kind ep = s.kind ep) : KindsFrom s s' :=
  ⟨fun _ h => hrequests ▸ h, fun ep _ h => .inl (hkind ep ▸ h)⟩

theorem KindsFrom.trans {s s' s'' : Recorder} (h : KindsFrom s s') (h' : KindsFrom s' s'') :
    KindsFrom s s'' := by
  refine ⟨fun request hmem => h'.1 request (h.1 request hmem), fun ep k hk => ?_⟩
  rcases h'.2 ep k hk with hk | hnew
  · rcases h.2 ep k hk with hk | ⟨request, hmem, heq⟩
    · exact .inl hk
    · exact .inr ⟨request, h'.1 request hmem, heq⟩
  · exact .inr hnew

theorem kindsFrom_getOrCreateCurrRecord (s : Recorder) (tid : Nat) (et : EventType)
    (numinputs : Nat) : KindsFrom s (s.getOrCreateCurrRecord tid et numinputs) := by
  have hkind : ∀ ep, (s.getOrCreateCurrRecord tid et numinputs).kind ep =
      (s.createRecord tid et numinputs).kind ep := by
    intro ep
    unfold getOrCreateCurrRecord
    simp only
    split <;> split_ifs <;> first | rfl | exact kind_link _ _ _ _
  refine ⟨fun request hmem => ?_, fun ep k hk => ?_⟩
  · rw [getOrCreateCurrRecord_requests]
    exact List.mem_append_left _ hmem
  · rw [hkind] at hk
    unfold createRecord at hk
    split at hk
    · exact .inl hk
    · by_cases hep : ep = s.execpoint tid
      · subst hep
        simp only [kind, Function.update_self, Option.map_some, Option.some.injEq] at hk
        refine .inr ⟨⟨s.execpoint tid, et, numinputs⟩, ?_, rfl, hk⟩
        rw [getOrCreateCurrRecord_requests]
        simp
      · refine .inl ?_
        simpa [kind, Function.update_of_ne hep] using hk

private theorem kindsFrom_popLoop (s : Recorder) (tid n : Nat) : KindsFrom s (popLoop tid n s) := by
  refine .of_eq (popLoop_spec s tid n).2.2 fun ep => ?_
  induction n generalizing s with
  | zero => rfl
  | succ n ih =>
    unfold popLoop
    simp only
    split_ifs
    · rfl
    · rfl
    · rw [ih]
      rfl
    · rw [ih]
      rfl

theorem kindsFrom_setExecPoint (s : Recorder) (tid : Nat) (ep : ExecPoint) :
    KindsFrom s (s.setExecPoint tid ep) := .of_eq rfl fun _ => rfl

theorem kindsFrom_incrementTop (s : Recorder) (tid : Nat) : KindsFrom s (s.incrementTop tid) :=
  .of_eq rfl fun _ => rfl

private theorem kindsFrom_setNextRecord (s : Recorder) (record next : ExecPoint) :
    KindsFrom s (s.setNextRecord record next) :=
  .of_eq rfl fun ep => kind_setNextRecord s record next ep

theorem kindsFrom_setChildRecord (s : Recorder) (record child : ExecPoint) :
    KindsFrom s (s.setChildRecord record child) :=
  .of_eq rfl fun ep => kind_setChildRecord s record child ep

private theorem kindsFrom_exitLoop (s : Recorder) (tid : Nat) : KindsFrom s (s.exitLoop tid) := by
  have hbreak : KindsFrom s (s.breakLoop tid) :=
    ((kindsFrom_getOrCreateCurrRecord s tid _ 0).trans (kindsFrom_incrementTop _ tid)).trans
      (kindsFrom_popLoop _ tid _)
  refine hbreak.trans ?_
  unfold exitLoop labelLoop
  simp only
  have hlabel := (kindsFrom_incrementTop (s.breakLoop tid) tid).trans
    (kindsFrom_getOrCreateCurrRecord _ tid .label 0)
  refine .trans (.trans ?_ (kindsFrom_setNextRecord _ _ _)) (kindsFrom_incrementTop _ tid)
  split_ifs
  · exact hlabel.trans (kindsFrom_setNextRecord _ _ _)
  · exact hlabel

private theorem kindsFrom_exec (s : Recorder) (tid : Nat) (call : Annotation) :
    KindsFrom s (s.exec tid call) := by
  cases call with
  | event et numinputs =>
    exact (kindsFrom_getOrCreateCurrRecord s tid et numinputs).trans (kindsFrom_incrementTop _ tid)
  | branchDir direction =>
    refine (kindsFrom_getOrCreateCurrRecord s tid .branchdir 1).trans (.of_eq rfl fun ep => ?_)
    exact kind_addEPValue _ _ _ _
  | merge mcid =>
    simp only [exec, merge]
    cases (s.epvalues tid)[mcid]? with
    | none => exact .of_eq rfl fun _ => rfl
    | some value =>
      have hbefore : ∀ branch ep, KindsFrom s
          ((({ s with currbranch := branch } : Recorder).setExecPoint tid ep).incrementTop tid) :=
        fun _ _ => .of_eq rfl fun _ => rfl
      exact ((hbefore (Function.update s.currbranch tid (s.getBranch value.record))
        ((s.execpoint tid).rollback value.record.getSize)).trans
        (kindsFrom_getOrCreateCurrRecord _ tid .merge 0)).trans (kindsFrom_incrementTop _ tid)
  | enterLoop =>
    exact ((((kindsFrom_getOrCreateCurrRecord s tid .loopenter 0).trans
      (kindsFrom_setExecPoint _ tid _)).trans
      (kindsFrom_getOrCreateCurrRecord _ tid .loopstart 0)).trans
      (kindsFrom_setChildRecord _ _ _)).trans (kindsFrom_incrementTop _ tid)
  | exitLoop => exact kindsFrom_exitLoop s tid
  | loopIterate => exact kindsFrom_setExecPoint s tid _
  | threadCreate =>
    exact (kindsFrom_getOrCreateCurrRecord s tid .threadcreate 0).trans
      (kindsFrom_incrementTop _ tid)
  | threadStart parent =>
    have hstart := kindsFrom_getOrCreateCurrRecord s tid .threadbegin 0
    cases parent with
    | none => exact hstart.trans (kindsFrom_incrementTop _ tid)
    | some parent =>
      exact (hstart.trans (kindsFrom_setChildRecord _ _ _)).trans (kindsFrom_incrementTop _ tid)

private theorem kindsFrom_foldl (s : Recorder) (calls : List (Nat × Annotation)) :
    KindsFrom s (calls.foldl (fun s call => s.exec call.1 call.2) s) := by
  induction calls generalizing s with
  | nil => exact .of_eq rfl fun _ => rfl
  | cons call calls ih => exact (kindsFrom_exec s call.1 call.2).trans (ih _)

/-- Every record of a first run has the type and the number of inputs of a request. -/
theorem exists_request_of_record {calls : List (Nat × Annotation)} {ep : ExecPoint} {r : EPRecord}
    (h : (empty.run calls).records ep = some r) :
    ∃ request ∈ (empty.run calls).requests,
      request.ep = ep ∧ request.event = r.event ∧ request.numinputs = r.numinputs := by
  have hkind : (empty.run calls).kind ep = some (r.event, r.numinputs) := by simp [kind, h]
  rcases (kindsFrom_foldl empty.reset calls).2 ep _ hkind with hold | ⟨request, hmem, hep, heq⟩
  · cases hold
  · exact ⟨request, hmem, hep, (Prod.mk.inj heq).1, (Prod.mk.inj heq).2⟩

end Recorder

end SatCheck
