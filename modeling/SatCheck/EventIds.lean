import SatCheck.EventRecord
import Mathlib.Logic.Function.Basic
/-!
# Event ids

The ids of a memory operation are announced in one call and used in the next one, and in
between they lie in fields that all threads share.  Threads switch only inside
`check_preempt`, which an announcing call makes before it touches the fields.
-/

namespace SatCheck

namespace EventIds

/-- An annotated operation with the ids it announces, `0` for `MCID_NODEP`.  Branches,
functions, phis and equalities take their id in the call that uses it. -/
inductive Operation where
  | load (addr : Nat) (offset : UInt64)
  | store (addr : Nat) (offset : UInt64) (val : Nat)
  | rmw (op : AtomicOp) (addr : Nat) (offset : UInt64) (oldval valarg : Nat)
  | event (mcids : List Nat)
  deriving DecidableEq, Repr

/-- The offset and the ids that a record gets from an operation, those of `recordContext`
in its order. -/
structure Context where
  offset : UInt64
  addr : Nat
  mcids : List Nat
  deriving DecidableEq, Repr

def Operation.announced : Operation → Context
  | load addr offset => ⟨offset, addr, []⟩
  | store addr offset val => ⟨offset, addr, [val]⟩
  | rmw op addr offset oldval valarg =>
    ⟨offset, addr, if op = .add then [valarg] else [valarg, oldval]⟩
  | event mcids => ⟨0, 0, mcids⟩

/-- An `EPValue` of `EPList`.  `thread`, `operation` and `mcid` remember who appended it, for
which operation, and the id that the program got for it. -/
structure Entry where
  thread : Nat
  operation : Operation
  mcid : Nat
  context : Context
  deriving DecidableEq, Repr

/-- The fields of `MCExecution` behind the ids.  `EPList` holds `NULL` at place 0.  The list
lies in the snapshot heap, which is far too small for an id to wrap. -/
structure Ids where
  currid : Nat
  id_addr : Nat
  id_addr_offset : UInt64
  id_value : Nat
  id_oldvalue : Nat
  id_retval : Nat
  EPList : List (Option Entry)
  deriving DecidableEq, Repr

namespace Ids

def start : Ids := ⟨0, 0, 0, 0, 0, 0, [none]⟩

def getNextMCID (s : Ids) : Nat × Ids := (s.currid + 1, { s with currid := s.currid + 1 })

def loadMCID (s : Ids) (maddr : Nat) (offset : UInt64) : Nat × Ids :=
  let (id, s) := getNextMCID { s with id_addr := maddr, id_addr_offset := offset }
  (id, { s with id_retval := id })

/-- `storeMCID` behind its `check_preempt`, which the TSO build leaves out. -/
def storeMCID (s : Ids) (maddr : Nat) (offset : UInt64) (val : Nat) : Ids :=
  { s with id_addr := maddr, id_addr_offset := offset, id_value := val }

def nextRMW (s : Ids) (maddr : Nat) (offset : UInt64) (oldval valarg : Nat) : Nat × Ids :=
  let (id, s) := getNextMCID { s with
    id_addr := maddr, id_addr_offset := offset, id_oldvalue := oldval, id_value := valarg }
  (id, { s with id_retval := id })

def push_back (s : Ids) (entry : Entry) : Ids := { s with EPList := s.EPList ++ [some entry] }

def announce (s : Ids) : Operation → Option Nat × Ids
  | .load addr offset => ((s.loadMCID addr offset).1, (s.loadMCID addr offset).2)
  | .store addr offset val => (none, s.storeMCID addr offset val)
  | .rmw _ addr offset oldval valarg =>
    ((s.nextRMW addr offset oldval valarg).1, (s.nextRMW addr offset oldval valarg).2)
  | .event _ => (none, s)

/-- The operation itself: `load`, `store`, `rmw`, or a call that takes its own id.  The
program holds `mcid` since the announcement. -/
def perform (s : Ids) (thread mcid : Nat) (operation : Operation) : Ids :=
  match operation with
  | .load _ _ =>
    s.push_back ⟨thread, operation, mcid, ⟨s.id_addr_offset, s.id_addr, []⟩⟩
  | .store _ _ _ =>
    let context : Context := ⟨s.id_addr_offset, s.id_addr, [s.id_value]⟩
    let (stmcid, s) := s.getNextMCID
    s.push_back ⟨thread, operation, stmcid, context⟩
  | .rmw op _ _ _ _ =>
    s.push_back ⟨thread, operation, mcid, ⟨s.id_addr_offset, s.id_addr,
      if op = .add then [s.id_value] else [s.id_value, s.id_oldvalue]⟩⟩
  | .event mcids =>
    let (mcid, s) := s.getNextMCID
    s.push_back ⟨thread, operation, mcid, ⟨0, 0, mcids⟩⟩

end Ids

/-! ## Threads -/

/-- A call of the program, as far as ids and switches go: an operation with its announcement,
or a call that only lets other threads run (a fence, a waiting join, the end of a thread). -/
inductive Call where
  | operation (operation : Operation)
  | preempt
  deriving DecidableEq, Repr

/-- A call in the parts between which other threads can run. -/
inductive Part where
  | check_preempt
  | announce (operation : Operation)
  | perform (operation : Operation)
  deriving DecidableEq, Repr

def Operation.parts (tso : Bool) : Operation → List Part
  | event mcids => [.perform (event mcids)]
  | store addr offset val =>
    (if tso then [] else [.check_preempt]) ++
      [.announce (store addr offset val), .perform (store addr offset val)]
  | load addr offset =>
    [.check_preempt, .announce (load addr offset), .perform (load addr offset)]
  | rmw op addr offset oldval valarg =>
    [.check_preempt, .announce (rmw op addr offset oldval valarg),
      .perform (rmw op addr offset oldval valarg)]

def Call.parts (tso : Bool) : Call → List Part
  | .operation o => o.parts tso
  | .preempt => [.check_preempt]

/-- `returned` is the id that the last announcing call of a thread gave to the program. -/
structure Machine where
  current : Nat
  code : Nat → List Part
  returned : Nat → Nat
  ids : Ids

namespace Machine

def start (tso : Bool) (calls : Nat → List Call) : Machine where
  current := 0
  code t := (calls t).flatMap (Call.parts tso)
  returned _ := 0
  ids := .start

def goOn (m : Machine) (rest : List Part) : Machine :=
  { m with code := Function.update m.code m.current rest }

/-- The running thread makes its next step.  At a `check_preempt` any thread may be next. -/
def step (m : Machine) (next : Nat) : Machine :=
  match m.code m.current with
  | [] => m
  | .check_preempt :: rest => { m.goOn rest with current := next }
  | .announce operation :: rest =>
    { m.goOn rest with
      returned := Function.update m.returned m.current
        ((m.ids.announce operation).1.getD (m.returned m.current))
      ids := (m.ids.announce operation).2 }
  | .perform operation :: rest =>
    { m.goOn rest with
      ids := m.ids.perform m.current (m.returned m.current) operation }

def run (m : Machine) (nexts : List Nat) : Machine := nexts.foldl step m

/-! ## What holds between two steps -/

/-- Code that begins with a call, or behind the `check_preempt` of an announcing call. -/
def Resumable (tso : Bool) (code : List Part) : Prop :=
  ∃ calls : List Call, code = calls.flatMap (Call.parts tso) ∨
    ∃ operation : Operation,
      code = .announce operation :: .perform operation :: calls.flatMap (Call.parts tso)

def Announced (tso : Bool) (operation : Operation) (code : List Part) : Prop :=
  ∃ calls : List Call, code = .perform operation :: calls.flatMap (Call.parts tso)

end Machine

/-- The shared fields hold what was announced for the operation, and its id is the place
behind the list if it is already taken. -/
def Ids.Holds (s : Ids) (returned : Nat) : Operation → Prop
  | .load addr offset => s.id_addr = addr ∧ s.id_addr_offset = offset ∧
      returned = s.EPList.length ∧ s.currid = s.EPList.length
  | .store addr offset val => s.id_addr = addr ∧ s.id_addr_offset = offset ∧
      s.id_value = val ∧ s.currid + 1 = s.EPList.length
  | .rmw _ addr offset oldval valarg => s.id_addr = addr ∧ s.id_addr_offset = offset ∧
      s.id_value = valarg ∧ s.id_oldvalue = oldval ∧
      returned = s.EPList.length ∧ s.currid = s.EPList.length
  | .event _ => s.currid + 1 = s.EPList.length

/-- Every entry lies at the place its program was given, with the announced ids. -/
def Ids.Recorded (s : Ids) : Prop :=
  ∀ (i : Nat) (e : Entry), s.EPList[i]? = some (some e) →
    e.mcid = i ∧ e.context = e.operation.announced

def Ids.appended (s : Ids) (t : Nat) : List Operation :=
  s.EPList.filterMap fun entry => entry.bind fun e =>
    if e.thread = t then some e.operation else none

def Part.performed : Part → Option Operation
  | perform operation => some operation
  | _ => none

def Call.performed : Call → Option Operation
  | .operation o => some o
  | .preempt => none

/-! ## One step -/

open Machine

variable {tso : Bool} {rest : List Part} {operation : Operation} {s : Ids} {m : Machine}

theorem resumable_flatMap (calls : List Call) : Resumable tso (calls.flatMap (Call.parts tso)) :=
  ⟨calls, .inl rfl⟩

theorem Call.parts_cases (tso : Bool) (call : Call) :
    call.parts tso = [.check_preempt] ∨
    (∃ operation, call.parts tso = [.check_preempt, .announce operation, .perform operation]) ∨
    (∃ operation, call.parts tso = [.announce operation, .perform operation]) ∨
    ∃ mcids, call.parts tso = [.perform (.event mcids)] := by
  cases call with
  | preempt => exact .inl rfl
  | operation operation =>
    cases operation with
    | load addr offset => exact .inr (.inl ⟨_, rfl⟩)
    | store addr offset val =>
      cases tso with
      | true => exact .inr (.inr (.inl ⟨_, rfl⟩))
      | false => exact .inr (.inl ⟨_, rfl⟩)
    | rmw op addr offset oldval valarg => exact .inr (.inl ⟨_, rfl⟩)
    | event mcids => exact .inr (.inr (.inr ⟨mcids, rfl⟩))

/-- Code that goes on somewhere begins with a call or with an announced operation. -/
theorem Machine.Resumable.cases {part : Part} (h : Resumable tso (part :: rest)) :
    ∃ calls : List Call,
      (part = .check_preempt ∧ rest = calls.flatMap (Call.parts tso)) ∨
      (∃ operation, part = .check_preempt ∧
        rest = .announce operation :: .perform operation :: calls.flatMap (Call.parts tso)) ∨
      (∃ operation, part = .announce operation ∧
        rest = .perform operation :: calls.flatMap (Call.parts tso)) ∨
      ∃ mcids, part = .perform (.event mcids) ∧ rest = calls.flatMap (Call.parts tso) := by
  obtain ⟨calls, hcode | ⟨operation, hcode⟩⟩ := h
  · cases calls with
    | nil => simp at hcode
    | cons call calls =>
      refine ⟨calls, ?_⟩
      rw [List.flatMap_cons] at hcode
      rcases call.parts_cases tso with hparts | ⟨operation, hparts⟩ | ⟨operation, hparts⟩ |
        ⟨mcids, hparts⟩ <;> rw [hparts] at hcode <;>
        obtain ⟨rfl, rfl⟩ := List.cons.inj hcode
      · exact .inl ⟨rfl, rfl⟩
      · exact .inr (.inl ⟨operation, rfl, rfl⟩)
      · exact .inr (.inr (.inl ⟨operation, rfl, rfl⟩))
      · exact .inr (.inr (.inr ⟨mcids, rfl, rfl⟩))
  · obtain ⟨rfl, rfl⟩ := List.cons.inj hcode
    exact ⟨calls, .inr (.inr (.inl ⟨operation, rfl, rfl⟩))⟩

theorem Machine.Resumable.of_check_preempt (h : Resumable tso (.check_preempt :: rest)) :
    Resumable tso rest := by
  obtain ⟨calls, ⟨-, rfl⟩ | ⟨operation, -, rfl⟩ | ⟨_, hpart, -⟩ | ⟨_, hpart, -⟩⟩ := h.cases
  · exact resumable_flatMap calls
  · exact ⟨calls, .inr ⟨operation, rfl⟩⟩
  · simp at hpart
  · simp at hpart

theorem Machine.Resumable.of_announce (h : Resumable tso (.announce operation :: rest)) :
    Announced tso operation rest := by
  obtain ⟨calls, ⟨hpart, -⟩ | ⟨_, hpart, -⟩ | ⟨_, hpart, rfl⟩ | ⟨_, hpart, -⟩⟩ := h.cases
  · simp at hpart
  · simp at hpart
  · obtain rfl := Part.announce.inj hpart
    exact ⟨calls, rfl⟩
  · simp at hpart

/-- Only a call that takes its own id is performed without an announcement. -/
theorem Machine.Resumable.of_perform (h : Resumable tso (.perform operation :: rest)) :
    Announced tso operation (.perform operation :: rest) ∧ ∃ mcids, operation = .event mcids := by
  obtain ⟨calls, ⟨hpart, -⟩ | ⟨_, hpart, -⟩ | ⟨_, hpart, -⟩ | ⟨mcids, hpart, rfl⟩⟩ := h.cases
  · simp at hpart
  · simp at hpart
  · simp at hpart
  · exact ⟨⟨calls, rfl⟩, mcids, Part.perform.inj hpart⟩

/-- No id is taken and not yet appended. -/
def Ids.Settled (s : Ids) : Prop := s.currid + 1 = s.EPList.length

theorem Ids.Settled.announce (h : s.Settled) (returned : Nat) (operation : Operation) :
    (s.announce operation).2.Holds ((s.announce operation).1.getD returned) operation := by
  have hsettled : s.currid + 1 = s.EPList.length := h
  cases operation with
  | load addr offset => exact ⟨rfl, rfl, hsettled, hsettled⟩
  | store addr offset val => exact ⟨rfl, rfl, rfl, hsettled⟩
  | rmw op addr offset oldval valarg => exact ⟨rfl, rfl, rfl, rfl, hsettled, hsettled⟩
  | event mcids => exact hsettled

theorem Ids.announce_EPList (s : Ids) (operation : Operation) :
    (s.announce operation).2.EPList = s.EPList := by
  cases operation <;> rfl

theorem Ids.Recorded.push (h : s.Recorded) {s' : Ids} {e : Entry}
    (hlist : s'.EPList = s.EPList ++ [some e]) (hmcid : e.mcid = s.EPList.length)
    (hcontext : e.context = e.operation.announced) : s'.Recorded := by
  intro i e' he'
  rw [hlist] at he'
  rcases Nat.lt_trichotomy i s.EPList.length with hlt | heq | hgt
  · rw [List.getElem?_append_left hlt] at he'
    exact h i e' he'
  · rw [heq, List.getElem?_concat_length] at he'
    obtain rfl := Option.some_inj.mp (Option.some_inj.mp he')
    exact ⟨hmcid.trans heq.symm, hcontext⟩
  · rw [List.getElem?_eq_none (by simp; omega)] at he'
    exact absurd he' (by simp)

theorem Ids.Holds.perform {returned : Nat} (h : s.Holds returned operation)
    (hs : s.Recorded) (thread : Nat) :
    (s.perform thread returned operation).Settled ∧
      (s.perform thread returned operation).Recorded := by
  cases operation with
  | load addr offset =>
    obtain ⟨haddr, hoffset, hreturned, hcurrid⟩ := h
    refine ⟨?_, hs.push rfl hreturned ?_⟩
    · simp [Settled, Ids.perform, push_back, hcurrid]
    · simp [Operation.announced, haddr, hoffset]
  | store addr offset val =>
    obtain ⟨haddr, hoffset, hval, hcurrid⟩ := h
    refine ⟨?_, hs.push rfl hcurrid ?_⟩
    · simp [Settled, Ids.perform, push_back, getNextMCID, hcurrid]
    · simp [Operation.announced, haddr, hoffset, hval]
  | rmw op addr offset oldval valarg =>
    obtain ⟨haddr, hoffset, hval, hold, hreturned, hcurrid⟩ := h
    refine ⟨?_, hs.push rfl hreturned ?_⟩
    · simp [Settled, Ids.perform, push_back, hcurrid]
    · simp [Operation.announced, haddr, hoffset, hval, hold]
  | event mcids =>
    have hcurrid : s.currid + 1 = s.EPList.length := h
    refine ⟨?_, hs.push rfl hcurrid rfl⟩
    simp [Settled, Ids.perform, push_back, getNextMCID, hcurrid]

/-! ## Runs -/

/-- Every other thread waits in front of a call or of an announcement, and the running one may
also stand between an announcement and its operation. -/
structure Inv (tso : Bool) (m : Machine) : Prop where
  others : ∀ t ≠ m.current, Resumable tso (m.code t)
  running : (Resumable tso (m.code m.current) ∧ m.ids.Settled) ∨
    ∃ operation, Announced tso operation (m.code m.current) ∧
      m.ids.Holds (m.returned m.current) operation
  recorded : m.ids.Recorded

theorem inv_start (tso : Bool) (calls : Nat → List Call) : Inv tso (Machine.start tso calls) where
  others t _ := resumable_flatMap (calls t)
  running := .inl ⟨resumable_flatMap (calls 0), rfl⟩
  recorded := by
    intro i e h
    cases i <;> simp [Machine.start, Ids.start] at h

theorem goOn_code_self (m : Machine) (rest : List Part) : (m.goOn rest).code m.current = rest :=
  Function.update_self ..

theorem goOn_code_of_ne {t : Nat} (h : t ≠ m.current) : (m.goOn rest).code t = m.code t :=
  Function.update_of_ne h ..

theorem Inv.others_goOn (h : Inv tso m) (rest : List Part) :
    ∀ t ≠ m.current, Resumable tso ((m.goOn rest).code t) := by
  intro t ht
  rw [goOn_code_of_ne ht]
  exact h.others t ht

theorem Inv.check_preempt (h : Inv tso m) (hcode : m.code m.current = .check_preempt :: rest)
    (next : Nat) : Inv tso { m.goOn rest with current := next } := by
  obtain ⟨hresumable, hsettled⟩ | ⟨operation, ⟨calls, hannounced⟩, -⟩ := h.running
  · rw [hcode] at hresumable
    have hall : ∀ t, Resumable tso ((m.goOn rest).code t) := by
      intro t
      by_cases ht : t = m.current
      · rw [ht, goOn_code_self]
        exact hresumable.of_check_preempt
      · exact h.others_goOn rest t ht
    exact ⟨fun t _ => hall t, .inl ⟨hall next, hsettled⟩, h.recorded⟩
  · simp [hcode] at hannounced

theorem Inv.announce (h : Inv tso m) (hcode : m.code m.current = .announce operation :: rest) :
    Inv tso { m.goOn rest with
      returned := Function.update m.returned m.current
        ((m.ids.announce operation).1.getD (m.returned m.current))
      ids := (m.ids.announce operation).2 } := by
  obtain ⟨hresumable, hsettled⟩ | ⟨operation', ⟨calls, hannounced⟩, -⟩ := h.running
  · rw [hcode] at hresumable
    refine ⟨h.others_goOn rest, .inr ⟨operation, ?_, ?_⟩, ?_⟩
    · show Announced tso operation ((m.goOn rest).code m.current)
      rw [goOn_code_self]
      exact hresumable.of_announce
    · show Ids.Holds _ (Function.update m.returned m.current _ m.current) operation
      rw [Function.update_self]
      exact hsettled.announce _ operation
    · intro i e he
      rw [Ids.announce_EPList] at he
      exact h.recorded i e he
  · simp [hcode] at hannounced

theorem Inv.perform (h : Inv tso m) (hcode : m.code m.current = .perform operation :: rest) :
    Inv tso { m.goOn rest with
      ids := m.ids.perform m.current (m.returned m.current) operation } := by
  have hholds : Announced tso operation (m.code m.current) ∧
      m.ids.Holds (m.returned m.current) operation := by
    obtain ⟨hresumable, hsettled⟩ | ⟨operation', ⟨calls, hannounced⟩, hholds⟩ := h.running
    · rw [hcode] at hresumable ⊢
      obtain ⟨hannounced, mcids, rfl⟩ := hresumable.of_perform
      exact ⟨hannounced, hsettled⟩
    · rw [hcode] at hannounced ⊢
      obtain ⟨hsame, rfl⟩ := List.cons.inj hannounced
      obtain rfl := Part.perform.inj hsame
      exact ⟨⟨calls, rfl⟩, hholds⟩
  obtain ⟨⟨calls, hannounced⟩, hholds⟩ := hholds
  obtain ⟨hsettled, hrecorded⟩ := hholds.perform h.recorded m.current
  rw [hcode] at hannounced
  obtain rfl := (List.cons.inj hannounced).2
  refine ⟨h.others_goOn _, .inl ⟨?_, hsettled⟩, hrecorded⟩
  show Resumable tso ((m.goOn _).code m.current)
  rw [goOn_code_self]
  exact resumable_flatMap calls

theorem Inv.step (h : Inv tso m) (next : Nat) : Inv tso (m.step next) := by
  unfold Machine.step
  split
  case h_1 => exact h
  case h_2 rest hcode => exact h.check_preempt hcode next
  case h_3 operation rest hcode => exact h.announce hcode
  case h_4 operation rest hcode => exact h.perform hcode

theorem Inv.run (h : Inv tso m) (nexts : List Nat) : Inv tso (m.run nexts) := by
  induction nexts generalizing m with
  | nil => exact h
  | cons next nexts ih => exact ih (h.step next)

/-! ## Nothing is lost -/

theorem Ids.appended_announce (s : Ids) (operation : Operation) (t : Nat) :
    (s.announce operation).2.appended t = s.appended t := by
  unfold appended
  rw [announce_EPList]

theorem Ids.appended_perform (s : Ids) (thread mcid : Nat) (operation : Operation) (t : Nat) :
    (s.perform thread mcid operation).appended t =
      s.appended t ++ if thread = t then [operation] else [] := by
  have hpush : ∃ e : Entry, (s.perform thread mcid operation).EPList = s.EPList ++ [some e] ∧
      e.thread = thread ∧ e.operation = operation := by
    cases operation <;> exact ⟨_, rfl, rfl, rfl⟩
  obtain ⟨e, hlist, hthread, hoperation⟩ := hpush
  unfold appended
  rw [hlist, List.filterMap_append]
  congr 1
  by_cases ht : thread = t <;> simp [hthread, hoperation, ht]

private theorem appended_step (m : Machine) (next t : Nat) :
    (m.step next).ids.appended t ++ ((m.step next).code t).filterMap Part.performed =
      m.ids.appended t ++ (m.code t).filterMap Part.performed := by
  have hcode : ∀ part rest, m.code m.current = part :: rest →
      (m.code t).filterMap Part.performed =
        (if m.current = t then part.performed.toList else []) ++
          ((m.goOn rest).code t).filterMap Part.performed := by
    intro part rest hcode
    by_cases ht : m.current = t
    · rw [if_pos ht, ← ht, hcode, goOn_code_self]
      cases part <;> rfl
    · rw [if_neg ht, goOn_code_of_ne (Ne.symm ht)]
      rfl
  unfold Machine.step
  split
  case h_1 => rfl
  case h_2 rest h =>
    rw [hcode _ rest h]
    simp only [Part.performed, Option.toList_none, ite_self, List.nil_append]
    rfl
  case h_3 operation rest h =>
    rw [hcode _ rest h, Ids.appended_announce]
    simp [Part.performed]
  case h_4 operation rest h =>
    rw [hcode _ rest h, Ids.appended_perform, List.append_assoc]
    rfl

private theorem appended_run (m : Machine) (nexts : List Nat) (t : Nat) :
    (m.run nexts).ids.appended t ++ ((m.run nexts).code t).filterMap Part.performed =
      m.ids.appended t ++ (m.code t).filterMap Part.performed := by
  induction nexts generalizing m with
  | nil => rfl
  | cons next nexts ih => exact (ih (m.step next)).trans (appended_step m next t)

private theorem performed_start (tso : Bool) (calls : List Call) :
    (calls.flatMap (Call.parts tso)).filterMap Part.performed =
      calls.filterMap Call.performed := by
  induction calls with
  | nil => rfl
  | cons call calls ih =>
    rw [List.flatMap_cons, List.filterMap_append, ih]
    cases call with
    | preempt => rfl
    | operation operation => cases operation <;> cases tso <;> rfl

/-- In every state of every interleaving, each appended value lies at the id of its operation
and has the ids announced for it, and the operations a thread has appended are its own ones in
the order of its calls. -/
theorem recorded_of_run (tso : Bool) (calls : Nat → List Call) (nexts : List Nat) :
    ((Machine.start tso calls).run nexts).ids.Recorded ∧
      ∀ t, ((Machine.start tso calls).run nexts).ids.appended t <+:
        (calls t).filterMap Call.performed := by
  refine ⟨((inv_start tso calls).run nexts).recorded, ?_⟩
  intro t
  rw [← performed_start tso]
  exact ⟨_, appended_run (Machine.start tso calls) nexts t⟩

end EventIds

end SatCheck
