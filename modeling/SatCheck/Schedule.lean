import SatCheck.ExecPoint
import Mathlib.Algebra.GroupWithZero.Nat
/-!
# Building a schedule

`ScheduleBuilder::buildSchedule` for a given order of the memory actions (SC build).
The recorded path of a thread is the sequence of records that `processRecord` and
`getNextRecord` walk for the solution; a pointer into it is a position.
-/

namespace SatCheck

/-- A record on a path, by what the builder and the replay do at it. -/
inductive PathEvent where
  | memory (ep : ExecPoint)
  | threadCreate (ep : ExecPoint) (child : Nat)
  | threadJoin (ep : ExecPoint) (target : Nat)
  | other (ep : ExecPoint)
  deriving DecidableEq, Repr

namespace PathEvent

def ep : PathEvent → ExecPoint
  | memory ep | threadCreate ep _ | threadJoin ep _ | other ep => ep

def memory? : PathEvent → Option ExecPoint
  | memory ep => some ep
  | _ => none

/-- `b` is recorded after `a` in one thread. -/
def Precedes (a b : PathEvent) : Prop :=
  a.ep.compare b.ep = .after ∧ b.ep.compare a.ep = .before

end PathEvent

def memories (path : List PathEvent) : List ExecPoint :=
  path.filterMap PathEvent.memory?

/-- The recorded paths of all threads.  The path of the main thread starts at its first
annotated event; thread ids are given out in the order of creation, so a thread has a
smaller id than the threads it creates. -/
structure RecordedPaths where
  num : Nat
  path : Nat → List PathEvent
  num_pos : 0 < num
  tid_eq : ∀ t < num, ∀ e ∈ path t, e.ep.tid = t
  increasing : ∀ t < num, (path t).Pairwise PathEvent.Precedes
  created_lt : ∀ t < num, ∀ ep child, .threadCreate ep child ∈ path t →
    t < child ∧ child < num
  created : ∀ t < num, 0 < t → ∃ c < num, ∃ ep, .threadCreate ep t ∈ path c
  created_once : ∀ t < num, ∀ t' < num, ∀ ep ep' child, .threadCreate ep child ∈ path t →
    .threadCreate ep' child ∈ path t' → t = t' ∧ ep = ep'

namespace RecordedPaths

variable (paths : RecordedPaths)

def Action (f : ExecPoint) : Prop :=
  ∃ t < paths.num, .memory f ∈ paths.path t

/-- `u` is `child` or is created, directly or not, by it. -/
inductive Descends (child : Nat) : Nat → Prop
  | refl : Descends child child
  | step {t u : Nat} (h : Descends child t) (ht : t < paths.num) (ep : ExecPoint)
      (hcreate : .threadCreate ep u ∈ paths.path t) : Descends child u

/-- A strict total order on the memory actions that extends every path and places the
actions of a thread before what follows a join on it. -/
structure OrderOk (order : ExecPoint → ExecPoint → Bool) : Prop where
  irrefl : ∀ f, paths.Action f → order f f = false
  trans : ∀ f g h, paths.Action f → paths.Action g → paths.Action h →
    order f g = true → order g h = true → order f h = true
  total : ∀ f g, paths.Action f → paths.Action g → f ≠ g → order f g = true ∨ order g f = true
  program : ∀ t < paths.num, (paths.path t).Pairwise fun a b =>
    ∀ f g, a = .memory f → b = .memory g → order f g = true
  joined : ∀ t < paths.num, ∀ pre ep target post,
    paths.path t = pre ++ .threadJoin ep target :: post → target < paths.num →
    ∀ f ∈ memories (paths.path target), ∀ g ∈ memories post, order f g = true

/-- The actions of a thread follow what its creator did before creating it. -/
def AfterCreator (order : ExecPoint → ExecPoint → Bool) : Prop :=
  ∀ t < paths.num, ∀ pre ep child post, paths.path t = pre ++ .threadCreate ep child :: post →
    ∀ f ∈ memories pre, ∀ g ∈ memories (paths.path child), order f g = true

/-- The actions of a thread follow what its creator, the creator of its creator and so on
did before the creations that lead to it. -/
def AfterCreators (order : ExecPoint → ExecPoint → Bool) : Prop :=
  ∀ t < paths.num, ∀ pre ep child post, paths.path t = pre ++ .threadCreate ep child :: post →
    ∀ u < paths.num, paths.Descends child u →
      ∀ f ∈ memories pre, ∀ g ∈ memories (paths.path u), order f g = true

end RecordedPaths

structure WaitPair where
  stop : ExecPoint
  wait : ExecPoint
  deriving DecidableEq, Repr

/-- An entry of `threads` with the one of `lastoperation`: the thread, the position of
its record, and the last memory action taken from it. -/
structure Slot where
  thread : Nat
  pos : Nat
  lastoperation : Option ExecPoint
  deriving DecidableEq, Repr

namespace ScheduleBuilder

variable (paths : RecordedPaths) (order : ExecPoint → ExecPoint → Bool)

/-- The record of a slot; `none` is the end of the path. -/
def record (slot : Slot) : Option PathEvent := (paths.path slot.thread)[slot.pos]?

def Slot.next (slot : Slot) : Slot := { slot with pos := slot.pos + 1 }

/-- The loop that gets rid of other records: `done` has been passed, `todo` is still to
be looked at, and new threads join its end. -/
def settle : Nat → List Slot → List Slot → List Slot
  | 0, done, todo => done ++ todo
  | _ + 1, done, [] => done
  | fuel + 1, done, slot :: todo =>
      match record paths slot with
      | none => settle fuel (done ++ [slot]) todo
      | some (.memory _) => settle fuel (done ++ [slot]) todo
      | some (.threadCreate _ child) =>
          settle fuel done ((Slot.next slot :: todo) ++ [⟨child, 0, none⟩])
      | some (.threadJoin _ _) => settle fuel done (Slot.next slot :: todo)
      | some (.other _) => settle fuel done (Slot.next slot :: todo)

/-- Steps that are enough for `settle`. -/
def settleFuel : Nat :=
  ((List.range paths.num).map fun t => (paths.path t).length).sum + paths.num + 1

def earliest (heads : List ExecPoint) : Option ExecPoint :=
  heads.foldl (fun best head =>
    match best with
    | none => some head
    | some best => if order head best then some head else some best) none

def head (slot : Slot) : Option ExecPoint :=
  (record paths slot).bind PathEvent.memory?

/-- The wait pairs added when `first` goes first. -/
def addedPairs (first : ExecPoint) (slots : List Slot) : List WaitPair :=
  slots.filterMap fun slot =>
    if head paths slot = some first then none
    else slot.lastoperation.map fun last => ⟨first, last⟩

def advance (first : ExecPoint) (slots : List Slot) : List Slot :=
  slots.map fun slot =>
    if head paths slot = some first then
      { slot with pos := slot.pos + 1, lastoperation := some first }
    else slot

/-- The rounds of the outer loop: the action that goes first with its wait pairs. -/
def rounds : Nat → List Slot → List (ExecPoint × List WaitPair)
  | 0, _ => []
  | fuel + 1, slots =>
      let slots := settle paths (settleFuel paths) [] slots
      match earliest order (slots.filterMap (head paths)) with
      | none => []
      | some first =>
          (first, addedPairs paths first slots) :: rounds fuel (advance paths first slots)

/-- Rounds that are enough: one for every memory action and the last one. -/
def roundsFuel : Nat :=
  ((List.range paths.num).map fun t => (memories (paths.path t)).length).sum + 1

def scheduleRounds : List (ExecPoint × List WaitPair) :=
  rounds paths order (roundsFuel paths) [⟨0, 0, none⟩]

def buildSchedule : List WaitPair :=
  (scheduleRounds paths order).flatMap Prod.snd

end ScheduleBuilder

end SatCheck
