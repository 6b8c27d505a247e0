import SatCheck.Constraint
import SatCheck.ExecPoint
/-!
# The order table

The part of `ConstGen` that keeps the memory actions of each thread and one
order constraint for every two actions of different threads (SC build).  A
record is named by its execution point, which is its key in `EPTable`.
-/

namespace SatCheck

/-- A recorded THREADJOIN with the thread it joins, unset until `setJoinThread`. -/
structure JoinRecord where
  ep : ExecPoint
  jointhread : Option Nat
  deriving DecidableEq, Repr

/-- What `orderThread` reads from `MCExecution`: the THREADCREATE record that
started each thread, and `joinvec`. -/
structure ThreadLinks where
  parentRecord : Nat → Option ExecPoint
  joins : List JoinRecord

def ThreadLinks.orderThread (links : ThreadLinks) (first second : ExecPoint) : Bool :=
  (match links.parentRecord second.tid with
    | some start => start.tid == first.tid && first.compare start == .after
    | none => false) ||
  links.joins.any fun join =>
    join.ep.tid == second.tid && join.ep.compare second == .after &&
      join.jointhread == some first.tid

structure RecPair where
  epr1 : ExecPoint
  epr2 : ExecPoint
  constraint : Constraint

/-- `RecPairEquals`: the pair is unordered. -/
def RecPair.equals (p : RecPair) (r1 r2 : ExecPoint) : Bool :=
  (p.epr1 == r1 && p.epr2 == r2) || (p.epr1 == r2 && p.epr2 == r1)

structure OrderTable where
  threadactions : List (List ExecPoint)
  rpt : List RecPair
  varindex : Nat

namespace OrderTable

def empty (varindex : Nat) : OrderTable := ⟨[], [], varindex⟩

def getNewVar (s : OrderTable) : Constraint × OrderTable :=
  (.var s.varindex, { s with varindex := s.varindex + 1 })

def getRecPair (s : OrderTable) (first second : ExecPoint) : Option RecPair :=
  s.rpt.find? fun p => p.equals first second

def createOrderConstraint (links : ThreadLinks) (s : OrderTable)
    (first second : ExecPoint) : OrderTable :=
  match s.getRecPair first second with
  | some _ => s
  | none =>
      if links.orderThread first second then
        { s with rpt := s.rpt ++ [⟨first, second, .ctrue⟩] }
      else if links.orderThread second first then
        { s with rpt := s.rpt ++ [⟨first, second, .cfalse⟩] }
      else
        let (var, s) := s.getNewVar
        { s with rpt := s.rpt ++ [⟨first, second, var⟩] }

/-- `threadactions` with an empty vector for every thread up to `thread`. -/
def resize (vecs : List (List ExecPoint)) (thread : Nat) : List (List ExecPoint) :=
  vecs ++ List.replicate (thread + 1 - vecs.length) []

/-- `insertAction`, SC build: the record goes to the end of its thread's vector
and gets an order constraint with every action of every other thread. -/
def insertAction (links : ThreadLinks) (s : OrderTable) (record : ExecPoint) : OrderTable :=
  let vecs := (resize s.threadactions record.tid).modify record.tid (· ++ [record])
  let others := (vecs.zipIdx.filter fun p => p.2 ≠ record.tid).flatMap Prod.fst
  others.foldl (fun s oldrec => s.createOrderConstraint links oldrec record)
    { s with threadactions := vecs }

/-- What the first traversal does to the table at one record: a memory action is
inserted, every other record at most takes variables for its own encoding. -/
inductive Visit where
  | action (record : ExecPoint)
  | newVars (num : Nat)

def visit (links : ThreadLinks) (s : OrderTable) : Visit → OrderTable
  | .action record => s.insertAction links record
  | .newVars num => { s with varindex := s.varindex + num }

def traverse (links : ThreadLinks) (visits : List Visit) : OrderTable :=
  visits.foldl (visit links) (empty 1)

/-- `getOrderConstraint`, SC build.  The lookup never fails for inserted actions
(`exists_getRecPair`); the C++ code asserts it. -/
def getOrderConstraint (s : OrderTable) (first second : ExecPoint) : Constraint :=
  if first.tid = second.tid then
    if first.compare second = .after then .ctrue else .cfalse
  else
    match s.getRecPair first second with
    | some rpc => if rpc.epr1 ≠ first then rpc.constraint.negate else rpc.constraint
    | none => .cfalse

/-- The two-thread form of `genTransOrderConstraints`. -/
def genTransOrderConstraints₂ (s : OrderTable) (t1vec t2vec : List ExecPoint) :
    List Constraint :=
  t1vec.zipIdx.flatMap fun (t1rec, t1i) =>
    t2vec.zipIdx.flatMap fun (t2rec, t2i) =>
      let c21 := s.getOrderConstraint t2rec t1rec
      if c21.isTrue then []
      else
        ((t2vec.drop (t2i + 1)).map fun t3rec =>
          .or [c21, s.getOrderConstraint t1rec t3rec]) ++
        ((t1vec.take t1i).map fun t0rec =>
          .or [c21, s.getOrderConstraint t0rec t2rec])

def genTransOrderConstraint (s : OrderTable) (t1rec t2rec t3rec : ExecPoint) :
    List Constraint :=
  let c21 := s.getOrderConstraint t2rec t1rec
  let c32 := s.getOrderConstraint t3rec t2rec
  let c13 := s.getOrderConstraint t1rec t3rec
  let c12 := s.getOrderConstraint t1rec t2rec
  let c23 := s.getOrderConstraint t2rec t3rec
  let c31 := s.getOrderConstraint t3rec t1rec
  [.or [c21, c32, c13], .or [c12, c23, c31]]

/-- The three-thread form of `genTransOrderConstraints`. -/
def genTransOrderConstraints₃ (s : OrderTable) (t1vec t2vec t3vec : List ExecPoint) :
    List Constraint :=
  t1vec.flatMap fun t1rec =>
    t2vec.flatMap fun t2rec =>
      t3vec.flatMap fun t3rec => s.genTransOrderConstraint t1rec t2rec t3rec

/-- `genTransOrderConstraints`: every constraint it hands to `addConstraint`. -/
def genTransOrderConstraints (s : OrderTable) : List Constraint :=
  s.threadactions.zipIdx.flatMap fun (t1vec, t1) =>
    (s.threadactions.take t1).zipIdx.flatMap fun (t2vec, t2) =>
      s.genTransOrderConstraints₂ t1vec t2vec ++
      s.genTransOrderConstraints₂ t2vec t1vec ++
      (s.threadactions.take t2).flatMap fun t3vec =>
        s.genTransOrderConstraints₃ t1vec t2vec t3vec

end OrderTable

end SatCheck
