import SatCheck.Traversal
import SatCheck.OrderTable
import SatCheck.Library.Pruning
import Mathlib.Order.Basic
import Mathlib.Order.Nat
import Mathlib.Order.Lattice
import Mathlib.Algebra.GroupWithZero.Nat
/-!
# Conflicting stores

A store that lies between a store and a load of its value must not write to their address.
`computeConflictSet` leaves out the stores that another one covers.
-/

namespace SatCheck

/-- The branches that the loop of `subsumesExecutionConstraint` goes through, for at most `fuel`
steps outwards. -/
def EventGraph.branchChain (g : EventGraph) : Nat → Option EPValue → List EPValue
  | 0, _ => []
  | fuel + 1, branch =>
      match branch with
      | none => []
      | some branch => branch :: g.branchChain fuel (g.getBranch branch.record)

/-- The tables of `ConstGen` that are read for the conflicts.  `getSet` has the addresses of a
record. -/
structure ConstGen where
  graph : EventGraph
  traversal : Traversal
  order : OrderTable
  getSet : ExecPoint → List UInt64

namespace ConstGen

variable (cg : ConstGen)

def isBefore (first second : ExecPoint) : Bool :=
  (cg.order.getOrderConstraint first second).isTrue

/-- Every branch of a chain has a smaller point than the records inside. -/
def subsumesExecutionConstraint (recordsubsumes record : ExecPoint) : Bool :=
  (match cg.graph.getBranch recordsubsumes with
    | none => true
    | some branchsubsumes =>
        decide (branchsubsumes ∈
          cg.graph.branchChain record.getSize (cg.graph.getBranch record))) &&
  (cg.traversal.exits recordsubsumes).all fun rec => cg.isBefore rec record

def commonAddresses (store load : ExecPoint) : List UInt64 :=
  (cg.getSet store).filter fun addr => decide (addr ∈ cg.getSet load)

/-- `checkstore` stores to the address whenever `conflictstore` is executed. -/
def mustStore (commonaddr : UInt64) (checkstore conflictstore : ExecPoint) : Bool :=
  decide ((cg.getSet checkstore).length = 1 ∧ commonaddr ∈ cg.getSet checkstore) &&
    cg.subsumesExecutionConstraint checkstore conflictstore

/-- `pruneconflictstore`: a store of the set covers the conflicting one, behind `store` or in
front of `load`. -/
def pruneconflictstore (store load : ExecPoint) (commonaddr : UInt64) (srscopy : List ExecPoint)
    (conflictstore : ExecPoint) : Bool :=
  (cg.isBefore store conflictstore && srscopy.any fun checkstore =>
    cg.isBefore store checkstore && cg.isBefore checkstore conflictstore &&
      cg.mustStore commonaddr checkstore conflictstore) ||
  (cg.isBefore conflictstore load && srscopy.any fun checkstore =>
    cg.isBefore conflictstore checkstore && cg.isBefore checkstore load &&
      cg.mustStore commonaddr checkstore conflictstore)

/-- `none` stands for `NULL`, with more than one common address. -/
def computeConflictSet (store load : ExecPoint) (baseset : List ExecPoint) :
    Option (List ExecPoint) :=
  match cg.commonAddresses store load with
  | [commonaddr] =>
      some (Pruning.loop (cg.pruneconflictstore store load commonaddr) baseset baseset)
  | _ => none

def getExecutionConstraint (codes : ExecPoint → Nat) (record : ExecPoint) : Bool :=
  cg.traversal.getExecutionConstraint cg.graph codes record

def Executed (codes : ExecPoint → Nat) (record : ExecPoint) : Prop :=
  cg.getExecutionConstraint codes record = true

/-! ## Pruning keeps a conflict -/

variable {ι : Type*} [LinearOrder ι]

/-- `conflict` is executed between `store` and `load` and stores to the address; `place` has the
places of the actions in a total order, and `executed` is any set of them. -/
structure Conflicts (executed : ExecPoint → Prop) (place : ExecPoint → ι)
    (addrOf : ExecPoint → UInt64) (store load conflict : ExecPoint) : Prop where
  executed : executed conflict
  address : addrOf conflict = addrOf store
  behind : place store < place conflict
  before : place conflict < place load

/-- What an execution of the stores and the load has to respect: the constant order constraints,
the execution constraints as far as they are subsumed, and the recorded addresses. -/
structure Respects (cg : ConstGen) (executed : ExecPoint → Prop)
    (place : ExecPoint → ι) (addrOf : ExecPoint → UInt64) (records : List ExecPoint) : Prop where
  agrees : ∀ a ∈ records, ∀ b ∈ records, cg.isBefore a b = true → place a < place b
  sound : ∀ k ∈ records, ∀ c ∈ records, cg.subsumesExecutionConstraint k c = true →
    executed c → executed k
  recorded : ∀ r ∈ records, addrOf r ∈ cg.getSet r

variable {cg} {store load : ExecPoint} {baseset srs : List ExecPoint} {codes : ExecPoint → Nat}
  {place : ExecPoint → ι} {addrOf : ExecPoint → UInt64} {executed : ExecPoint → Prop}

private theorem exists_of_pruneconflictstore {commonaddr : UInt64} {conflictstore : ExecPoint}
    (h : cg.pruneconflictstore store load commonaddr srs conflictstore = true) :
    ∃ checkstore ∈ srs, cg.mustStore commonaddr checkstore conflictstore = true ∧
      (cg.isBefore store checkstore = true ∧ cg.isBefore checkstore conflictstore = true ∨
        cg.isBefore conflictstore checkstore = true ∧ cg.isBefore checkstore load = true) := by
  unfold pruneconflictstore at h
  simp only [Bool.or_eq_true, Bool.and_eq_true, List.any_eq_true] at h
  rcases h with ⟨-, checkstore, hmem, ⟨hafter, hbefore⟩, hmust⟩ |
    ⟨-, checkstore, hmem, ⟨hafter, hbefore⟩, hmust⟩
  · exact ⟨checkstore, hmem, hmust, .inl ⟨hafter, hbefore⟩⟩
  · exact ⟨checkstore, hmem, hmust, .inr ⟨hafter, hbefore⟩⟩

theorem Conflicts.covered
    (hrespects : cg.Respects executed place addrOf (store :: load :: baseset))
    {commonaddr : UInt64} (hcommon : addrOf store = commonaddr) (hsub : srs ⊆ baseset)
    {conflict : ExecPoint} (hconflict : conflict ∈ store :: load :: baseset)
    (hprune : cg.pruneconflictstore store load commonaddr srs conflict = true)
    (h : Conflicts executed place addrOf store load conflict) :
    ∃ checkstore ∈ srs, checkstore ≠ conflict ∧
      Conflicts executed place addrOf store load checkstore := by
  obtain ⟨checkstore, hmem, hmust, hbetween⟩ := exists_of_pruneconflictstore hprune
  have hcheck : checkstore ∈ store :: load :: baseset := by simp [hsub hmem]
  unfold mustStore at hmust
  rw [Bool.and_eq_true, decide_eq_true_eq] at hmust
  obtain ⟨⟨hsingle, hcontains⟩, hsubsumes⟩ := hmust
  have hexecuted := hrespects.sound _ hcheck _ hconflict hsubsumes h.executed
  have haddress : addrOf checkstore = addrOf store := by
    obtain ⟨addr, hset⟩ := List.length_eq_one_iff.mp hsingle
    have hown := hrespects.recorded checkstore hcheck
    rw [hset, List.mem_singleton] at hcontains hown
    rw [hcommon, hcontains, hown]
  refine ⟨checkstore, hmem, ?_⟩
  rcases hbetween with ⟨hafter, hbefore⟩ | ⟨hafter, hbefore⟩
  · have horder := hrespects.agrees _ hcheck _ hconflict hbefore
    have hbehind := hrespects.agrees store (by simp) _ hcheck hafter
    constructor
    · rintro rfl
      exact lt_irrefl _ horder
    · exact ⟨hexecuted, haddress, hbehind, horder.trans h.before⟩
  · have horder := hrespects.agrees _ hconflict _ hcheck hafter
    have hfront := hrespects.agrees _ hcheck load (by simp) hbefore
    constructor
    · rintro rfl
      exact lt_irrefl _ horder
    · exact ⟨hexecuted, haddress, h.behind.trans horder, hfront⟩

/-- For any set of executed stores, the pruned set has a conflicting one if and only if the set
that it is made from has one. -/
theorem exists_conflicts_iff (h : cg.computeConflictSet store load baseset = some srs)
    (hrespects : cg.Respects executed place addrOf (store :: load :: baseset))
    (hsame : addrOf store = addrOf load) :
    (∃ conflict ∈ baseset, Conflicts executed place addrOf store load conflict) ↔
      ∃ conflict ∈ srs, Conflicts executed place addrOf store load conflict := by
  unfold computeConflictSet at h
  split at h
  next commonaddr hcommon =>
    obtain rfl := Option.some.inj h
    have hmem : addrOf store ∈ cg.commonAddresses store load := by
      apply List.mem_filter.mpr
      have hload := hrespects.recorded load (by simp)
      exact ⟨hrespects.recorded store (by simp), decide_eq_true (hsame ▸ hload)⟩
    rw [hcommon, List.mem_singleton] at hmem
    apply Pruning.exists_mem_loop_iff
    intro kept hsub conflict hconflict hprune hconflicts
    exact hconflicts.covered hrespects hmem hsub (by simp [hsub hconflict]) hprune
  next => exact absurd h (by simp)

/-- In every total order that agrees with the constant order constraints, and for all executed
stores and addresses, the pruned set has a conflicting store if and only if the set that it is
made from has one. -/
theorem computeConflictSet_iff (h : cg.computeConflictSet store load baseset = some srs)
    (hrespects : cg.Respects (cg.Executed codes) place addrOf (store :: load :: baseset))
    (hsame : addrOf store = addrOf load) :
    (∃ conflict ∈ baseset, Conflicts (cg.Executed codes) place addrOf store load conflict) ↔
      ∃ conflict ∈ srs, Conflicts (cg.Executed codes) place addrOf store load conflict :=
  exists_conflicts_iff h hrespects hsame

def threeStores : ConstGen where
  graph := ⟨fun _ => none, fun _ => none, fun _ => 0, ⟨0, []⟩⟩
  traversal := ⟨none, [], [], fun _ => none, fun _ => none, []⟩
  order := .empty 1
  getSet _ := [16]

def inOrder (n : Nat) : ExecPoint := ⟨0, [(.counter, n)]⟩

def lastCount (r : ExecPoint) : Nat := (r.pairs.map Prod.snd).sum

/-- The second store is left out, because the third one covers it. -/
theorem computeConflictSet_threeStores :
    (∃ conflict ∈ [inOrder 1, inOrder 2], Conflicts (threeStores.Executed fun _ => 0) lastCount
      (fun _ => 16) (inOrder 0) (inOrder 3) conflict) ↔
      ∃ conflict ∈ [inOrder 2], Conflicts (threeStores.Executed fun _ => 0) lastCount
        (fun _ => 16) (inOrder 0) (inOrder 3) conflict := by
  have hpruned : threeStores.computeConflictSet (inOrder 0) (inOrder 3)
      [inOrder 1, inOrder 2] = some [inOrder 2] := by decide
  have hrespects : threeStores.Respects (threeStores.Executed fun _ => 0) lastCount (fun _ => 16)
      [inOrder 0, inOrder 3, inOrder 1, inOrder 2] := by
    refine ⟨?_, fun _ _ _ _ _ _ => rfl, fun _ _ => List.mem_singleton_self 16⟩
    decide
  exact computeConflictSet_iff hpruned hrespects rfl

end ConstGen

end SatCheck
