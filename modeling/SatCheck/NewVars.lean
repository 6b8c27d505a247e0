import SatCheck.OrderInvariant
import Mathlib.Logic.Function.Basic
import Mathlib.Order.Nat
/-!
# New variables

`getNewVar` counts the variables.  The first traversal takes those of the order and of the records,
and a `StoreLoadSet` takes an array for a record when it is first asked for it.  In every sequence
of requests each array has variables of its own.
-/

namespace SatCheck

/-- What has an array of variables: the records of each kind, and in a `StoreLoadSet` the values,
the values that an RMW reads, and the addresses of a record. -/
inductive VarOwner where
  | equals (record : ExecPoint)
  | function (record : ExecPoint)
  | branch (record : ExecPoint)
  | value (record : ExecPoint)
  | read (record : ExecPoint)
  | address (record : ExecPoint)
  deriving DecidableEq

namespace OrderTable

def getArrayNewVars : Nat → OrderTable → List Nat × OrderTable
  | 0, s => ([], s)
  | num + 1, s =>
      let (vars, t) := getArrayNewVars num s.getNewVar.2
      (s.varindex :: vars, t)

theorem getArrayNewVars_eq (num : Nat) (s : OrderTable) : s.getArrayNewVars num =
    (List.range' s.varindex num, { s with varindex := s.varindex + num }) := by
  induction num generalizing s with
  | zero => rfl
  | succ num ih =>
    rw [getArrayNewVars, ih, List.range'_succ]
    simp [getNewVar, Nat.add_assoc, Nat.add_comm 1]

end OrderTable

/-- A memory action that `insertAction` orders, or the array of an owner with so many variables. -/
inductive VarRequest where
  | action (record : ExecPoint)
  | array (owner : VarOwner) (num : Nat)

/-- The order table with the counter, and the arrays that have been taken. -/
structure VarTables where
  order : OrderTable
  arrays : VarOwner → Option (List Nat)

namespace VarTables

def empty : VarTables := ⟨.empty 1, fun _ => none⟩

def request (links : ThreadLinks) (s : VarTables) : VarRequest → VarTables
  | .action record => { s with order := s.order.insertAction links record }
  | .array owner num =>
      match s.arrays owner with
      | some _ => s
      | none =>
          let (vars, order) := s.order.getArrayNewVars num
          ⟨order, Function.update s.arrays owner (some vars)⟩

def run (links : ThreadLinks) (requests : List VarRequest) : VarTables :=
  requests.foldl (request links) empty

/-- The visits of the order table in which the requests take variables. -/
def visits : (VarOwner → Bool) → List VarRequest → List OrderTable.Visit
  | _, [] => []
  | asked, .action record :: requests => .action record :: visits asked requests
  | asked, .array owner num :: requests =>
      if asked owner then visits asked requests
      else .newVars num :: visits (Function.update asked owner true) requests

/-- No variable is taken twice. -/
structure Distinct (s : VarTables) : Prop where
  below : ∀ owner vars, s.arrays owner = some vars → ∀ v ∈ vars, v < s.order.varindex
  nodup : ∀ owner vars, s.arrays owner = some vars → vars.Nodup
  disjoint : ∀ owner owner' vars vars', s.arrays owner = some vars →
    s.arrays owner' = some vars' → owner ≠ owner' → ∀ v ∈ vars, v ∉ vars'
  pairsBelow : ∀ p ∈ s.order.rpt, ∀ v, p.constraint = .var v → v < s.order.varindex
  pairs : ∀ p ∈ s.order.rpt, ∀ v, p.constraint = .var v → ∀ owner vars,
    s.arrays owner = some vars → v ∉ vars

variable {links : ThreadLinks} {s : VarTables} {requests : List VarRequest}

private theorem insertAction_pairs (links : ThreadLinks) (s : OrderTable) (record : ExecPoint) :
    s.varindex ≤ (s.insertAction links record).varindex ∧
      ∀ p ∈ (s.insertAction links record).rpt, ∀ v, p.constraint = .var v →
        p ∈ s.rpt ∨ s.varindex ≤ v ∧ v < (s.insertAction links record).varindex := by
  unfold OrderTable.insertAction
  simp only
  generalize ((OrderTable.resize s.threadactions record.tid).modify record.tid
    (· ++ [record])) = vecs
  generalize ((vecs.zipIdx.filter fun p => decide (p.2 ≠ record.tid)).flatMap Prod.fst) = others
  refine List.foldlRecOn others _ (motive := fun (t : OrderTable) => s.varindex ≤ t.varindex ∧
    ∀ p ∈ t.rpt, ∀ v, p.constraint = .var v →
      p ∈ s.rpt ∨ s.varindex ≤ v ∧ v < t.varindex)
    ⟨Nat.le_refl _, fun p hp _ _ => .inl hp⟩ fun t ⟨hle, ht⟩ oldrec _ => ?_
  rcases OrderTable.createOrderConstraint_cases links t oldrec record with
    ⟨-, heq⟩ | ⟨p, n, -, -, hn, hentry, hnew, heq⟩
  · rw [heq]
    exact ⟨hle, ht⟩
  · rw [heq]
    refine ⟨hle.trans hn, fun q hq v hv => ?_⟩
    rcases List.mem_append.mp hq with hq | hq
    · exact (ht q hq v hv).imp_right fun h => ⟨h.1, h.2.trans_le hn⟩
    · obtain rfl := List.mem_singleton.mp hq
      refine .inr ⟨hle.trans (hnew v hv), ?_⟩
      cases hentry with
      | ctrue => cases hv
      | cfalse => cases hv
      | var _ _ hlt =>
        obtain rfl := Constraint.var.inj hv
        exact hlt

theorem Distinct.empty : Distinct empty where
  below _ _ h := by cases h
  nodup _ _ h := by cases h
  disjoint _ _ _ _ h := by cases h
  pairsBelow _ hp := by cases hp
  pairs _ hp := by cases hp

theorem Distinct.request (h : Distinct s) (r : VarRequest) : Distinct (s.request links r) := by
  cases r with
  | action record =>
    obtain ⟨hle, hpairs⟩ := insertAction_pairs links s.order record
    refine ⟨fun owner vars hvars v hv => Nat.lt_of_lt_of_le (h.below owner vars hvars v hv) hle,
      h.nodup, h.disjoint, fun p hp v hv => ?_, fun p hp v hv owner vars hvars hmem => ?_⟩
    · rcases hpairs p hp v hv with hold | hnew
      · exact Nat.lt_of_lt_of_le (h.pairsBelow p hold v hv) hle
      · exact hnew.2
    · rcases hpairs p hp v hv with hold | hnew
      · exact h.pairs p hold v hv owner vars hvars hmem
      · exact absurd (h.below owner vars hvars v hmem) (Nat.not_lt.mpr hnew.1)
  | array owner num =>
    unfold VarTables.request
    cases hfound : s.arrays owner with
    | some vars =>
      simp only [hfound]
      exact h
    | none =>
      simp only [hfound, OrderTable.getArrayNewVars_eq]
      have harrays : ∀ o vars, Function.update s.arrays owner
          (some (List.range' s.order.varindex num)) o = some vars →
          (s.arrays o = some vars ∧ o ≠ owner) ∨
            (o = owner ∧ vars = List.range' s.order.varindex num) := by
        intro o vars hvars
        by_cases heq : o = owner
        · subst heq
          rw [Function.update_self] at hvars
          exact .inr ⟨rfl, (Option.some.inj hvars).symm⟩
        · rw [Function.update_of_ne heq] at hvars
          exact .inl ⟨hvars, heq⟩
      refine ⟨fun o vars hvars v hv => ?_, fun o vars hvars => ?_,
        fun o o' vars vars' hvars hvars' hne v hv hv' => ?_, fun p hp v hv => ?_,
        fun p hp v hv o vars hvars hmem => ?_⟩
      · rcases harrays o vars hvars with ⟨hold, -⟩ | ⟨-, rfl⟩
        · exact Nat.lt_add_right num (h.below o vars hold v hv)
        · exact (List.mem_range'_1.mp hv).2
      · rcases harrays o vars hvars with ⟨hold, -⟩ | ⟨-, rfl⟩
        · exact h.nodup o vars hold
        · exact List.nodup_range'
      · rcases harrays o vars hvars with ⟨hold, -⟩ | ⟨rfl, rfl⟩ <;>
          rcases harrays o' vars' hvars' with ⟨hold', -⟩ | ⟨rfl, rfl⟩
        · exact h.disjoint o o' vars vars' hold hold' hne v hv hv'
        · have hlt := h.below o vars hold v hv
          have hle := (List.mem_range'_1.mp hv').1
          omega
        · have hlt := h.below o' vars' hold' v hv'
          have hle := (List.mem_range'_1.mp hv).1
          omega
        · exact hne rfl
      · exact Nat.lt_add_right num (h.pairsBelow p hp v hv)
      · rcases harrays o vars hvars with ⟨hold, -⟩ | ⟨-, rfl⟩
        · exact h.pairs p hp v hv o vars hold hmem
        · have hlt := h.pairsBelow p hp v hv
          have hle := (List.mem_range'_1.mp hmem).1
          omega

/-- The arrays of any requests have no variable in common, and none with the order. -/
theorem distinct_run (links : ThreadLinks) (requests : List VarRequest) :
    Distinct (run links requests) :=
  List.foldlRecOn (motive := Distinct) requests _ Distinct.empty fun _ h r _ => h.request r

/-- The order table of the requests is that of a traversal with these visits. -/
theorem order_run (links : ThreadLinks) (requests : List VarRequest) :
    (run links requests).order = .traverse links (visits (fun _ => false) requests) := by
  have hfold : ∀ (requests : List VarRequest) (s : VarTables),
      (requests.foldl (request links) s).order =
        (visits (fun owner => (s.arrays owner).isSome) requests).foldl
          (OrderTable.visit links) s.order := by
    intro requests
    induction requests with
    | nil => exact fun _ => rfl
    | cons r requests ih =>
      intro s
      rw [List.foldl_cons, ih]
      cases r with
      | action record => rfl
      | array owner num =>
        cases hfound : s.arrays owner with
        | some vars => simp only [VarTables.request, visits, hfound, Option.isSome_some, if_true]
        | none =>
          have hasked : (fun o => (Function.update s.arrays owner
              (some (List.range' s.order.varindex num)) o).isSome) =
              Function.update (fun o => (s.arrays o).isSome) owner true := by
            funext o
            by_cases heq : o = owner
            · rw [heq, Function.update_self, Function.update_self]
              rfl
            · rw [Function.update_of_ne heq, Function.update_of_ne heq]
          simp only [VarTables.request, visits, hfound, OrderTable.getArrayNewVars_eq,
            Option.isSome_none, Bool.false_eq_true, if_false, List.foldl_cons, hasked]
          rfl
  exact hfold requests empty

end VarTables

end SatCheck
