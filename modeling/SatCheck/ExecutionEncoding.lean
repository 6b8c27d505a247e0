import SatCheck.MemoryEncoding
import SatCheck.NewVars
import Mathlib.Data.Prod.Lex
import Mathlib.SetTheory.Cardinal.Order
/-!
# Executions and solutions

An execution orders the memory actions and gives every record its address, values and direction.
It is encoded by an assignment whose variables hold the codes of what it has chosen.  With
variables of their own for all records every execution is encoded, and the constraints of the
order and of the memory can be met just where it is sequentially consistent, as long as no action
meets a slip of its constraints.
-/

namespace SatCheck

open Constraint MemoryTables

namespace Constraint

end Constraint

namespace OrderTable

variable {links : ThreadLinks} {s : OrderTable} {visits : List Visit} {ρ ρ' : Nat → Bool}

end OrderTable

/-- An order of the memory actions with their addresses and values, what functions and comparisons
return, and the directions of the branches.  A function with an output that no completed goal has
returns nothing that is known. -/
structure Execution (ι : Type*) where
  place : ExecPoint → ι
  addrOf : ExecPoint → UInt64
  readOf : ExecPoint → UInt64
  writeOf : ExecPoint → UInt64
  returned : ExecPoint → Option UInt64
  direction : ExecPoint → Option UInt64

namespace Execution

variable {ι : Type*} [LinearOrder ι] (E : Execution ι) (t : ReadTables)

/-- The branch of the record is taken, and none of the exits before it. -/
def Executes (record : ExecPoint) : Prop :=
  (∀ rec ∈ t.execcondtable record, ∀ branchval, t.branch rec = some branchval →
    E.direction branchval.1 ≠ some branchval.2) ∧
  ∀ branchval, t.branch record = some branchval → E.direction branchval.1 = some branchval.2

/-- The value that a record returns. -/
def Returns (src : ExecPoint) (value : UInt64) : Prop :=
  match (t.info src).event with
  | .load | .rmw => E.readOf src = value
  | .function | .equals => E.returned src = some value
  | _ => False

def Takes (src : ExecPoint) (value : UInt64) : Prop := t.TakesOf (E.Returns t) src value

/-- The execution keeps the order that is fixed, and the memory has the addresses and values that
are recorded.  A branch goes in a new direction only if one is left. -/
structure Recorded : Prop where
  order : ∀ x y, OrderTable.FixedBefore t.links t.visits x y → E.place x < E.place y
  strict : ∀ a b, t.IsMemory a → t.IsMemory b → E.place a = E.place b → a = b
  address : ∀ r, t.IsMemory r → E.addrOf r ∈ t.planner.sets r vcAddrIndex
  written : ∀ r, t.IsMemory r → (t.info r).isStore →
    E.writeOf r ∈ t.getValues (t.getStoreLoadSet r)
  read : ∀ r, t.IsMemory r → (t.info r).isLoad → E.readOf r ∈ t.getValues (t.getStoreLoadSet r)
  function : ∀ r, (t.info r).event = .function → ∀ val, E.returned r = some val →
    val ∈ t.functionSet r
  phi : ∀ r, (t.info r).event = .function → (t.info r).phi = true → t.functionSet r ≠ [] →
    E.returned r ≠ none
  equals : ∀ r, (t.info r).event = .equals → E.returned r = some 0 ∨ E.returned r = some 1
  direction : ∀ r, (t.info r).event = .branchdir → ∀ val, E.direction r = some val →
    val ∉ t.valuevector r → (t.valuevector r).length < t.getLen r
  always : ∀ r, (t.info r).event = .branchdir → t.isAlwaysExecuted r = true →
    E.direction r ≠ none

end Execution

namespace ReadTables

variable (t : ReadTables)

def ownVars : VarOwner → List Nat
  | .equals record => [t.equalstable record]
  | .function record => t.functiontable record
  | .branch record => t.branchtable record
  | .value record => t.getValVars record
  | .read record => t.getRMWRValVars record
  | .address record => t.getAddrVars record

def Owns : VarOwner → Prop
  | .equals record => (t.info record).event = .equals
  | .function record => (t.info record).event = .function
  | .branch record => (t.info record).event = .branchdir
  | .value record => t.IsMemory record
  | .read record => t.IsMemory record ∧ (t.info record).event = .rmw
  | .address record => t.IsMemory record

/-- The first traversal has come by the memory actions, each once and in the order of its thread.
The variables of the records are those that they have been given, where the arrays of the
`StoreLoadSet`s are asked for before the second traversal. -/
structure Separate : Prop where
  visited : ∀ r, r ∈ OrderTable.actions t.visits ↔ t.IsMemory r
  nodup : (OrderTable.actions t.visits).Nodup
  inOrder : ∀ a ∈ OrderTable.actions t.visits, ∀ b ∈ OrderTable.actions t.visits,
    a.tid = b.tid → (a.compare b = .after ↔ [a, b].Sublist (OrderTable.actions t.visits))
  given : ∃ requests, VarTables.visits (fun _ => false) requests = t.visits ∧
    ∀ o, t.Owns o → t.ownVars o ≠ [] →
      (VarTables.run t.links requests).arrays o = some (t.ownVars o)
  branchdir : ∀ r branchval, t.branch r = some branchval →
    (t.info branchval.1).event = .branchdir
  loads : ∀ r, (t.info r).isLoad → t.IsMemory r

variable {t}

theorem Separate.vars (h : t.Separate) (o : VarOwner) (ho : t.Owns o) : (t.ownVars o).Nodup := by
  obtain ⟨requests, -, hgiven⟩ := h.given
  by_cases hnil : t.ownVars o = []
  · rw [hnil]
    exact List.nodup_nil
  · exact (VarTables.distinct_run t.links requests).nodup o _ (hgiven o ho hnil)

theorem Separate.disjoint (h : t.Separate) (o o' : VarOwner) (ho : t.Owns o) (ho' : t.Owns o')
    (hne : o ≠ o') : ∀ v ∈ t.ownVars o, v ∉ t.ownVars o' := by
  obtain ⟨requests, -, hgiven⟩ := h.given
  intro v hv hv'
  exact (VarTables.distinct_run t.links requests).disjoint o o' _ _
    (hgiven o ho (List.ne_nil_of_mem hv)) (hgiven o' ho' (List.ne_nil_of_mem hv')) hne v hv hv'

theorem Separate.order (h : t.Separate) : ∀ p ∈ t.conflicts.order.rpt, ∀ v,
    p.constraint = .var v → ∀ o, t.Owns o → v ∉ t.ownVars o := by
  obtain ⟨requests, hvisits, hgiven⟩ := h.given
  intro p hp v hconstraint o ho hv
  rw [t.traversed, ← hvisits, ← VarTables.order_run] at hp
  exact (VarTables.distinct_run t.links requests).pairs p hp v hconstraint o _
    (hgiven o ho (List.ne_nil_of_mem hv)) hv

end ReadTables

namespace Execution

open ReadTables

variable {ι : Type*} [LinearOrder ι] {E : Execution ι} {t : ReadTables} {ρ ρ' : Nat → Bool}
  {record src : ExecPoint}

section

variable (E t)

/-- The code of the choice that the variables of an owner hold.  The largest one stands for a new
output and for a new direction. -/
def codeOf : VarOwner → Nat
  | .equals record => if E.returned record = some 1 then 1 else 0
  | .function record =>
      match E.returned record with
      | none => 2 ^ (t.functiontable record).length - 1
      | some val => (t.functionSet record).idxOf val
  | .branch record =>
      match E.direction record with
      | none => 0
      | some val =>
          if val ∈ t.valuevector record then
            t.directionCode record ((t.valuevector record).idxOf val)
          else 2 ^ (t.branchtable record).length - 1
  | .value record => (t.getValues (t.getStoreLoadSet record)).idxOf
      (if (t.info record).event = .load then E.readOf record else E.writeOf record)
  | .read record => (t.getValues (t.getStoreLoadSet record)).idxOf (E.readOf record)
  | .address record => (t.getAddresses (t.getStoreLoadSet record)).idxOf (E.addrOf record)

/-- The assignment holds the order of the execution and the codes of its choices. -/
structure EncodedBy (ρ : Nat → Bool) : Prop where
  order : ∀ a b, t.IsMemory a → t.IsMemory b → a ≠ b →
    (eval ρ (t.getOrderConstraint a b) = true ↔ E.place a < E.place b)
  codes : ∀ o, t.Owns o → code ρ (t.ownVars o) = E.codeOf t o

end

/-! ## Encoding an execution -/

/-- The largest code is not the one of an output of a function that is no phi. -/
theorem functionCode_succ_lt (hphi : (t.info record).phi = false) {val : UInt64}
    (hval : val ∈ t.functionSet record) :
    (t.functionSet record).idxOf val + 1 < 2 ^ (t.functiontable record).length := by
  have hlt := List.idxOf_lt_length_iff.mpr hval
  rw [t.functionVars, hphi]
  unfold EncodingTables.functionSet at hlt ⊢
  simp only [hphi, Bool.false_eq_true, if_false] at hlt ⊢
  exact EncodingTables.lt_two_pow_numBits (Nat.succ_lt_succ hlt)

/-- The largest code is not the one of a known direction if a new one is left. -/
theorem directionCode_succ_lt (hevent : (t.info record).event = .branchdir)
    (hleft : (t.valuevector record).length < t.getLen record) {val : UInt64}
    (hval : val ∈ t.valuevector record) :
    t.directionCode record ((t.valuevector record).idxOf val) + 1 <
      2 ^ (t.branchtable record).length := by
  have hidx := List.idxOf_lt_length_iff.mpr hval
  rw [t.inserted record hevent]
  apply EncodingTables.lt_two_pow_numBits
  unfold BranchTables.directionCode branchCodes BranchTables.isAlwaysExecuted
  split_ifs <;> simp only <;> omega

theorem Recorded.compare_iff (h : E.Recorded t) (hseparate : t.Separate) {a b : ExecPoint}
    (ha : t.IsMemory a) (hb : t.IsMemory b) (htid : a.tid = b.tid) :
    a.compare b = .after ↔ E.place a < E.place b := by
  have hamem := (hseparate.visited a).mpr ha
  have hbmem := (hseparate.visited b).mpr hb
  have hlt : ∀ x y, x ∈ OrderTable.actions t.visits → y ∈ OrderTable.actions t.visits →
      x.tid = y.tid → [x, y].Sublist (OrderTable.actions t.visits) → E.place x < E.place y :=
    fun x y hx hy hxy hsublist => h.order x y ⟨hx, hy, by rwa [if_pos hxy]⟩
  rw [hseparate.inOrder a hamem b hbmem htid]
  refine ⟨hlt a b hamem hbmem htid, fun hplace => ?_⟩
  have hne : a ≠ b := by
    rintro rfl
    exact lt_irrefl _ hplace
  obtain ⟨p, hp⟩ := (OrderTable.traversed_traverse t.links t.visits).exists_pos hamem
  obtain ⟨q, hq⟩ := (OrderTable.traversed_traverse t.links t.visits).exists_pos hbmem
  have hwf := OrderTable.wellFormed_traverse t.links t.visits
  have htraversed := OrderTable.traversed_traverse t.links t.visits
  have hthread : p.thread = q.thread := by
    rw [← hwf.record_tid, ← hwf.record_tid, hp, hq, htid]
  rw [← hp, ← hq, htraversed.sublist_iff hseparate.nodup hthread]
  by_contra hle
  rcases Nat.lt_or_eq_of_le (Nat.le_of_not_lt hle) with hlater | hsame
  · have hsublist := (htraversed.sublist_iff hseparate.nodup hthread.symm).mpr hlater
    rw [hp, hq] at hsublist
    exact lt_asymm hplace (hlt b a hbmem hamem htid.symm hsublist)
  · have heq := OrderTable.ActionPos.eq_of_place hthread hsame.symm
    exact hne (by rw [← hp, ← hq, heq])

theorem Recorded.direction_iff (h : E.Recorded t) (hevent : (t.info record).event = .branchdir)
    (hcode : code ρ (t.branchtable record) = E.codeOf t (.branch record)) {val : UInt64}
    {c : Constraint} (hc : t.getBranch (record, val) = some c) :
    eval ρ c = true ↔ E.direction record = some val := by
  unfold BranchTables.getBranch at hc
  split_ifs at hc with hmem
  obtain rfl := Option.some.inj hc
  rw [eval_generateConstraint (BranchTables.directionCode_lt hevent hmem), hcode]
  simp only [codeOf]
  cases hdirection : E.direction record with
  | none =>
    have halways : ¬ t.isAlwaysExecuted record = true :=
      fun halways => h.always record hevent halways hdirection
    simp [BranchTables.directionCode, halways]
  | some val' =>
    simp only
    split_ifs with hmem'
    · unfold BranchTables.directionCode
      rw [Option.some_inj, ← List.idxOf_inj hmem']
      split_ifs
      · rfl
      · exact Nat.succ_inj
    · -- a new direction has the largest code
      have hlt := directionCode_succ_lt hevent (h.direction record hevent val' hdirection hmem')
        hmem
      have hne : val' ≠ val := fun heq => hmem' (heq ▸ hmem)
      dsimp only at hlt ⊢
      simp only [Option.some_inj, hne, iff_false]
      omega

/-- The assignment chooses the order, the addresses and the values of the execution. -/
theorem EncodedBy.chosen (h : E.EncodedBy t ρ) (hrecorded : E.Recorded t)
    (hactions : ∀ r, t.IsMemory r → t.RecordedAction r) :
    t.Chosen ρ E.place E.addrOf E.readOf E.writeOf := by
  constructor
  · exact h.order
  · exact hrecorded.strict
  · exact hrecorded.address
  · intro r hr
    have haddress := (hactions r hr).recorded.addresses (E.addrOf r)
    rw [t.sets] at haddress
    exact ⟨haddress (hrecorded.address r hr), h.codes (.address r) hr⟩
  · intro r hr hstore
    have hcode : code ρ (t.getValVars r) = E.codeOf t (.value r) := h.codes (.value r) hr
    have hload : (t.info r).event ≠ .load := by rcases hstore with hs | hs <;> simp [hs]
    refine ⟨hrecorded.written r hr hstore, ?_⟩
    rw [hcode]
    simp [codeOf, hload]
  · intro r hr hload
    have hmem := hrecorded.read r hr hload
    unfold EncodingTables.Encodes EncodingTables.readVars
    rcases hload with hevent | hevent
    · simp only [hevent]
      have hcode : code ρ (t.getValVars r) = E.codeOf t (.value r) := h.codes (.value r) hr
      refine ⟨hmem, ?_⟩
      simpa [codeOf, hevent] using hcode
    · simp only [hevent]
      exact ⟨hmem, h.codes (.read r) ⟨hr, hevent⟩⟩

theorem EncodedBy.function_iff (h : E.EncodedBy t ρ) (hrecorded : E.Recorded t)
    (hevent : (t.info record).event = .function) (val : UInt64) :
    t.Encodes ρ record val ↔ E.returned record = some val := by
  have hcode : code ρ (t.functiontable record) = E.codeOf t (.function record) :=
    h.codes (.function record) hevent
  unfold EncodingTables.Encodes
  simp only [hevent, hcode, codeOf]
  cases hreturned : E.returned record with
  | some val' =>
    have hmem := hrecorded.function record hevent val' hreturned
    rw [Option.some_inj, ← List.idxOf_inj hmem]
    refine ⟨fun h => h.2, fun heq => ⟨?_, heq⟩⟩
    rwa [← (List.idxOf_inj hmem).mp heq]
  | none =>
    refine iff_of_false ?_ (by simp)
    rintro ⟨hmem, hlargest⟩
    have hphi : (t.info record).phi = false := by
      by_contra hphi
      exact hrecorded.phi record hevent (by simpa using hphi) (List.ne_nil_of_mem hmem) hreturned
    have hlt := functionCode_succ_lt hphi hmem
    simp only at hlargest
    omega

theorem EncodedBy.equals_iff (h : E.EncodedBy t ρ) (hrecorded : E.Recorded t)
    (hevent : (t.info record).event = .equals) (val : UInt64) :
    t.Encodes ρ record val ↔ E.returned record = some val := by
  have hcode : code ρ [t.equalstable record] = E.codeOf t (.equals record) :=
    h.codes (.equals record) hevent
  unfold EncodingTables.Encodes
  simp only [hevent]
  unfold codeOf code at hcode
  rcases hrecorded.equals record hevent with hvalue | hvalue
  · have hvar : ρ (t.equalstable record) = false := by
      simpa [hvalue, BinaryCode.value] using hcode
    simp [hvar, hvalue, eq_comm]
  · have hvar : ρ (t.equalstable record) = true := by
      simpa [hvalue, BinaryCode.value] using hcode
    simp [hvar, hvalue, eq_comm]

private theorem eval_of_mapM_id {array : List (Option Constraint)} {cs : List Constraint}
    (h : array.mapM id = some cs) : array = cs.map some := by
  induction array generalizing cs with
  | nil =>
    obtain rfl : [] = cs := by simpa using h
    rfl
  | cons c array ih =>
    cases c with
    | none => simp [List.mapM_cons] at h
    | some c =>
      cases hrest : array.mapM id with
      | none => simp [List.mapM_cons, hrest] at h
      | some ds =>
        obtain rfl : c :: ds = cs := by simpa [List.mapM_cons, hrest] using h
        rw [ih hrest, List.map_cons]

private theorem executed_iff_conditions :
    t.Executed ρ record ↔ ∀ c, some c ∈ t.conditions record → eval ρ c = true := by
  obtain ⟨e, he, -⟩ := t.exists_getExecutionConstraint record
  rw [ReadTables.executed_iff he]
  unfold BranchTables.getExecutionConstraint at he
  obtain ⟨cs, hcs, hmatch⟩ := Option.map_eq_some_iff.mp he
  rw [eval_of_mapM_id hcs]
  simp only [List.mem_map, Option.some_inj, exists_eq_right]
  subst hmatch
  split
  · simp
  · simp
  · rw [eval_and, List.all_eq_true]

theorem EncodedBy.executed_iff (h : E.EncodedBy t ρ) (hrecorded : E.Recorded t)
    (hseparate : t.Separate) : t.Executed ρ record ↔ E.Executes t record := by
  have hbranch : ∀ r branchval, t.branch r = some branchval → ∃ c,
      t.getBranch branchval = some c ∧ c.implicationFree = true ∧
        (eval ρ c = true ↔ E.direction branchval.1 = some branchval.2) := by
    intro r branchval hr
    obtain ⟨c, hc⟩ : ∃ c, t.getBranch branchval = some c :=
      ⟨_, if_pos (t.known r branchval hr)⟩
    have hevent := hseparate.branchdir r branchval hr
    exact ⟨c, hc, BranchTables.implicationFree_getBranch hc,
      hrecorded.direction_iff hevent (h.codes (.branch branchval.1) hevent) hc⟩
  rw [executed_iff_conditions]
  unfold BranchTables.conditions Executes
  simp only [List.mem_append, List.mem_map, Option.mem_toList]
  constructor
  · intro hall
    constructor
    · intro rec hrec branchval hr
      obtain ⟨c, hc, hfree, hdirection⟩ := hbranch rec branchval hr
      have hnot := hall c.negate (.inl ⟨rec, hrec, by simp [hr, hc]⟩)
      rw [eval_negate ρ c hfree, Bool.not_eq_true', ← Bool.not_eq_true, hdirection] at hnot
      exact hnot
    · intro branchval hr
      obtain ⟨c, hc, -, hdirection⟩ := hbranch record branchval hr
      exact hdirection.mp (hall c (.inr ⟨branchval, hr, hc⟩))
  · rintro ⟨hexits, htaken⟩ c (⟨rec, hrec, hc⟩ | ⟨branchval, hr, hc⟩)
    · obtain ⟨branchval, hr, hc⟩ := Option.bind_eq_some_iff.mp hc
      obtain ⟨d, hd, hfree, hdirection⟩ := hbranch rec branchval hr
      rw [hd, Option.map_some, Option.some_inj] at hc
      rw [← hc, eval_negate ρ d hfree, Bool.not_eq_true', ← Bool.not_eq_true, hdirection]
      exact hexits rec hrec branchval hr
    · obtain ⟨d, hd, -, hdirection⟩ := hbranch record branchval hr
      obtain rfl : d = c := Option.some.inj (hd.symm.trans hc)
      exact hdirection.mpr (htaken branchval hr)

theorem EncodedBy.takes_eq (h : E.EncodedBy t ρ) (hrecorded : E.Recorded t)
    (hseparate : t.Separate) (hactions : ∀ r, t.IsMemory r → t.RecordedAction r) :
    t.Takes ρ = E.Takes t := by
  have hchosen := h.chosen hrecorded hactions
  have hread : ∀ src, (t.info src).isLoad → ∀ v, t.Encodes ρ src v ↔ E.readOf src = v := by
    intro src hload v
    have hencodes := hchosen.read src (hseparate.loads src hload) hload
    exact ⟨hencodes.unique, fun heq => heq ▸ hencodes⟩
  have hreturns : ∀ src v, t.Encodes ρ src v ↔ E.Returns t src v := by
    intro src v
    unfold Returns
    cases hevent : (t.info src).event with
    | load => exact hread src (.inl hevent) v
    | rmw => exact hread src (.inr hevent) v
    | function => exact h.function_iff hrecorded hevent v
    | equals => exact h.equals_iff hrecorded hevent v
    | _ => simp [EncodingTables.Encodes, hevent]
  ext src value
  unfold EncodingTables.Takes Takes EncodingTables.TakesOf
  simp only [hreturns]

theorem EncodedBy.executed_eq (h : E.EncodedBy t ρ) (hrecorded : E.Recorded t)
    (hseparate : t.Separate) : t.Executed ρ = E.Executes t := by
  ext r
  exact h.executed_iff hrecorded hseparate

private theorem ownVars_lt (o : VarOwner) : ∀ v ∈ t.ownVars o, decide (v < t.varindex) = true := by
  intro v hv
  cases o with
  | equals r => exact List.mem_singleton.mp hv ▸ t.taken.equals r
  | function r => exact t.taken.functions r v hv
  | branch r => exact t.taken.branches r v hv
  | value r => exact t.taken.values r v hv
  | read r => exact t.taken.reads r v hv
  | address r => exact t.taken.addresses r v hv

theorem EncodedBy.congr (h : E.EncodedBy t ρ)
    (hagree : ∀ v, decide (v < t.varindex) = true → ρ v = ρ' v) : E.EncodedBy t ρ' where
  order a b ha hb hne := by
    rw [← h.order a b ha hb hne, eval_congr_vars hagree (t.implicationFree_getOrderConstraint _ _)
      (t.taken.order _ _)]
  codes o ho := by rw [← h.codes o ho, code_congr_vars hagree (ownVars_lt o)]

open ConstGen (inOrder lastCount)

/-- The thread stores 7, adds 1, reads 8 and stores it. -/
def increment : Execution Nat :=
  ⟨lastCount, fun _ => 16, incrementedRead, incrementedWrite, fun _ => none, fun _ => none⟩

end Execution

end SatCheck
