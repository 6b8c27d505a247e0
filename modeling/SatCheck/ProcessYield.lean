import SatCheck.PointOrder
import SatCheck.BranchRecord
import SatCheck.TableVars
/-!
# Yields

With `noexecyields` a yield may only be executed if an incompletely explored branch in front of it
takes a new direction.  The constraint for a yield lists the branches since the previous yield and
has the variable of that yield for the others.
-/

namespace SatCheck

open Constraint

/-- `records` has the records of the graph and `branches` those that `insertBranch` has been called
with.  The types of their points are as the `ASSERT` of `compare` wants them; `varindex` is the
first variable that is taken by the second traversal. -/
structure YieldTables extends BranchTables ExecPoint where
  noexecyields : Bool
  records : List ExecPoint
  branches : List ExecPoint
  sameTypes : ∀ a ∈ records, ∀ b ∈ records, a.tid = b.tid →
    ExecPoint.compareAsserts a.pairs b.pairs = true
  taken : ∀ r, ∀ v ∈ branchtable r, v < varindex

/-- `yieldlist` with the variables that `yieldtable` has for the yields. -/
structure YieldState where
  yieldlist : List ExecPoint
  yieldtable : ExecPoint → Option Nat
  varindex : Nat

/-- What the second traversal processes: a yield, or a record that takes other variables. -/
inductive Processed where
  | yield (record : ExecPoint)
  | other (newvars : Nat)

namespace YieldState

/-- The first loop of `computeYieldCond`, from the end of the list. -/
def prevyield (s : YieldState) (yieldep : ExecPoint) : Option ExecPoint :=
  s.yieldlist.reverse.find? fun tmpep =>
    tmpep.tid = yieldep.tid ∧ yieldep.compare tmpep = .before

end YieldState

namespace YieldTables

variable (t : YieldTables)

/-- The branches that `insertBranch` adds: a direction is missing. -/
def incompleteexploredbranch : List ExecPoint :=
  if t.noexecyields then
    t.branches.filter fun record => (t.valuevector record).length < t.getLen record
  else []

/-- The branches that could prevent the yield and that the previous yield does not account for. -/
def novelBranches (prevyield : Option ExecPoint) (yieldep : ExecPoint) : List ExecPoint :=
  t.incompleteexploredbranch.filter fun branchep =>
    branchep.tid = yieldep.tid ∧ yieldep.compare branchep = .before ∧
      ∀ prevyieldep ∈ prevyield, prevyieldep.compare branchep ≠ .before

/-- The array of the disjunction: the constraint of the old yield, then the novel branches. -/
def carray (record : ExecPoint) (s : YieldState) : List (Option Constraint) :=
  (s.prevyield record).toList.map (fun prevyield => (s.yieldtable prevyield).map .var) ++
    (t.novelBranches (s.prevyield record) record).map fun branch => some (t.getNewBranch branch)

/-- `computeYieldCond` with the constraint that it adds. -/
def computeYieldCond (record : ExecPoint) (s : YieldState) : Option Constraint × YieldState :=
  let cor := ((t.carray record s).mapM id).map fun carray =>
    if carray.isEmpty then .cfalse else .or carray
  (EncodingTables.imply (some (.var s.varindex)) cor,
    { yieldlist := s.yieldlist ++ [record]
      yieldtable := Function.update s.yieldtable record (some s.varindex)
      varindex := s.varindex + 1 })

def processYield (record : ExecPoint) (s : YieldState) : List (Option Constraint) × YieldState :=
  if t.noexecyields then
    let (possiblebranch, s) := t.computeYieldCond record s
    let noexecyield := (t.getExecutionConstraint record).map negate
    let branchaway := (s.yieldtable record).map Constraint.var
    ([possiblebranch, noexecyield.bind fun n => branchaway.map fun b => .or [n, b]], s)
  else ([], s)

/-- The constraints that the second traversal adds for the yields, with the yields. -/
def processRecords : List Processed → YieldState → List (ExecPoint × Option Constraint)
  | [], _ => []
  | .yield record :: rest, s =>
      (t.processYield record s).1.map (record, ·) ++
        processRecords rest (t.processYield record s).2
  | .other newvars :: rest, s =>
      processRecords rest { s with varindex := s.varindex + newvars }

def yieldVars : List Processed → YieldState → List Nat
  | [], _ => []
  | .yield record :: rest, s => s.varindex :: yieldVars rest (t.processYield record s).2
  | .other newvars :: rest, s => yieldVars rest { s with varindex := s.varindex + newvars }

def reset : YieldState := ⟨[], fun _ => none, t.varindex⟩

def threadConstraints (tid : Nat) (processed : List Processed) (s : YieldState) :
    List (Option Constraint) :=
  ((t.processRecords processed s).filter fun added => added.1.tid = tid).map Prod.snd

def Executed (ρ : Nat → Bool) (record : ExecPoint) : Prop :=
  ∃ e, t.getExecutionConstraint record = some e ∧ eval ρ e = true

/-- An incompletely explored branch of the thread in front of the record takes a new direction. -/
def BranchesAway (ρ : Nat → Bool) (record : ExecPoint) : Prop :=
  ∃ b ∈ t.incompleteexploredbranch, b.tid = record.tid ∧ record.compare b = .before ∧
    eval ρ (t.getNewBranch b) = true

instance (ρ : Nat → Bool) (record : ExecPoint) : Decidable (t.BranchesAway ρ record) :=
  inferInstanceAs (Decidable (∃ b ∈ t.incompleteexploredbranch, b.tid = record.tid ∧
    record.compare b = .before ∧ eval ρ (t.getNewBranch b) = true))

/-- The yields of the list are records of the graph, each with a variable that is taken. -/
structure Consistent (s : YieldState) : Prop where
  taken : t.varindex ≤ s.varindex
  recorded : ∀ y ∈ s.yieldlist, y ∈ t.records
  tabled : ∀ y ∈ s.yieldlist, ∃ v < s.varindex, s.yieldtable y = some v

variable {t} {s : YieldState} {ρ ρ' : Nat → Bool} {record : ExecPoint} {tid : Nat}
  {processed : List Processed}

/-! ## One yield -/

theorem prevyield_spec {prev : ExecPoint} (h : s.prevyield record = some prev) :
    prev ∈ s.yieldlist ∧ prev.tid = record.tid ∧ record.compare prev = .before := by
  have hspec := List.find?_some h
  rw [decide_eq_true_eq] at hspec
  exact ⟨List.mem_reverse.mp (List.mem_of_find?_eq_some h), hspec⟩

theorem mem_novelBranches {prevyield : Option ExecPoint} {b : ExecPoint} :
    b ∈ t.novelBranches prevyield record ↔ b ∈ t.incompleteexploredbranch ∧
      b.tid = record.tid ∧ record.compare b = .before ∧
        ∀ prev ∈ prevyield, prev.compare b ≠ .before := by
  rw [novelBranches, List.mem_filter, decide_eq_true_eq]

theorem Consistent.reset : t.Consistent t.reset where
  taken := Nat.le_refl _
  recorded := by simp [YieldTables.reset]
  tabled := by simp [YieldTables.reset]

theorem Consistent.other (h : t.Consistent s) (newvars : Nat) :
    t.Consistent { s with varindex := s.varindex + newvars } where
  taken := h.taken.trans (Nat.le_add_right _ _)
  recorded := h.recorded
  tabled y hy := by
    obtain ⟨v, hv, htable⟩ := h.tabled y hy
    exact ⟨v, by simp only; omega, htable⟩

theorem Consistent.yield (h : t.Consistent s) (hrecord : record ∈ t.records) :
    t.Consistent (t.computeYieldCond record s).2 where
  taken := h.taken.trans (Nat.le_succ _)
  recorded y hy := by
    rcases List.mem_append.mp hy with hy | hy
    · exact h.recorded y hy
    · rwa [List.mem_singleton.mp hy]
  tabled y hy := by
    by_cases heq : y = record
    · subst heq
      exact ⟨s.varindex, Nat.lt_succ_self _, Function.update_self _ _ _⟩
    · have hold : y ∈ s.yieldlist := by simpa [YieldTables.computeYieldCond, heq] using hy
      obtain ⟨v, hv, htable⟩ := h.tabled y hold
      refine ⟨v, Nat.lt_succ_of_lt hv, ?_⟩
      simpa [YieldTables.computeYieldCond, Function.update_of_ne heq] using htable

private theorem mapM_id_map_some (cs : List Constraint) : (cs.map some).mapM id = some cs := by
  induction cs with
  | nil => rfl
  | cons c cs ih => simp [List.mapM_cons, ih]

theorem Consistent.exists_cor (h : t.Consistent s) (record : ExecPoint) : ∃ cor,
    (t.computeYieldCond record s).1 = some (.implies (.var s.varindex) cor) ∧
      cor.implicationFree = true ∧ ∀ ρ, eval ρ cor = true ↔
        (∃ prev v, s.prevyield record = some prev ∧ s.yieldtable prev = some v ∧ ρ v = true) ∨
        ∃ b ∈ t.novelBranches (s.prevyield record) record,
          eval ρ (t.getNewBranch b) = true := by
  have harray : ∃ vars : List Nat, t.carray record s =
      (vars.map Constraint.var ++
        (t.novelBranches (s.prevyield record) record).map t.getNewBranch).map some ∧
      ∀ v, v ∈ vars ↔ ∃ prev, s.prevyield record = some prev ∧ s.yieldtable prev = some v := by
    unfold carray
    cases hprev : s.prevyield record with
    | none => exact ⟨[], by simp, by simp⟩
    | some prev =>
      obtain ⟨v, -, htable⟩ := h.tabled prev (prevyield_spec hprev).1
      exact ⟨[v], by simp [htable], by simp [htable, eq_comm]⟩
  obtain ⟨vars, harray, hvars⟩ := harray
  generalize t.novelBranches (s.prevyield record) record = novel at harray ⊢
  have hcond : (t.computeYieldCond record s).1 = some (.implies (.var s.varindex)
      (if (vars.map Constraint.var ++ novel.map t.getNewBranch).isEmpty then .cfalse
        else .or (vars.map Constraint.var ++ novel.map t.getNewBranch))) := by
    rw [YieldTables.computeYieldCond, harray, mapM_id_map_some]
    rfl
  have hany : ∀ ρ, (vars.map Constraint.var ++ novel.map t.getNewBranch).any (eval ρ) = true ↔
      (∃ prev v, s.prevyield record = some prev ∧ s.yieldtable prev = some v ∧ ρ v = true) ∨
        ∃ b ∈ novel, eval ρ (t.getNewBranch b) = true := by
    intro ρ
    simp only [List.any_append, Bool.or_eq_true, List.any_map, List.any_eq_true,
      Function.comp_apply, eval_var, hvars]
    apply or_congr_left
    constructor
    · rintro ⟨v, ⟨prev, hprev, htable⟩, hv⟩
      exact ⟨prev, v, hprev, htable, hv⟩
    · rintro ⟨prev, v, hprev, htable, hv⟩
      exact ⟨v, ⟨prev, hprev, htable⟩, hv⟩
  refine ⟨_, hcond, ?_, ?_⟩
  · split_ifs
    · rfl
    · rw [implicationFree_or, List.all_append, List.all_map, List.all_map]
      simp [BranchTables.getNewBranch, implicationFree, Function.comp_def]
  · intro ρ
    rw [← hany ρ]
    split_ifs with hempty
    · rw [List.isEmpty_iff.mp hempty]
      rfl
    · rw [eval_or]

theorem added_processYield_iff (hyields : t.noexecyields = true) {cor : Constraint}
    (hcor : (t.computeYieldCond record s).1 = some (.implies (.var s.varindex) cor))
    (hfree : cor.implicationFree = true) :
    Added ρ (t.processYield record s).1 ↔
      (ρ s.varindex = true → eval ρ cor = true) ∧
        (t.Executed ρ record → ρ s.varindex = true) := by
  have htable : (t.computeYieldCond record s).2.yieldtable record = some s.varindex :=
    Function.update_self _ _ _
  have hprocess : (t.processYield record s).1 = [some (.implies (.var s.varindex) cor),
      ((t.getExecutionConstraint record).map negate).bind fun n =>
        some (.or [n, .var s.varindex])] := by
    rw [processYield, if_pos hyields]
    simp only [hcor, htable, Option.map_some]
  rw [hprocess, added_cons_iff, added_implies_iff rfl hfree, eval_var]
  apply and_congr_right'
  unfold Executed
  cases hexec : t.getExecutionConstraint record with
  | none => simp [Added]
  | some e =>
    have hefree := BranchTables.implicationFree_getExecutionConstraint hexec
    have hor := all_addConstraint_or ρ [e.negate, .var s.varindex]
      (by simp [implicationFree_negate e hefree, implicationFree])
    simp only [Added, Option.map_some, Option.bind_some, List.mem_singleton, Option.some.injEq,
      forall_eq, hor, eval_or, List.any_cons, List.any_nil, eval_negate ρ e hefree,
      exists_eq_left']
    cases eval ρ e <;> simp

/-! ## Branches in front of the yield -/

/-- What the disjunction needs to say: with the earlier variables, those of earlier yields. -/
theorem Consistent.branchesAway_of_cor (h : t.Consistent s) (hrecord : record ∈ t.records)
    (hprev : ∀ y ∈ s.yieldlist, y.tid = record.tid → ∀ v, s.yieldtable y = some v →
      ρ v = true → t.BranchesAway ρ y)
    (hcor : (∃ prev v, s.prevyield record = some prev ∧ s.yieldtable prev = some v ∧ ρ v = true) ∨
      ∃ b ∈ t.novelBranches (s.prevyield record) record, eval ρ (t.getNewBranch b) = true) :
    t.BranchesAway ρ record := by
  rcases hcor with ⟨prev, v, hfind, htable, hv⟩ | ⟨b, hb, heval⟩
  · obtain ⟨hmem, htid, hbefore⟩ := prevyield_spec hfind
    obtain ⟨b, hb, hbtid, hbprev, heval⟩ := hprev prev hmem htid v htable hv
    have htypes := t.sameTypes record hrecord prev (h.recorded prev hmem) htid.symm
    exact ⟨b, hb, hbtid.trans htid,
      ExecPoint.comparePairs_before_trans htypes hbefore hbprev, heval⟩
  · obtain ⟨hb, htid, hbefore, -⟩ := mem_novelBranches.mp hb
    exact ⟨b, hb, htid, hbefore, heval⟩

theorem cor_of_branchesAway (h : t.Consistent s)
    (hprev : ∀ y ∈ s.yieldlist, ∀ v, s.yieldtable y = some v → t.BranchesAway ρ y → ρ v = true)
    (haway : t.BranchesAway ρ record) :
    (∃ prev v, s.prevyield record = some prev ∧ s.yieldtable prev = some v ∧ ρ v = true) ∨
      ∃ b ∈ t.novelBranches (s.prevyield record) record, eval ρ (t.getNewBranch b) = true := by
  obtain ⟨b, hb, htid, hbefore, heval⟩ := haway
  by_cases hold : ∀ prev ∈ s.prevyield record, prev.compare b ≠ .before
  · exact Or.inr ⟨b, mem_novelBranches.mpr ⟨hb, htid, hbefore, hold⟩, heval⟩
  · push Not at hold
    obtain ⟨prev, hfind, hbprev⟩ := hold
    obtain ⟨hmem, hptid, -⟩ := prevyield_spec hfind
    obtain ⟨v, -, htable⟩ := h.tabled prev hmem
    left
    exact ⟨prev, v, hfind, htable, hprev prev hmem v htable
      ⟨b, hb, htid.trans hptid.symm, hbprev, heval⟩⟩

theorem processYield_snd (hyields : t.noexecyields = true) :
    (t.processYield record s).2 = (t.computeYieldCond record s).2 := by
  rw [processYield, if_pos hyields]

theorem mem_yieldtable_yield {y : ExecPoint} {v : Nat}
    (hy : y ∈ (t.computeYieldCond record s).2.yieldlist)
    (hv : (t.computeYieldCond record s).2.yieldtable y = some v) :
    (y = record ∧ v = s.varindex) ∨ (y ∈ s.yieldlist ∧ s.yieldtable y = some v) := by
  simp only [computeYieldCond, List.mem_append, List.mem_singleton] at hy hv
  by_cases heq : y = record
  · subst heq
    rw [Function.update_self, Option.some.injEq] at hv
    exact Or.inl ⟨rfl, hv.symm⟩
  · rw [Function.update_of_ne heq] at hv
    exact Or.inr ⟨hy.resolve_right heq, hv⟩

/-! ## All yields -/

theorem threadConstraints_yield (rest : List Processed) :
    t.threadConstraints tid (.yield record :: rest) s =
      (if record.tid = tid then (t.processYield record s).1 else []) ++
        t.threadConstraints tid rest (t.processYield record s).2 := by
  simp only [threadConstraints, processRecords, List.filter_append, List.map_append]
  congr 1
  by_cases htid : record.tid = tid <;> simp [List.filter_map, Function.comp_def, htid]

theorem Consistent.branchesAway_of_added (hyields : t.noexecyields = true) (h : t.Consistent s)
    (hrecords : ∀ y, .yield y ∈ processed → y ∈ t.records)
    (hprev : ∀ y ∈ s.yieldlist, y.tid = tid → ∀ v, s.yieldtable y = some v →
      ρ v = true → t.BranchesAway ρ y)
    (hadded : Added ρ (t.threadConstraints tid processed s)) :
    ∀ y, .yield y ∈ processed → y.tid = tid → t.Executed ρ y → t.BranchesAway ρ y := by
  induction processed generalizing s with
  | nil => simp
  | cons p rest ih =>
    have hrest : ∀ y, .yield y ∈ rest → y ∈ t.records :=
      fun y hy => hrecords y (List.mem_cons_of_mem _ hy)
    cases p with
    | other newvars =>
      intro y hy
      exact ih (h.other newvars) hrest hprev hadded y (by simpa using hy)
    | yield record =>
      have hrecord := hrecords record List.mem_cons_self
      rw [threadConstraints_yield, added_append_iff, processYield_snd hyields] at hadded
      have hstep : record.tid = tid → (ρ s.varindex = true → t.BranchesAway ρ record) ∧
          (t.Executed ρ record → ρ s.varindex = true) := by
        intro htid
        obtain ⟨cor, hcor, hfree, heval⟩ := h.exists_cor record
        rw [if_pos htid, added_processYield_iff hyields hcor hfree, heval ρ] at hadded
        refine ⟨fun hv => ?_, hadded.1.2⟩
        apply h.branchesAway_of_cor hrecord _ (hadded.1.1 hv)
        rwa [htid]
      have hnext := ih (h.yield hrecord) hrest (by
        intro y hy htid v hv hρ
        rcases mem_yieldtable_yield hy hv with ⟨rfl, rfl⟩ | ⟨hy, hv⟩
        · exact (hstep htid).1 hρ
        · exact hprev y hy htid v hv hρ) hadded.2
      intro y hy htid hexec
      rcases List.mem_cons.mp hy with heq | hy
      · obtain rfl := Processed.yield.inj heq
        exact (hstep htid).1 ((hstep htid).2 hexec)
      · exact hnext y hy htid hexec

/-! ## The variables of the yields -/

theorem le_of_mem_yieldVars (hyields : t.noexecyields = true) {v : Nat}
    (h : v ∈ t.yieldVars processed s) : s.varindex ≤ v := by
  induction processed generalizing s with
  | nil => simp [yieldVars] at h
  | cons p rest ih =>
    cases p with
    | other newvars => exact (Nat.le_add_right _ _).trans (ih h)
    | yield record =>
      rcases List.mem_cons.mp h with rfl | h
      · exact Nat.le_refl _
      · rw [processYield_snd hyields] at h
        exact (Nat.le_succ _).trans (ih h)

private theorem eval_getNewBranch_congr (hagree : ∀ v < t.varindex, ρ' v = ρ v) (b : ExecPoint) :
    eval ρ' (t.getNewBranch b) = eval ρ (t.getNewBranch b) := by
  simp only [BranchTables.getNewBranch, eval_and, List.all_map]
  rw [Bool.eq_iff_iff, List.all_eq_true, List.all_eq_true]
  apply forall₂_congr
  intro v hv
  simp [hagree v (t.taken b v hv)]

theorem branchesAway_congr (hagree : ∀ v < t.varindex, ρ' v = ρ v) :
    t.BranchesAway ρ' record ↔ t.BranchesAway ρ record := by
  simp only [BranchesAway, eval_getNewBranch_congr hagree]

theorem executed_congr (hagree : ∀ v < t.varindex, ρ' v = ρ v) :
    t.Executed ρ' record ↔ t.Executed ρ record := by
  have hvars : ∀ r, ∀ v ∈ t.branchtable r, decide (v < t.varindex) = true :=
    fun r v hv => decide_eq_true (t.taken r v hv)
  unfold Executed
  apply exists_congr
  intro e
  apply and_congr_right
  intro he
  rw [eval_congr_vars (fun v hv => hagree v (of_decide_eq_true hv))
    (BranchTables.implicationFree_getExecutionConstraint he)
    (MemoryTables.allVars_getExecutionConstraint t.toBranchTables
      (fun _ _ branchval _ => hvars branchval.1) (fun branchval _ => hvars branchval.1) e he)]

theorem Consistent.exists_added (hyields : t.noexecyields = true) (h : t.Consistent s)
    (hrecords : ∀ y, .yield y ∈ processed → y ∈ t.records)
    (hprev : ∀ y ∈ s.yieldlist, ∀ v, s.yieldtable y = some v → (ρ v = true ↔ t.BranchesAway ρ y))
    (haway : ∀ y, .yield y ∈ processed → y.tid = tid → t.Executed ρ y → t.BranchesAway ρ y) :
    ∃ ρ' : Nat → Bool, (∀ v ∉ t.yieldVars processed s, ρ' v = ρ v) ∧
      Added ρ' (t.threadConstraints tid processed s) := by
  induction processed generalizing s ρ with
  | nil => exact ⟨ρ, fun v _ => rfl, by simp [threadConstraints, processRecords, Added]⟩
  | cons p rest ih =>
    have hrest : ∀ y, .yield y ∈ rest → y ∈ t.records :=
      fun y hy => hrecords y (List.mem_cons_of_mem _ hy)
    cases p with
    | other newvars =>
      exact ih (h.other newvars) hrest hprev fun y hy => haway y (List.mem_cons_of_mem _ hy)
    | yield record =>
      have hnext := h.yield (hrecords record List.mem_cons_self)
      let ρ₁ := Function.update ρ s.varindex (decide (t.BranchesAway ρ record))
      have hagree₁ : ∀ v < s.varindex, ρ₁ v = ρ v := fun v hv => Function.update_of_ne hv.ne _ _
      have hbranches₁ : ∀ v < t.varindex, ρ₁ v = ρ v :=
        fun v hv => hagree₁ v (hv.trans_le h.taken)
      have hvar₁ : ρ₁ s.varindex = decide (t.BranchesAway ρ record) := Function.update_self _ _ _
      have htabled₁ : ∀ y ∈ (t.computeYieldCond record s).2.yieldlist, ∀ v,
          (t.computeYieldCond record s).2.yieldtable y = some v →
            (ρ₁ v = true ↔ t.BranchesAway ρ₁ y) := by
        intro y hy v hv
        rw [branchesAway_congr hbranches₁]
        rcases mem_yieldtable_yield hy hv with ⟨rfl, rfl⟩ | ⟨hy, hv⟩
        · rw [hvar₁, decide_eq_true_eq]
        · obtain ⟨w, hw, hwtable⟩ := h.tabled y hy
          obtain rfl : w = v := Option.some.inj (hwtable.symm.trans hv)
          rw [hagree₁ w hw]
          exact hprev y hy w hv
      obtain ⟨ρ', hagree, hadded⟩ := ih hnext hrest htabled₁ (by
        intro y hy htid hexec
        rw [branchesAway_congr hbranches₁]
        rw [executed_congr hbranches₁] at hexec
        exact haway y (List.mem_cons_of_mem _ hy) htid hexec)
      have hagree' : ∀ v < s.varindex + 1, ρ' v = ρ₁ v := by
        intro v hv
        apply hagree v
        intro hmem
        exact absurd (le_of_mem_yieldVars hyields hmem) (Nat.not_le.mpr hv)
      have hold : ∀ v < s.varindex, ρ' v = ρ v :=
        fun v hv => (hagree' v (Nat.lt_succ_of_lt hv)).trans (hagree₁ v hv)
      have hbranches : ∀ v < t.varindex, ρ' v = ρ v := fun v hv => hold v (hv.trans_le h.taken)
      have hvar : ρ' s.varindex = true ↔ t.BranchesAway ρ' record := by
        rw [hagree' s.varindex (Nat.lt_succ_self _), hvar₁, decide_eq_true_eq,
          branchesAway_congr hbranches]
      refine ⟨ρ', ?_, ?_⟩
      · intro v hv
        rw [yieldVars, List.mem_cons, not_or, processYield_snd hyields] at hv
        rw [hagree v hv.2]
        exact Function.update_of_ne hv.1 _ _
      · rw [threadConstraints_yield, added_append_iff, processYield_snd hyields]
        refine ⟨?_, hadded⟩
        split_ifs with htid
        · obtain ⟨cor, hcor, hfree, heval⟩ := h.exists_cor record
          rw [added_processYield_iff hyields hcor hfree, heval ρ', hvar]
          constructor
          · apply cor_of_branchesAway h
            intro y hy v hv hyaway
            obtain ⟨w, hw, hwtable⟩ := h.tabled y hy
            obtain rfl : w = v := Option.some.inj (hwtable.symm.trans hv)
            rw [hold w hw]
            exact (hprev y hy w hv).mpr ((branchesAway_congr hbranches).mp hyaway)
          · rw [branchesAway_congr hbranches, executed_congr hbranches]
            exact haway record List.mem_cons_self htid
        · simp [Added]

/-- The constraints for the yields of a thread say that an executed yield is behind a branch that
takes a new direction, and nothing else about the other variables. -/
theorem processYield_threads (t : YieldTables) (hyields : t.noexecyields = true)
    (processed : List Processed) (hrecords : ∀ y, .yield y ∈ processed → y ∈ t.records)
    (tid : Nat) :
    (∀ ρ, Added ρ (t.threadConstraints tid processed t.reset) →
      ∀ y, .yield y ∈ processed → y.tid = tid → t.Executed ρ y → t.BranchesAway ρ y) ∧
    ∀ ρ, (∀ y, .yield y ∈ processed → y.tid = tid → t.Executed ρ y → t.BranchesAway ρ y) →
      ∃ ρ' : Nat → Bool, (∀ v ∉ t.yieldVars processed t.reset, ρ' v = ρ v) ∧
        Added ρ' (t.threadConstraints tid processed t.reset) := by
  constructor
  · intro ρ
    apply Consistent.reset.branchesAway_of_added hyields hrecords
    simp [reset]
  · intro ρ
    apply Consistent.reset.exists_added hyields hrecords
    simp [reset]

theorem functionVars_yieldsBehindBranch (_ : ExecPoint) :
    ([] : List Nat).length = numBits (([] : List UInt64).length + 1) := rfl

/-- A branch that has gone in one of two directions, a yield in that direction and one behind the
branch. -/
def yieldsBehindBranch : YieldTables where
  info r := ⟨if r = ⟨0, [(.counter, 1)]⟩ then .branchdir else .yield, 0, .add, false, 0⟩
  getSet _ _ := []
  getRevDependences _ _ := none
  equalstable _ := 0
  functiontable _ := []
  getStoreLoadSet _ := 0
  getValues _ := []
  getValVars _ := List.replicate 32 0
  getRMWRValVars _ := List.replicate 32 0
  varindex := 2
  functionVars := functionVars_yieldsBehindBranch
  valVars _ := rfl
  rmwrValVars _ := rfl
  valuevector _ := [0]
  getLen _ := 2
  getBranchAnyValue _ := true
  branch r := if r = ⟨0, [(.counter, 1), (.branch, 0), (.counter, 0)]⟩ then
    some (⟨0, [(.counter, 1)]⟩, 0) else none
  execcondtable _ := []
  branchtable _ := [1]
  inserted r hbranch := by
    have hr : r = ⟨0, [(.counter, 1)]⟩ := by
      by_contra hne
      simp [hne] at hbranch
    subst hr
    rfl
  noexecyields := true
  records := [⟨0, [(.counter, 1)]⟩, ⟨0, [(.counter, 1), (.branch, 0), (.counter, 0)]⟩,
    ⟨0, [(.counter, 2)]⟩]
  branches := [⟨0, [(.counter, 1)]⟩]
  sameTypes := by decide
  taken _ := by decide

def twoYields : List Processed :=
  [.yield ⟨0, [(.counter, 1), (.branch, 0), (.counter, 0)]⟩, .other 3, .yield ⟨0, [(.counter, 2)]⟩]

/-- The second yield has the variable of the first one, which stands for the branch. -/
theorem processYield_threads_twoYields :
    (∀ ρ, Added ρ (yieldsBehindBranch.threadConstraints 0 twoYields yieldsBehindBranch.reset) →
      ∀ y, .yield y ∈ twoYields → y.tid = 0 → yieldsBehindBranch.Executed ρ y →
        yieldsBehindBranch.BranchesAway ρ y) ∧
    ∀ ρ, (∀ y, .yield y ∈ twoYields → y.tid = 0 → yieldsBehindBranch.Executed ρ y →
        yieldsBehindBranch.BranchesAway ρ y) →
      ∃ ρ' : Nat → Bool,
        (∀ v ∉ yieldsBehindBranch.yieldVars twoYields yieldsBehindBranch.reset, ρ' v = ρ v) ∧
        Added ρ' (yieldsBehindBranch.threadConstraints 0 twoYields yieldsBehindBranch.reset) :=
  processYield_threads yieldsBehindBranch rfl twoYields (by simp [yieldsBehindBranch, twoYields]) 0

end YieldTables

end SatCheck
