import SatCheck.PlannerReachable
import SatCheck.PlannerSteps
/-!
# Goals of shared functions

The functions of one identifier share their goals and have input sets of their own.  A new
function, a new goal and a new input value each evaluate the goals that they may complete.
-/

namespace SatCheck

namespace PlannerState

variable {R : Type} [DecidableEq R] {info : R → RecordInfo} {s s' : PlannerState R} {record : R}

def KnowsInputs (s : PlannerState R) (record : R) (goal : CGoal) : Prop :=
  ∀ p ∈ goal.inputs.zipIdx, p.1 ∈ s.sets record (vcBaseIndex + p.2)

def IsShared (info : R → RecordInfo) (record : R) : Prop :=
  (info record).isFunction ∧ (info record).isSharedGoals = true

/-- The output of every goal with known inputs is known. -/
def Saturated (info : R → RecordInfo) (s : PlannerState R) (record : R) : Prop :=
  ∀ goal ∈ s.sharedgoals (info record).functionId, s.KnowsInputs record goal →
    goal.output ∈ s.sets record vcFuncoutIndex

omit [DecidableEq R] in
theorem KnowsInputs.congr {goal : CGoal}
    (hsets : ∀ i, vcBaseIndex ≤ i → s'.sets record i = s.sets record i) :
    s'.KnowsInputs record goal ↔ s.KnowsInputs record goal := by
  unfold KnowsInputs
  apply forall₂_congr
  intro p _
  rw [hsets _ (Nat.le_add_right _ _)]

omit [DecidableEq R] in
theorem completedGoalSet_of_isShared (h : IsShared info record) :
    s.completedGoalSet info record = s.sharedgoals (info record).functionId := if_pos h.2

/-! ## Evaluating goals -/

/-- Only values at `VC_FUNCOUTINDEX` come in. -/
structure OutputsOnly (s s' : PlannerState R) : Prop where
  eptable : s'.eptable = s.eptable
  sharedgoals : s'.sharedgoals = s.sharedgoals
  sharedfuncrecords : s'.sharedfuncrecords = s.sharedfuncrecords
  subset : ∀ r i, ∀ v ∈ s.sets r i, v ∈ s'.sets r i
  inputs : ∀ r i, vcBaseIndex ≤ i → s'.sets r i = s.sets r i

omit [DecidableEq R] in
theorem OutputsOnly.refl (s : PlannerState R) : OutputsOnly s s :=
  ⟨rfl, rfl, rfl, fun _ _ _ hv => hv, fun _ _ _ => rfl⟩

omit [DecidableEq R] in
theorem OutputsOnly.trans {s'' : PlannerState R} (h : OutputsOnly s s')
    (h' : OutputsOnly s' s'') : OutputsOnly s s'' where
  eptable := h'.eptable.trans h.eptable
  sharedgoals := h'.sharedgoals.trans h.sharedgoals
  sharedfuncrecords := h'.sharedfuncrecords.trans h.sharedfuncrecords
  subset r i v hv := h'.subset r i v (h.subset r i v hv)
  inputs r i hi := (h'.inputs r i hi).trans (h.inputs r i hi)

omit [DecidableEq R] in
theorem OutputsOnly.knowsInputs (h : OutputsOnly s s') {goal : CGoal} :
    s'.KnowsInputs record goal ↔ s.KnowsInputs record goal :=
  KnowsInputs.congr (h.inputs record)

theorem outputsOnly_recordFunctionChange (s : PlannerState R) (record : R) (val : UInt64) :
    OutputsOnly s (s.recordFunctionChange record val) := by
  have hsteps : RegisterSteps record s (s.recordFunctionChange record val) :=
    RegisterSteps.recordNewValue s (by decide) val
  constructor
  · exact hsteps.keeps.eptable
  · exact hsteps.keeps.sharedgoals
  · exact hsteps.keeps.sharedfuncrecords
  · exact hsteps.subset.sets
  · intro r i hi
    have hne : i ≠ vcFuncoutIndex := by
      rintro rfl
      exact absurd hi (by decide)
    unfold recordFunctionChange recordNewValue
    split_ifs <;> simp [addChange, addValue, hne]

theorem mem_recordFunctionChange (s : PlannerState R) (record : R) (val : UInt64) :
    val ∈ (s.recordFunctionChange record val).sets record vcFuncoutIndex := by
  unfold recordFunctionChange recordNewValue
  split_ifs with hmem
  · exact hmem
  · exact mem_sets_addValue.mpr (.inr ⟨rfl, rfl, rfl⟩)

private theorem outputsOnly_evalGoal (s : PlannerState R) (record : R) (goal : CGoal) :
    OutputsOnly s (s.evalGoal record goal) := by
  unfold evalGoal
  split_ifs
  · exact outputsOnly_recordFunctionChange s record goal.output
  · exact OutputsOnly.refl s

private theorem mem_evalGoal {goal : CGoal} (h : s.KnowsInputs record goal) :
    goal.output ∈ (s.evalGoal record goal).sets record vcFuncoutIndex := by
  have hall : goal.inputs.zipIdx.all
      (fun p => p.1 ∈ s.sets record (vcBaseIndex + p.2)) = true := by
    rw [List.all_eq_true]
    exact fun p hp => decide_eq_true (h p hp)
  unfold evalGoal
  rw [if_pos hall]
  exact mem_recordFunctionChange s record goal.output

theorem foldl_evalGoal {α : Type*} (func : α → R) (goal : α → CGoal) (selects : α → Prop)
    [DecidablePred selects] (l : List α) (s : PlannerState R) :
    OutputsOnly s (l.foldl (fun s x =>
        if selects x then s.evalGoal (func x) (goal x) else s) s) ∧
      ∀ x ∈ l, selects x → s.KnowsInputs (func x) (goal x) →
        (goal x).output ∈ (l.foldl (fun s x =>
          if selects x then s.evalGoal (func x) (goal x) else s) s).sets (func x)
            vcFuncoutIndex := by
  induction l generalizing s with
  | nil => exact ⟨OutputsOnly.refl s, by simp⟩
  | cons y l ih =>
    obtain ⟨houtputs, hmem⟩ := ih (if selects y then s.evalGoal (func y) (goal y) else s)
    have hstep : OutputsOnly s (if selects y then s.evalGoal (func y) (goal y) else s) := by
      split_ifs
      · exact outputsOnly_evalGoal s (func y) (goal y)
      · exact OutputsOnly.refl s
    rw [List.foldl_cons]
    constructor
    · exact hstep.trans houtputs
    · intro x hx hselects hknows
      rcases List.mem_cons.mp hx with rfl | hx
      · -- the output is there when the loop goes on, and stays there
        apply houtputs.subset
        rw [if_pos hselects]
        exact mem_evalGoal hknows
      · exact hmem x hx hselects (hstep.knowsInputs.mpr hknows)

/-! ## Registering a value -/

theorem Saturated.of_ne {r : R} (h : Saturated info s r) (hsteps : RegisterSteps record s s')
    (hne : r ≠ record) : Saturated info s' r := by
  intro goal hgoal hknows
  rw [hsteps.keeps.sharedgoals] at hgoal
  have hsets := hsteps.sets_of_ne hne
  rw [hsets]
  exact h goal hgoal ((KnowsInputs.congr fun i _ => by rw [hsets]).mp hknows)

private theorem saturated_registerFunctionValue (h : Saturated info s record)
    (hshared : IsShared info record) (val : UInt64) (index : Nat) :
    Saturated info (s.registerFunctionValue info record val index) record := by
  have hphi : (info record).phi = false := hshared.1.2
  unfold registerFunctionValue
  simp only [hphi, Bool.false_eq_true, if_false, hshared.2, and_true]
  split_ifs with hold
  · rw [addValue_of_mem hold]
    exact h
  · have hgoals : completedGoalSet info (s.addValue record index val) record =
        s.sharedgoals (info record).functionId := completedGoalSet_of_isShared hshared
    rw [hgoals]
    obtain ⟨houtputs, hmem⟩ := foldl_evalGoal (fun _ => record) id
      (fun goal => goal.getValue index = val) (s.sharedgoals (info record).functionId)
      (s.addValue record index val)
    simp only [id] at houtputs hmem
    intro goal hgoal hknows
    rw [houtputs.sharedgoals] at hgoal
    have hknows' := houtputs.knowsInputs.mp hknows
    by_cases hbefore : s.KnowsInputs record goal
    · apply houtputs.subset
      exact mem_sets_addValue.mpr (.inl (h goal hgoal hbefore))
    · -- the goal has the new value at an input that was missing
      apply hmem goal hgoal _ hknows'
      simp only [KnowsInputs, not_forall] at hbefore
      obtain ⟨p, hp, hmissing⟩ := hbefore
      obtain ⟨-, hindex, hval⟩ := (mem_sets_addValue.mp (hknows' p hp)).resolve_left hmissing
      have hinput : goal.inputs[p.2]? = some p.1 := List.mk_mem_zipIdx_iff_getElem?.mp hp
      rw [← hindex, CGoal.getValue, if_neg (by omega), Nat.add_sub_cancel_left,
        List.getD_eq_getElem?_getD, hinput, Option.getD_some, hval]

theorem Saturated.registerValue {r : R} (h : Saturated info s r) (hshared : IsShared info r)
    (record : R) (val : UInt64) (index : Nat) :
    Saturated info (s.registerValue info record val index) r := by
  by_cases hne : r = record
  · subst hne
    unfold PlannerState.registerValue
    rw [hshared.1.1]
    exact saturated_registerFunctionValue h hshared val index
  · exact h.of_ne (RegisterSteps.registerValue info record s val index) hne

/-! ## Calls -/

/-- What holds of shared functions and goals between any two operations. -/
structure GoalInv (info : R → RecordInfo) (s : PlannerState R) : Prop where
  listed : ∀ r ∈ s.eptable, IsShared info r → r ∈ s.sharedfuncrecords (info r).functionId
  saturated : ∀ r ∈ s.eptable, IsShared info r → Saturated info s r
  distinct : ∀ id, (s.sharedgoals id).Pairwise fun g g' => g.inputs ≠ g'.inputs

theorem GoalInv.of_frame (h : GoalInv info s) (hframe : CallFrame record s s')
    (hrecord : ¬ IsShared info record) : GoalInv info s' := by
  have hold : ∀ r ∈ s'.eptable, IsShared info r → r ∈ s.eptable ∧ r ≠ record := by
    intro r hr hshared
    have hne : r ≠ record := by
      rintro rfl
      exact hrecord hshared
    rw [hframe.eptable] at hr
    exact ⟨(HashSet.mem_add.mp hr).resolve_right hne, hne⟩
  constructor
  · intro r hr hshared
    rw [hframe.sharedfuncrecords]
    exact h.listed r (hold r hr hshared).1 hshared
  · intro r hr hshared goal hgoal hknows
    obtain ⟨hmem, hne⟩ := hold r hr hshared
    rw [hframe.sharedgoals] at hgoal
    rw [hframe.sets r hne]
    exact h.saturated r hmem hshared goal hgoal
      ((KnowsInputs.congr fun i _ => by rw [hframe.sets r hne]).mp hknows)
  · intro id
    rw [hframe.sharedgoals]
    exact h.distinct id

private theorem mem_addSharedFunction {id : Nat} {r : R} :
    r ∈ (s.addSharedFunction info record).sharedfuncrecords id ↔
      r ∈ s.sharedfuncrecords id ∨ id = (info record).functionId ∧ r = record := by
  simp only [addSharedFunction]
  split_ifs with h <;> simp [h]

theorem GoalInv.functionChanges (h : GoalInv info s) (hfunction : (info record).isFunction)
    (inputs : List R) : GoalInv info (s.functionChanges info record inputs) := by
  unfold PlannerState.functionChanges
  simp only
  split_ifs with hnew
  · have hshared : IsShared info record := ⟨hfunction, hnew.2⟩
    have hgoals : completedGoalSet info (((s.getOrCreateCurrRecord record).addSharedFunction info
        record).copyInputs info record inputs) record =
          s.sharedgoals (info record).functionId := by
      rw [completedGoalSet_of_isShared hshared,
        (RegisterSteps.copyInputs info record _ inputs).keeps.sharedgoals]
      rfl
    rw [hgoals]
    have hcopy := RegisterSteps.copyInputs info record
      ((s.getOrCreateCurrRecord record).addSharedFunction info record) inputs
    obtain ⟨houtputs, hmem⟩ := foldl_evalGoal (fun _ => record) id (fun _ => True)
      (s.sharedgoals (info record).functionId)
      (((s.getOrCreateCurrRecord record).addSharedFunction info record).copyInputs info record
        inputs)
    simp only [if_true, id] at houtputs hmem
    constructor
    · intro r hr hshared'
      rw [houtputs.eptable, hcopy.keeps.eptable] at hr
      rw [houtputs.sharedfuncrecords, hcopy.keeps.sharedfuncrecords, mem_addSharedFunction]
      rcases HashSet.mem_add.mp hr with hr | rfl
      · exact .inl (h.listed r hr hshared')
      · exact .inr ⟨rfl, rfl⟩
    · intro r hr hshared' goal hgoal hknows
      rw [houtputs.sharedgoals, hcopy.keeps.sharedgoals] at hgoal
      rw [houtputs.eptable, hcopy.keeps.eptable] at hr
      have hknows' := houtputs.knowsInputs.mp hknows
      have hcases : r ∈ s.eptable ∨ r = record := HashSet.mem_add.mp hr
      rcases hcases with hold | rfl
      · have hne : r ≠ record := by
          rintro rfl
          exact hnew.1 hold
        apply houtputs.subset
        apply hcopy.subset.sets
        exact h.saturated r hold hshared' goal hgoal
          ((KnowsInputs.congr fun i _ => by rw [hcopy.sets_of_ne hne]; rfl).mp hknows')
      · exact hmem goal hgoal trivial hknows'
    · intro id
      rw [houtputs.sharedgoals, hcopy.keeps.sharedgoals]
      exact h.distinct id
  · -- the record is there already, or it shares nothing
    have hold : ∀ r ∈ (s.getOrCreateCurrRecord record).eptable, IsShared info r →
        r ∈ s.eptable := by
      intro r hr hshared
      rcases HashSet.mem_add.mp hr with hr | rfl
      · exact hr
      · by_contra hnot
        exact hnew ⟨hnot, hshared.2⟩
    constructor
    · exact fun r hr hshared => h.listed r (hold r hr hshared) hshared
    · exact fun r hr hshared => h.saturated r (hold r hr hshared) hshared
    · exact h.distinct

/-! ## A new goal -/

omit [DecidableEq R] in
theorem GoalInv.outputsOnly (h : GoalInv info s) (houtputs : OutputsOnly s s') :
    GoalInv info s' := by
  constructor
  · intro r hr hshared
    rw [houtputs.eptable] at hr
    rw [houtputs.sharedfuncrecords]
    exact h.listed r hr hshared
  · intro r hr hshared goal hgoal hknows
    rw [houtputs.eptable] at hr
    rw [houtputs.sharedgoals] at hgoal
    exact houtputs.subset _ _ _
      (h.saturated r hr hshared goal hgoal (houtputs.knowsInputs.mp hknows))
  · intro id
    rw [houtputs.sharedgoals]
    exact h.distinct id

private theorem addGoal_of_isShared (h : IsShared info record) (s : PlannerState R)
    (goal : CGoal) :
    s.addGoal info record goal =
      { s with
        sharedgoals := fun id =>
          if id = (info record).functionId then s.sharedgoals id ++ [goal]
          else s.sharedgoals id } := if_pos h.2

/-- The function that reached the goal has its output, and all others evaluate it. -/
theorem GoalInv.functionOutput (h : GoalInv info s) (hfunction : (info record).isFunction)
    (goal : CGoal) : GoalInv info (s.functionOutput info record goal) := by
  unfold PlannerState.functionOutput
  simp only
  split_ifs with hknown hid
  · exact h
  · have hshared : IsShared info record := ⟨hfunction, hid⟩
    rw [completedGoalSet_of_isShared hshared] at hknown
    obtain ⟨houtputs, hmem⟩ := foldl_evalGoal id (fun _ => goal) (fun func => func ≠ record)
      (s.sharedfuncrecords (info record).functionId)
      ((s.addGoal info record goal).recordFunctionChange record goal.output)
    simp only [ne_eq, ite_not, id] at houtputs hmem
    have hrecorded := outputsOnly_recordFunctionChange (s.addGoal info record goal) record
      goal.output
    have hfuncs : ((s.addGoal info record goal).recordFunctionChange record
        goal.output).sharedfuncrecords = s.sharedfuncrecords := by
      rw [hrecorded.sharedfuncrecords, addGoal, if_pos hid]
    rw [hfuncs]
    have hall := hrecorded.trans houtputs
    have hadded := addGoal_of_isShared hshared s goal
    constructor
    · intro r hr hshared'
      rw [hall.eptable, hadded] at hr
      rw [hall.sharedfuncrecords, hadded]
      exact h.listed r hr hshared'
    · intro r hr hshared' g hg hknows
      rw [hall.eptable, hadded] at hr
      rw [hall.sharedgoals, hadded] at hg
      have hknows' := houtputs.knowsInputs.mp hknows
      have hold : g ∈ s.sharedgoals (info r).functionId → g.output ∈ s.sets r vcFuncoutIndex := by
        intro hg
        apply h.saturated r hr hshared' g hg
        have hbefore := hrecorded.knowsInputs.mp hknows'
        rwa [hadded] at hbefore
      have hsets : (s.addGoal info record goal).sets = s.sets := by rw [hadded]
      simp only at hg
      split_ifs at hg with hsame
      · rcases List.mem_append.mp hg with hg | hg
        · apply hall.subset
          rw [hsets]
          exact hold hg
        · obtain rfl := List.mem_singleton.mp hg
          by_cases hne : r = record
          · subst hne
            exact houtputs.subset _ _ _ (mem_recordFunctionChange _ r g.output)
          · apply hmem r _ hne hknows'
            rw [← hsame]
            exact h.listed r hr hshared'
      · apply hall.subset
        rw [hsets]
        exact hold hg
    · intro id
      rw [hall.sharedgoals, hadded]
      simp only
      split_ifs
      · apply List.pairwise_append.mpr
        refine ⟨h.distinct id, List.pairwise_singleton _ _, ?_⟩
        intro g hg g' hg' heq
        obtain rfl := List.mem_singleton.mp hg'
        apply hknown
        rw [List.any_eq_true]
        subst_vars
        exact ⟨g, hg, by simpa using heq⟩
      · exact h.distinct id
  · have hgoal : s.addGoal info record goal =
        { s with goals := (s.addGoal info record goal).goals } := by
      unfold addGoal
      rw [if_neg hid]
    have hadded : GoalInv info (s.addGoal info record goal) := by
      rw [hgoal]
      exact ⟨h.listed, h.saturated, h.distinct⟩
    exact hadded.outputsOnly (outputsOnly_recordFunctionChange _ record goal.output)

theorem GoalInv.processNext (h : GoalInv info s) (c : MCChange R) :
    GoalInv info (s.processNext info c) := by
  have hprocess : ∀ s : PlannerState R, GoalInv info s → GoalInv info (s.processChange info c) := by
    intro s h
    have hkeeps := (Registers.processChange info s c).rel
      (P := fun s s' => Keeps s s' ∧
        ∀ r, IsShared info r → Saturated info s r → Saturated info s' r)
      (fun s => ⟨Keeps.refl s, fun _ _ h => h⟩)
      (fun s s' s'' h h' => ⟨h.1.trans h'.1, fun r hr hs => h'.2 r hr (h.2 r hr hs)⟩)
      (fun s record val index => ⟨(RegisterSteps.registerValue info record s val index).keeps,
        fun r hr hs => hs.registerValue hr record val index⟩)
    obtain ⟨hkeeps, hsaturated⟩ := hkeeps
    constructor
    · intro r hr hshared
      rw [hkeeps.eptable] at hr
      rw [hkeeps.sharedfuncrecords]
      exact h.listed r hr hshared
    · intro r hr hshared
      rw [hkeeps.eptable] at hr
      exact hsaturated r hshared (h.saturated r hr hshared)
    · intro id
      rw [hkeeps.sharedgoals]
      exact h.distinct id
  have herase : GoalInv info { s with changeset := s.changeset.erase c } :=
    ⟨h.listed, h.saturated, h.distinct⟩
  unfold PlannerState.processNext
  simp only
  split_ifs
  · exact herase
  · have hnext := hprocess _ herase
    exact ⟨hnext.listed, hnext.saturated, hnext.distinct⟩

theorem GoalInv.exec (h : GoalInv info s) (call : Call R) (hown : call.OnOwnRecord info) :
    GoalInv info (call.exec info s) := by
  by_cases hfunction : (info call.record).isFunction
  · cases call with
    | function record inputs len val =>
      have hchanges := h.functionChanges hfunction (inputs.map Prod.fst)
      obtain ⟨deps, heq⟩ := recordContext_eq
        (s.functionChanges info record (inputs.map Prod.fst)) record none none
        (inputs.map fun p => some p.1)
      have hcontext : GoalInv info ((s.functionChanges info record
          (inputs.map Prod.fst)).recordContext record none none
            (inputs.map fun p => some p.1)) := by
        rw [heq]
        exact ⟨hchanges.listed, hchanges.saturated, hchanges.distinct⟩
      exact hcontext.functionOutput hfunction _
    | phi record input => exact absurd (hown.2.symm.trans hfunction.2) (by decide)
    | _ => exact absurd (hown.symm.trans hfunction.1) (by decide)
  · exact h.of_frame (call.frame s hown hfunction) fun hshared => hfunction hshared.1

/-- The goals of an identifier have distinct inputs, and a function that knows the inputs of one
knows its output. -/
def GoalsSaturated (info : R → RecordInfo) (s : PlannerState R) : Prop :=
  ∀ id, id ≠ 0 →
    (∀ r ∈ s.eptable, (info r).event = .function → (info r).phi = false →
      (info r).functionId = id → ∀ goal ∈ s.sharedgoals id, s.KnowsInputs r goal →
        goal.output ∈ s.sets r vcFuncoutIndex) ∧
    (s.sharedgoals id).Pairwise fun g g' => g.inputs ≠ g'.inputs

end PlannerState

open PlannerState

theorem PlannerReachable.goalInv {R : Type} [DecidableEq R] {info : R → RecordInfo}
    {s : PlannerState R} (h : PlannerReachable info s) : GoalInv info s := by
  induction h with
  | empty =>
    exact ⟨by simp [PlannerState.empty], by simp [PlannerState.empty], by simp [PlannerState.empty]⟩
  | call _ call hown ih => exact ih.exec call hown
  | processChanges _ fuel hrun ih =>
    obtain ⟨t, ht, -, rfl⟩ := processChanges_induction (fun s c hs _ => hs.processNext c) ih hrun
    exact ⟨ht.listed, ht.saturated, ht.distinct⟩

theorem goalsSaturated_of_reachable {R : Type} [DecidableEq R] {info : R → RecordInfo}
    {s : PlannerState R} (h : PlannerReachable info s) : GoalsSaturated info s := by
  intro id hid
  have hinv := h.goalInv
  constructor
  · intro r hr hevent hphi hfid goal hgoal hknows
    subst hfid
    exact hinv.saturated r hr ⟨⟨hevent, hphi⟩, by simpa [RecordInfo.isSharedGoals] using hid⟩
      goal hgoal hknows
  · exact hinv.distinct id

open scoped FewRecords

/-- Records 0 and 1 are functions of one identifier, record 2 is a load, and 3 and 4 are stores. -/
def sharedFunctionInfo (r : Fin 5) : RecordInfo :=
  ⟨if r < 2 then .function else if r = 2 then .load else .store, 0, .add, false,
    if r < 2 then 1 else 0⟩

/-- In the first run the load reads 5, which a function sends to 2. -/
def sharedFunctionFirst : PlannerState (Fin 5) :=
  (Call.function 0 [(2, 5)] 8 2).exec sharedFunctionInfo
    ((Call.load 2 16 (some 3) none).exec sharedFunctionInfo
      ((Call.store 4 16 7 8 none none).exec sharedFunctionInfo
        ((Call.store 3 16 5 8 none none).exec sharedFunctionInfo .empty)))

/-- In the second run it reads 7, which the other function sends to 3. -/
def sharedFunctionSecond (s : PlannerState (Fin 5)) : PlannerState (Fin 5) :=
  (Call.function 1 [(2, 7)] 8 3).exec sharedFunctionInfo
    ((Call.load 2 16 (some 4) none).exec sharedFunctionInfo s)

/-- Both functions know both inputs, so that each has the output of the other. -/
theorem goalsSaturated_sharedFunction :
    ∃ s s', sharedFunctionFirst.processChanges sharedFunctionInfo 30 = some s ∧
      (sharedFunctionSecond s).processChanges sharedFunctionInfo 30 = some s' ∧
      s'.sharedgoals 1 = [⟨[5], 2⟩, ⟨[7], 3⟩] ∧
      (∀ r ∈ [0, 1], s'.KnowsInputs r ⟨[5], 2⟩ ∧ s'.KnowsInputs r ⟨[7], 3⟩) ∧
      GoalsSaturated sharedFunctionInfo s' := by
  have hruns : (sharedFunctionFirst.processChanges sharedFunctionInfo 30).any (fun s =>
      ((sharedFunctionSecond s).processChanges sharedFunctionInfo 30).any fun s' =>
        s'.sharedgoals 1 = [⟨[5], 2⟩, ⟨[7], 3⟩] ∧
          ∀ r ∈ [0, 1], 5 ∈ s'.sets r vcBaseIndex ∧ 7 ∈ s'.sets r vcBaseIndex) = true := by
    decide +kernel
  obtain ⟨s, hs, hsecond⟩ := Option.any_eq_true _ _ |>.mp hruns
  obtain ⟨s', hs', hknows⟩ := Option.any_eq_true _ _ |>.mp hsecond
  rw [decide_eq_true_eq] at hknows
  have hfirst : PlannerReachable sharedFunctionInfo sharedFunctionFirst :=
    .call (.call (.call (.call .empty (.store 3 16 5 8 none none) (by rfl))
      (.store 4 16 7 8 none none) (by rfl)) (.load 2 16 (some 3) none) (by rfl))
      (.function 0 [(2, 5)] 8 2) ⟨by rfl, by rfl⟩
  have hlast : PlannerReachable sharedFunctionInfo (sharedFunctionSecond s) :=
    .call (.call (.processChanges hfirst 30 hs) (.load 2 16 (some 4) none) (by rfl))
      (.function 1 [(2, 7)] 8 3) ⟨by rfl, by rfl⟩
  refine ⟨s, s', hs, hs', hknows.1, fun r hr => ?_,
    goalsSaturated_of_reachable (.processChanges hlast 30 hs')⟩
  simpa [KnowsInputs] using hknows.2 r hr

end SatCheck
