import SatCheck.PlannerSteps
import Mathlib.Algebra.Order.BigOperators.Group.List
import Mathlib.Data.Set.Card
/-!
# The worklist of the planner runs empty

Handling a change may put changes back that are not new.  They are dropped when they come up
again, and there are only finitely many changes to handle.
-/

namespace SatCheck

namespace PlannerState

variable {R : Type} [DecidableEq R] {info : R → RecordInfo} {s s' s'' : PlannerState R}

variable (info) in
/-- The changes that `processChanges` dispatches in at most `fuel` iterations. -/
def handledChanges (s : PlannerState R) : Nat → List (MCChange R)
  | 0 => []
  | fuel + 1 =>
      match s.changeset with
      | [] => []
      | change :: _ =>
          if change ∈ s.completedset then handledChanges (s.processNext info change) fuel
          else change :: handledChanges (s.processNext info change) fuel

/-! ## One iteration -/

variable (info) in
private theorem processChange_changes (s : PlannerState R) (c : MCChange R) :
    (s.processChange info c).completedset = s.completedset ∧
      ∀ d ∈ (s.processChange info c).changeset, d ∈ s.changeset ∨ d.index ≤ vcValoutIndex := by
  apply (Registers.processChange info s c).rel (P := fun s s' =>
    s'.completedset = s.completedset ∧
      ∀ d ∈ s'.changeset, d ∈ s.changeset ∨ d.index ≤ vcValoutIndex)
  · exact fun s => ⟨rfl, fun _ hd => .inl hd⟩
  · intro s s' s'' h h'
    exact ⟨h'.1.trans h.1, fun d hd => (h'.2 d hd).elim (h.2 d) .inr⟩
  · intro s record val index
    have hsteps := RegisterSteps.registerValue info record s val index
    exact ⟨hsteps.keeps.completedset, hsteps.mem_changeset⟩

theorem processNext_of_completed {c : MCChange R} (h : c ∈ s.completedset) :
    s.processNext info c = { s with changeset := s.changeset.erase c } := by
  simp [processNext, h]

/-- A change that is dispatched is completed, and only slots of records come in. -/
theorem processNext_of_not_completed {c : MCChange R} (h : c ∉ s.completedset) :
    (s.processNext info c).completedset = HashSet.add s.completedset c ∧
      ∀ d ∈ (s.processNext info c).changeset, d ∈ s.changeset ∨ d.index ≤ vcValoutIndex := by
  obtain ⟨hcompleted, hchanges⟩ := processChange_changes info
    { s with changeset := s.changeset.erase c } c
  unfold processNext
  simp only [if_neg h]
  constructor
  · rw [hcompleted]
  · intro d hd
    exact (hchanges d hd).imp_left List.mem_of_mem_erase

theorem completedset_processNext_subset (c : MCChange R) :
    ∀ d ∈ s.completedset, d ∈ (s.processNext info c).completedset := by
  intro d hd
  by_cases h : c ∈ s.completedset
  · rwa [processNext_of_completed h]
  · rw [(processNext_of_not_completed h).1]
    exact HashSet.mem_add.mpr (.inl hd)

/-- No change is dispatched twice, and none that was completed before. -/
theorem handledChanges_nodup (s : PlannerState R) (fuel : Nat) :
    (s.handledChanges info fuel).Nodup ∧
      ∀ c ∈ s.handledChanges info fuel, c ∉ s.completedset := by
  induction fuel generalizing s with
  | zero => simp [handledChanges]
  | succ fuel ih =>
    unfold handledChanges
    split
    next => simp
    next c rest hcons =>
      obtain ⟨hnodup, hnew⟩ := ih (s.processNext info c)
      have hold : ∀ d ∈ (s.processNext info c).handledChanges info fuel, d ∉ s.completedset :=
        fun d hd hmem => hnew d hd (completedset_processNext_subset c d hmem)
      split_ifs with hc
      · exact ⟨hnodup, hold⟩
      · have hdone : c ∈ (s.processNext info c).completedset := by
          rw [(processNext_of_not_completed hc).1]
          exact HashSet.mem_add.mpr (.inr rfl)
        constructor
        · exact List.nodup_cons.mpr ⟨fun hmem => hnew c hmem hdone, hnodup⟩
        · intro d hd
          rcases List.mem_cons.mp hd with rfl | hd
          · exact hc
          · exact hold d hd

/-! ## Finitely many changes -/

def uncompleted (s : PlannerState R) (bound : Nat) : Set (MCChange R) :=
  {c | c.index < bound ∧ c ∉ s.completedset}

omit [DecidableEq R] in
private theorem finite_uncompleted [Finite R] (s : PlannerState R) (bound : Nat) :
    (s.uncompleted bound).Finite := by
  have hvalues : Finite UInt64 := by
    apply Finite.of_injective UInt64.toFin
    intro a b hab
    exact UInt64.toFin_inj.mp hab
  apply Set.Finite.of_injOn (f := fun c => (c.record, c.value, c.index))
    (t := (Set.univ : Set R) ×ˢ (Set.univ : Set UInt64) ×ˢ {n : Nat | n < bound})
  · intro c hc
    exact ⟨Set.mem_univ _, Set.mem_univ _, hc.1⟩
  · rintro ⟨r, v, i⟩ - ⟨r', v', i'⟩ - heq
    simpa using heq
  · exact Set.finite_univ.prod (Set.finite_univ.prod (Set.finite_lt_nat bound))

private theorem ncard_uncompleted_lt [Finite R] {c : MCChange R} {bound : Nat}
    (hindex : c.index < bound) (hc : c ∉ s.completedset) :
    ((s.processNext info c).uncompleted bound).ncard < (s.uncompleted bound).ncard := by
  apply Set.ncard_lt_ncard _ (finite_uncompleted s bound)
  constructor
  · intro d hd
    exact ⟨hd.1, fun hmem => hd.2 (completedset_processNext_subset c d hmem)⟩
  · intro hsub
    apply (hsub ⟨hindex, hc⟩).2
    rw [(processNext_of_not_completed hc).1]
    exact HashSet.mem_add.mpr (.inr rfl)

private theorem exists_processChanges [Finite R] (info : R → RecordInfo) {bound : Nat}
    (hbound : vcValoutIndex < bound) (s : PlannerState R)
    (hs : ∀ c ∈ s.changeset, c.index < bound) :
    ∃ fuel s', s.processChanges info fuel = some s' := by
  induction hn : (s.uncompleted bound).ncard using Nat.strong_induction_on generalizing s with
  | _ n ihn =>
    induction hm : s.changeset.length generalizing s with
    | zero =>
      refine ⟨1, { s with completedset := [] }, ?_⟩
      rw [processChanges, List.length_eq_zero_iff.mp hm]
    | succ m ihm =>
      obtain ⟨c, rest, hcons⟩ := List.exists_cons_of_length_eq_add_one hm
      have hmem : c ∈ s.changeset := by rw [hcons]; exact List.mem_cons_self
      have hnext : ∃ fuel s', (s.processNext info c).processChanges info fuel = some s' := by
        by_cases hc : c ∈ s.completedset
        · rw [processNext_of_completed hc]
          apply ihm
          · intro d hd
            exact hs d (List.mem_of_mem_erase hd)
          · exact hn
          · show (s.changeset.erase c).length = m
            rw [List.length_erase_of_mem hmem, hm, Nat.add_sub_cancel]
        · apply ihn _ (hn ▸ ncard_uncompleted_lt (hs c hmem) hc) _ _ rfl
          intro d hd
          rcases (processNext_of_not_completed hc).2 d hd with hd | hd
          · exact hs d hd
          · omega
      obtain ⟨fuel, s', hrun⟩ := hnext
      refine ⟨fuel + 1, s', ?_⟩
      rw [processChanges, hcons]
      exact hrun

/-- With finitely many records the loop ends, and it dispatches no change twice. -/
theorem processChanges_terminates [Fintype R] (info : R → RecordInfo) (s : PlannerState R) :
    ∃ fuel s', s.processChanges info fuel = some s' ∧ (s.handledChanges info fuel).Nodup := by
  obtain ⟨bound, hbound⟩ : ∃ bound, ∀ c ∈ s.changeset, c.index < bound := by
    refine ⟨(s.changeset.map MCChange.index).sum + 1, fun c hc => ?_⟩
    exact Nat.lt_succ_of_le (List.le_sum_of_mem (List.mem_map_of_mem hc))
  have hlt : vcValoutIndex < max bound (vcValoutIndex + 1) := by omega
  obtain ⟨fuel, s', hrun⟩ := exists_processChanges info hlt s
    (fun c hc => lt_of_lt_of_le (hbound c hc) (le_max_left _ _))
  exact ⟨fuel, s', hrun, (handledChanges_nodup s fuel).1⟩

end PlannerState

end SatCheck
