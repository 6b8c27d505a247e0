import Mathlib.Data.List.Basic
/-!
# The stack of snapshots

`SnapshotStack` of `snapshot-interface.cc`.  The loop of `backTrackBeforeStep` pops the last entry
but moves its index up, so that after a pop it looks behind the end of the vector.
-/

namespace SatCheck

/-- `snapshot_entry`. -/
structure SnapshotEntry where
  snapshotid : Nat
  index : Int
  deriving DecidableEq, Repr

namespace SnapshotStack

def snapshotStep (stack : List SnapshotEntry) (take_snapshot : Nat) (seqindex : Int) :
    List SnapshotEntry :=
  stack ++ [⟨take_snapshot, seqindex⟩]

/-- The loop of `backTrackBeforeStep` for at most `fuel` iterations.  `none` is a loop that goes
on or a read outside the vector. -/
def backTrackLoop (seqindex : Int) : Nat → List SnapshotEntry → Int →
    Option (List SnapshotEntry × Int)
  | 0, _, _ => none
  | fuel + 1, stack, i =>
      if 0 ≤ i then
        stack[i.toNat]?.bind fun entry =>
          if entry.index ≤ seqindex then some (stack, i)
          else backTrackLoop seqindex fuel stack.dropLast (i + 1)
      else some (stack, i)

/-- The stack that is left, the snapshot that is rolled back to and the index that is returned;
`none` also where the assertion fails. -/
def backTrackBeforeStep (fuel : Nat) (stack : List SnapshotEntry) (seqindex : Int) :
    Option (List SnapshotEntry × Nat × Int) :=
  (backTrackLoop seqindex fuel stack (stack.length - 1)).bind fun (stack, i) =>
    if 0 ≤ i then
      stack[i.toNat]?.map fun entry => (stack, entry.snapshotid, entry.index)
    else none

/-- The entries up to `seqindex` are left and the last one of them is rolled back to. -/
def BackTracks (stack : List SnapshotEntry) (seqindex : Int) : Prop :=
  ∃ fuel last, (stack.filter fun entry => entry.index ≤ seqindex).getLast? = some last ∧
    backTrackBeforeStep fuel stack seqindex =
      some (stack.filter fun entry => entry.index ≤ seqindex, last.snapshotid, last.index)

variable {stack : List SnapshotEntry} {seqindex : Int} {last : SnapshotEntry}

theorem getElem?_length_sub_one (h : stack.getLast? = some last) :
    stack[((stack.length : Int) - 1).toNat]? = some last ∧ 0 ≤ (stack.length : Int) - 1 := by
  have hne : stack ≠ [] := by
    rintro rfl
    simp at h
  have hpos := List.length_pos_iff.mpr hne
  have hidx : ((stack.length : Int) - 1).toNat = stack.length - 1 := by omega
  rw [hidx, ← List.getLast?_eq_getElem?]
  exact ⟨h, by omega⟩

theorem le_of_sorted (hsorted : stack.Pairwise fun a b => a.index ≤ b.index)
    (hlast : stack.getLast? = some last) : ∀ entry ∈ stack, entry.index ≤ last.index := by
  obtain ⟨front, rfl⟩ := List.getLast?_eq_some_iff.mp hlast
  rw [List.pairwise_append] at hsorted
  intro entry hentry
  rcases List.mem_append.mp hentry with h | h
  · exact hsorted.2.2 entry h last (List.mem_singleton_self last)
  · exact Int.le_of_eq (congrArg SnapshotEntry.index (List.mem_singleton.mp h))

/-- Nothing is popped: the first test ends the loop. -/
theorem backTrackBeforeStep_of_le (last : SnapshotEntry) (hlast : stack.getLast? = some last)
    (hle : last.index ≤ seqindex) :
    backTrackBeforeStep 1 stack seqindex = some (stack, last.snapshotid, last.index) := by
  obtain ⟨hget, hpos⟩ := getElem?_length_sub_one hlast
  have hloop : backTrackLoop seqindex 1 stack (stack.length - 1) =
      some (stack, (stack.length : Int) - 1) := by
    rw [backTrackLoop, if_pos hpos, hget, Option.bind_some, if_pos hle]
  rw [backTrackBeforeStep, hloop, Option.bind_some]
  show (if 0 ≤ (stack.length : Int) - 1 then _ else none) = _
  rw [if_pos hpos, hget, Option.map_some]

/-- After a pop the loop looks one entry behind the last one popped. -/
theorem backTrackBeforeStep_of_lt (last : SnapshotEntry) (hlast : stack.getLast? = some last)
    (hlt : seqindex < last.index) (fuel : Nat) :
    backTrackBeforeStep fuel stack seqindex = none := by
  obtain ⟨hget, hpos⟩ := getElem?_length_sub_one hlast
  have hoff : stack.dropLast[((stack.length : Int) - 1 + 1).toNat]? = none := by
    rw [List.getElem?_eq_none]
    rw [List.length_dropLast]
    omega
  have hpop : ¬ last.index ≤ seqindex := by omega
  have hnext : 0 ≤ (stack.length : Int) - 1 + 1 := by omega
  have hloop : backTrackLoop seqindex fuel stack (stack.length - 1) = none := by
    cases fuel with
    | zero => rfl
    | succ fuel =>
      rw [backTrackLoop, if_pos hpos, hget, Option.bind_some, if_neg hpop]
      cases fuel with
      | zero => rfl
      | succ fuel => rw [backTrackLoop, if_pos hnext, hoff, Option.bind_none]
  rw [backTrackBeforeStep, hloop, Option.bind_none]

private theorem filter_eq_self_of_le (hsorted : stack.Pairwise fun a b => a.index ≤ b.index)
    (hlast : stack.getLast? = some last) (hle : last.index ≤ seqindex) :
    stack.filter (fun entry => entry.index ≤ seqindex) = stack := by
  apply List.filter_eq_self.mpr
  intro entry hentry
  have hentry' := le_of_sorted hsorted hlast entry hentry
  exact decide_eq_true (by omega)

/-- On a sorted stack with an entry up to `seqindex` the function does its work exactly where
there is nothing to pop. -/
theorem backTracks_iff (hsorted : stack.Pairwise fun a b => a.index ≤ b.index)
    (hfirst : ∃ first, stack.head? = some first ∧ first.index ≤ seqindex) :
    BackTracks stack seqindex ↔ ∀ last, stack.getLast? = some last → last.index ≤ seqindex := by
  obtain ⟨first, hhead, -⟩ := hfirst
  constructor
  · rintro ⟨fuel, kept, -, hrun⟩ last hlast
    by_contra hlt
    rw [backTrackBeforeStep_of_lt last hlast (by omega)] at hrun
    exact absurd hrun (by simp)
  · intro hle
    have hne : stack ≠ [] := by
      rintro rfl
      simp at hhead
    have hlast := List.getLast?_eq_some_getLast hne
    have hkeep := filter_eq_self_of_le hsorted hlast (hle _ hlast)
    refine ⟨1, stack.getLast hne, ?_, ?_⟩
    · rw [hkeep, hlast]
    · rw [hkeep, backTrackBeforeStep_of_le _ hlast (hle _ hlast)]

theorem backTracks_iff_two :
    BackTracks [⟨0, 0⟩, ⟨1, 5⟩] 7 ↔
      ∀ last, [SnapshotEntry.mk 0 0, ⟨1, 5⟩].getLast? = some last → last.index ≤ 7 :=
  backTracks_iff (by simp) ⟨⟨0, 0⟩, rfl, by decide⟩

/-- Two snapshots, and a rollback to the first of them. -/
theorem not_forall_backTracks :
    ¬ ∀ (stack : List SnapshotEntry) (seqindex : Int),
      stack.Pairwise (fun a b => a.index ≤ b.index) →
      (∃ first, stack.head? = some first ∧ first.index ≤ seqindex) →
      BackTracks stack seqindex := by
  intro h
  obtain ⟨fuel, last, -, hrun⟩ := h (snapshotStep (snapshotStep [] 0 0) 1 5) 3
    (by simp [snapshotStep]) ⟨⟨0, 0⟩, rfl, by decide⟩
  rw [backTrackBeforeStep_of_lt ⟨1, 5⟩ rfl (by decide)] at hrun
  exact absurd hrun (by simp)

end SnapshotStack

end SatCheck
