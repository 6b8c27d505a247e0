import SatCheck.TraverseOrder
import Mathlib.Data.List.Induction
/-!
# Exits and branches that a traversal has seen

Which exits are pending at a visit follows from the records visited before, and so do the
entries of `execcondtable` and `branchtable`, where no record is visited twice.
-/

namespace SatCheck

namespace EventGraph

variable (g : EventGraph)

def passExits (nonlocaltrans : List ExecPoint) (record : ExecPoint) : List ExecPoint :=
  match g.getType record with
  | some .nonlocaltrans => HashSet.add nonlocaltrans record
  | some .label => nonlocaltrans.filter fun nonlocal => g.getNextRecord nonlocal != some record
  | _ => nonlocaltrans

def pendingExits (visited : List ExecPoint) : List ExecPoint :=
  visited.foldl g.passExits []

variable {g} {visited : List ExecPoint} {record e : ExecPoint}

theorem pendingExits_concat : g.pendingExits (visited ++ [record]) =
    g.passExits (g.pendingExits visited) record := by
  simp [pendingExits]

/-- An exit is pending from its visit to the visit of the label behind its loop. -/
theorem mem_pendingExits : e ∈ g.pendingExits visited ↔
    g.getType e = some .nonlocaltrans ∧ ∃ pre post, visited = pre ++ e :: post ∧
      ∀ record ∈ post, g.getType record = some .label → g.getNextRecord e ≠ some record := by
  induction visited using List.reverseRecOn with
  | nil => simp [pendingExits]
  | append_singleton visited record ih =>
    have hkept : (∀ r, r = record → g.getType r = some .label → g.getNextRecord e ≠ some r) →
        e ∈ g.pendingExits visited → g.getType e = some .nonlocaltrans ∧ ∃ pre post,
          visited ++ [record] = pre ++ e :: post ∧
            ∀ r ∈ post, g.getType r = some .label → g.getNextRecord e ≠ some r := by
      intro hrecord he
      obtain ⟨htype, pre, post, rfl, hpost⟩ := ih.mp he
      refine ⟨htype, pre, post ++ [record], by simp, fun r hr => ?_⟩
      rcases List.mem_append.mp hr with hr | hr
      · exact hpost r hr
      · exact hrecord r (List.mem_singleton.mp hr)
    have hback : (g.getType e = some .nonlocaltrans ∧ ∃ pre post,
        visited ++ [record] = pre ++ e :: post ∧
          ∀ r ∈ post, g.getType r = some .label → g.getNextRecord e ≠ some r) → e = record ∨
        e ∈ g.pendingExits visited ∧
          (g.getType record = some .label → g.getNextRecord e ≠ some record) := by
      rintro ⟨htype, pre, post, heq, hpost⟩
      rcases List.eq_nil_or_concat post with rfl | ⟨post, r, rfl⟩
      · obtain ⟨-, hr⟩ := List.append_inj' heq rfl
        exact .inl (by simpa using hr.symm)
      · rw [List.concat_eq_append, ← List.cons_append, ← List.append_assoc] at heq
        obtain ⟨hvisited, hr⟩ := List.append_inj' heq rfl
        obtain rfl : record = r := by simpa using hr
        right
        refine ⟨ih.mpr ⟨htype, pre, post, hvisited, fun r hr => hpost r (by simp [hr])⟩, ?_⟩
        exact hpost record (by simp)
    rw [pendingExits_concat, passExits]
    split
    · rename_i htype
      rw [HashSet.mem_add]
      constructor
      · rintro (he | rfl)
        · exact hkept (by rintro r rfl h; simp [htype] at h) he
        · exact ⟨htype, visited, [], rfl, by simp⟩
      · intro h
        rcases hback h with rfl | ⟨he, -⟩
        · exact .inr rfl
        · exact .inl he
    · rename_i htype
      rw [List.mem_filter, bne_iff_ne]
      constructor
      · rintro ⟨he, hnext⟩
        exact hkept (by rintro r rfl -; exact hnext) he
      · intro h
        rcases hback h with rfl | ⟨he, hnext⟩
        · simp [htype] at h
        · exact ⟨he, hnext htype⟩
    · rename_i hexit hlabel
      constructor
      · exact fun he => hkept (by rintro r rfl h; exact absurd h hlabel) he
      · intro h
        rcases hback h with rfl | ⟨he, -⟩
        · exact absurd h.1 hexit
        · exact he

end EventGraph

namespace Traversal

variable (g : EventGraph) (noexecyields : Bool)

private theorem visitRecord_nonlocaltrans (t : Traversal) (record : ExecPoint) :
    (t.visitRecord g record).nonlocaltrans = g.passExits t.nonlocaltrans record := by
  unfold visitRecord EventGraph.passExits
  cases htype : g.getType record with
  | none => rfl
  | some et => cases et <;> simp [insertNonLocal, insertLabel, insertBranch]

@[simp] theorem advance_nonlocaltrans (t : Traversal) (record : ExecPoint) :
    (t.advance g noexecyields record).nonlocaltrans = t.nonlocaltrans := by
  unfold advance
  split_ifs <;> rfl

@[simp] theorem advance_branchtable (t : Traversal) (record : ExecPoint) :
    (t.advance g noexecyields record).branchtable = t.branchtable := by
  unfold advance
  split_ifs <;> rfl

theorem visited_visitRecord (t : Traversal) (record : ExecPoint) :
    (t.visitRecord g record).visited = t.visited ++ [record] := by
  simp [visited]

/-- The exits that are pending, and were pending at a visit. -/
structure ExitsSeen (t : Traversal) : Prop where
  pending : t.nonlocaltrans = g.pendingExits t.visited
  visits : ∀ pre v post, t.visits = pre ++ v :: post →
    v.nonlocaltrans = g.pendingExits (pre.map Visit.record)

private theorem exitsSeen_visitRecord {t : Traversal} (h : t.ExitsSeen g) (record : ExecPoint) :
    (t.visitRecord g record).ExitsSeen g where
  pending := by
    rw [visitRecord_nonlocaltrans, visited_visitRecord, EventGraph.pendingExits_concat, h.pending]
  visits pre v post heq := by
    rw [visitRecord_visits] at heq
    rcases List.eq_nil_or_concat post with rfl | ⟨post, w, rfl⟩
    · obtain ⟨rfl, hv⟩ := List.append_inj' heq rfl
      obtain rfl : Visit.mk record t.nonlocaltrans = v := by simpa using hv
      exact h.pending
    · rw [List.concat_eq_append, ← List.cons_append, ← List.append_assoc] at heq
      exact h.visits pre v post (List.append_inj' heq rfl).1

theorem exitsSeen_traverse (n : Nat) : (traverse g noexecyields n).ExitsSeen g := by
  induction n with
  | zero => exact ⟨rfl, by simp [traverse, start]⟩
  | succ n ih =>
    rw [traverse_succ]
    unfold step
    split
    · have hvisit := exitsSeen_visitRecord g ih
      constructor
      · simpa [visited] using (hvisit _).pending
      · simpa using (hvisit _).visits
    · exact ⟨ih.pending, ih.visits⟩
    · exact ih

/-- The entry of a branch record has bits for its directions, and for not being executed. -/
theorem insertBranch_spec (t : Traversal) (record : ExecPoint) : ∃ numvars,
    (t.insertBranch g record).branchtable = Function.update t.branchtable record
      (some ⟨numvars, t.isAlwaysExecuted g record⟩) ∧
    (g.valuevector record).length + (if t.isAlwaysExecuted g record then 0 else 1) ≤
      2 ^ numvars := by
  refine ⟨_, rfl, ?_⟩
  have hsize : ∀ n : Nat, n ≤ 2 ^ (n - 1).size := by
    intro n
    have := Nat.lt_size_self (n - 1)
    omega
  refine le_trans ?_ (hsize _)
  split_ifs <;> omega

@[simp] theorem recordExecCond_branchtable (t : Traversal) (record : ExecPoint) :
    (t.recordExecCond g record).branchtable = t.branchtable := by
  unfold recordExecCond
  simp only
  split_ifs <;> rfl

private theorem visitRecord_branchtable (t : Traversal) {record b : ExecPoint} (hne : b ≠ record) :
    (t.visitRecord g record).branchtable b = t.branchtable b := by
  unfold visitRecord
  simp only
  split <;> simp [insertNonLocal, insertLabel, insertBranch, hne]

private theorem visitRecord_exits (t : Traversal) {record b : ExecPoint} (hne : b ≠ record) :
    (t.visitRecord g record).exits b = t.exits b := by
  unfold exits
  rw [visitRecord_execcondtable, recordExecCond_execcondtable]
  split_ifs <;> simp [hne]

def BranchesSeen (t : Traversal) : Prop :=
  ∀ b ∈ t.visited, g.getType b = some .branchdir → ∃ br, t.branchtable b = some br ∧
    br.alwaysexecuted = t.isAlwaysExecuted g b ∧ (g.valuevector b).length +
      (if br.alwaysexecuted then 0 else 1) ≤ 2 ^ br.numvars

private theorem branchesSeen_visitRecord {t : Traversal} (h : t.BranchesSeen g) {record : ExecPoint}
    (hnew : record ∉ t.visited) : (t.visitRecord g record).BranchesSeen g := by
  intro b hb htype
  rw [visited_visitRecord, List.mem_append, List.mem_singleton] at hb
  by_cases hne : b = record
  · subst hne
    have hvisit : ∃ t' : Traversal, t.visitRecord g b = t'.insertBranch g b ∧
        (t'.insertBranch g b).exits b = t'.exits b :=
      ⟨_, by simp only [visitRecord, htype]; rfl, rfl⟩
    obtain ⟨t', heq, hexits⟩ := hvisit
    obtain ⟨numvars, htable, hsize⟩ := insertBranch_spec g t' b
    rw [heq]
    refine ⟨⟨numvars, t'.isAlwaysExecuted g b⟩, by simp [htable], ?_, hsize⟩
    simp [isAlwaysExecuted, hexits]
  · obtain ⟨br, hbr, halways, hsize⟩ := h b (hb.resolve_right hne) htype
    refine ⟨br, (visitRecord_branchtable g t hne).trans hbr, ?_, hsize⟩
    rw [halways, isAlwaysExecuted, isAlwaysExecuted, visitRecord_exits g t hne]

theorem branchesSeen_traverse {n : Nat} (hnodup : (traverse g noexecyields n).visited.Nodup) :
    (traverse g noexecyields n).BranchesSeen g := by
  induction n with
  | zero => simp [BranchesSeen, visited, traverse, start]
  | succ n ih =>
    rw [traverse_succ] at hnodup ⊢
    cases hcurrent : (traverse g noexecyields n).current with
    | some record =>
      have hstep : (traverse g noexecyields n).step g noexecyields =
          ((traverse g noexecyields n).visitRecord g record).advance g noexecyields record := by
        simp [step, hcurrent]
      rw [hstep] at hnodup ⊢
      have hvisited : ((traverse g noexecyields n).visitRecord g record).visited.Nodup := by
        simpa [visited] using hnodup
      rw [visited_visitRecord] at hvisited
      obtain ⟨hold, -, hdisjoint⟩ := List.nodup_append.mp hvisited
      have hnew : record ∉ (traverse g noexecyields n).visited :=
        fun hmem => hdisjoint record hmem record (List.mem_singleton_self record) rfl
      have hseen := branchesSeen_visitRecord g (ih hold) hnew
      simpa [BranchesSeen, visited, isAlwaysExecuted, exits] using hseen
    | none =>
      cases hwork : (traverse g noexecyields n).workstack with
      | nil =>
        simp only [step, hcurrent, hwork] at hnodup ⊢
        exact ih hnodup
      | cons record workstack =>
        simp only [step, hcurrent, hwork] at hnodup ⊢
        exact ih hnodup

/-- An exit is in the condition of a record if it is pending when the record is visited. -/
theorem exists_pendingExits {n : Nat} {record : ExecPoint}
    (hrecord : record ∈ (traverse g noexecyields n).visited)
    (hcond : (g.getType record).any recordsExecCond) : ∃ pre post,
      (traverse g noexecyields n).visited = pre ++ record :: post ∧
        (traverse g noexecyields n).exits record = g.execCond (g.pendingExits pre) record := by
  obtain ⟨v, hv, rfl⟩ := List.mem_map.mp hrecord
  obtain ⟨w, ⟨hw, hexits⟩, heq⟩ := tableSettled_traverse g noexecyields n v.record
    (.inr ⟨v, hv, rfl, hcond⟩)
  obtain ⟨pre, post, hsplit⟩ := List.append_of_mem hw
  refine ⟨pre.map Visit.record, post.map Visit.record, ?_, ?_⟩
  · simp [visited, hsplit, heq]
  · rw [← heq, hexits, (exitsSeen_traverse g noexecyields n).visits pre w post hsplit]

end Traversal

end SatCheck
