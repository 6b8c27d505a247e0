import SatCheck.TraverseOrder
import SatCheck.SiteCompare
import Mathlib.Data.Prod.Lex
/-!
# The traversal ends

Every link leads on in its thread or to a younger thread, and the runs have left only finitely many
links.
-/

namespace SatCheck

def ExecPoint.rank (x : ExecPoint) : ℕ ×ₗ List ℕ := toLex (x.tid, x.pairs.map Prod.snd)

@[simp] theorem Site.rank_ep (t : Nat) (s : Site) : (s.ep t).rank = toLex (t, s.values) := by
  rw [ExecPoint.rank, Site.ep_tid, Site.ep_pairs, Site.map_pairs]

def GraphEntry.target? : GraphEntry → Option ExecPoint
  | .next _ x | .child _ x | .first _ x => some x
  | _ => none

def targets (executions : List (List (Nat × Annotation))) : List ExecPoint :=
  executions.flatMap fun calls => calls.flatMap fun call =>
    (Control.start.log call.1 (threadCalls call.1 calls)).filterMap GraphEntry.target?

namespace EventGraph

variable {g : EventGraph} {noexecyields : Bool} {a x : ExecPoint}

theorem holds_of_succs (h : x ∈ g.succs noexecyields a) :
    g.getChildRecord a = some x ∨
      (¬ (g.getType a = some .nonlocaltrans ∨ g.getType a = some .loopexit) ∧
        g.getNextRecord a = some x) ∨
      ∃ v, g.firstrecord ⟨a, v⟩ = some x := by
  unfold succs at h
  split_ifs at h with hloop hstop hbranch
  · rcases List.mem_append.mp h with h | h
    · exact .inl (Option.mem_toList.mp h)
    · exact .inr (.inl ⟨by simp [hloop], Option.mem_toList.mp h⟩)
  · exact .inl (Option.mem_toList.mp h)
  · rcases List.mem_append.mp h with h | h
    · obtain ⟨v, -, h⟩ := List.mem_flatMap.mp h
      exact .inr (.inr ⟨v, Option.mem_toList.mp h⟩)
    · rcases List.mem_append.mp h with h | h
      · exact .inr (.inl ⟨by simp [hbranch], Option.mem_toList.mp h⟩)
      · exact .inl (Option.mem_toList.mp h)
  · rcases List.mem_append.mp h with h | h
    · refine .inr (.inl ⟨fun hexit => hstop ?_, Option.mem_toList.mp h⟩)
      exact hexit.imp_right .inl
    · exact .inl (Option.mem_toList.mp h)

theorem mem_targets_of_holds {executions : List (List (Nat × Annotation))}
    (hg : g.Logged (Recorder.runsLog executions)) {e : GraphEntry} (he : g.Holds e)
    (htarget : e.target? = some x) : x ∈ targets executions := by
  obtain ⟨calls, hcalls, t, hmem⟩ := hg.mem e he
  obtain ⟨k, call, hcall, -, -⟩ := Control.mem_log hmem
  refine List.mem_flatMap.mpr ⟨calls, hcalls, List.mem_flatMap.mpr ⟨(t, call), ?_, ?_⟩⟩
  · exact Control.mem_threadCalls.mp hcall
  · exact List.mem_filterMap.mpr ⟨e, hmem, htarget⟩

private theorem mem_targets {executions : List (List (Nat × Annotation))}
    (hg : g.Logged (Recorder.runsLog executions)) (h : x ∈ g.succs noexecyields a) :
    x ∈ targets executions := by
  rcases holds_of_succs h with h | ⟨-, h⟩ | ⟨v, h⟩
  · exact mem_targets_of_holds hg (e := .child a x) h rfl
  · exact mem_targets_of_holds hg (e := .next a x) h rfl
  · exact mem_targets_of_holds hg (e := .first ⟨a, v⟩ x) h rfl

def later (executions : List (List (Nat × Annotation))) (a : ExecPoint) : List ExecPoint :=
  (targets executions).filter (a.rank < ·.rank)

theorem length_later_lt {executions : List (List (Nat × Annotation))}
    (hx : x ∈ targets executions) (hlt : a.rank < x.rank) :
    (later executions x).length < (later executions a).length := by
  have hsub : (later executions x).Sublist ((later executions a).filter (· ≠ x)) := by
    unfold later
    rw [List.filter_filter]
    apply List.monotone_filter_right
    intro y hy
    have hy : x.rank < y.rank := of_decide_eq_true hy
    have hne : y ≠ x := by
      rintro rfl
      exact lt_irrefl _ hy
    rw [decide_eq_true hne, decide_eq_true (hlt.trans hy)]
    rfl
  have hmem : x ∈ later executions a := List.mem_filter.mpr ⟨hx, decide_eq_true hlt⟩
  exact hsub.length_le.trans_lt
    (List.length_filter_lt_length_iff_exists.mpr ⟨x, hmem, by simp⟩)

/-- Only finitely many records follow on a record, if the links lead on. -/
theorem acc_succs {executions : List (List (Nat × Annotation))}
    (hg : g.Logged (Recorder.runsLog executions)) {P : ExecPoint → Prop}
    (hrank : ∀ a, P a → ∀ x ∈ g.succs noexecyields a, P x ∧ a.rank < x.rank) (ha : P a) :
    Acc (fun b a => b ∈ g.succs noexecyields a) a := by
  induction hn : (later executions a).length using Nat.strong_induction_on generalizing a with
  | h n ih =>
    subst hn
    constructor
    intro b hb
    obtain ⟨hPb, hlt⟩ := hrank a ha b hb
    exact ih _ (length_later_lt (mem_targets hg hb) hlt) hPb rfl

theorem exists_traverse_nil (hacc : Acc (fun b a => b ∈ g.succs noexecyields a) g.first) :
    ∃ n, (Traversal.traverse g noexecyields n).pending = [] := by
  obtain ⟨m, hm, -⟩ := Worklist.exists_run_nil hacc
  obtain ⟨n, hn⟩ := Traversal.exists_traverse g noexecyields m
  refine ⟨n, ?_⟩
  rw [← hn] at hm
  exact hm

namespace Shaped

variable {code : Nat → Code} {creator : Nat → Option ExecPoint}

theorem values_lt_of_leadsInto {s s' : Site} (h : LeadsInto s s') : s.values < s'.values := by
  rcases h with rfl | ⟨d, rfl⟩ | hlater
  · exact s.values_lt_body
  · exact s.values_lt_arm d
  · rcases hlater.eq_or_values_lt with rfl | hlt
    · exact s.values_lt_next
    · exact s.values_lt_next.trans hlt

private theorem rank_lt (h : g.Shaped code creator) {t : Nat} {s : Site}
    (hx : x ∈ g.succs noexecyields (s.ep t)) :
    (∃ (t' : Nat) (s' : Site), x = s'.ep t') ∧ (s.ep t).rank < x.rank := by
  rcases h.succs_cases hx with ⟨s', rfl, hleads⟩ | ⟨t', s', rfl, hcreator⟩
  · refine ⟨⟨t, s', rfl⟩, ?_⟩
    rw [Site.rank_ep, Site.rank_ep, Prod.Lex.toLex_lt_toLex]
    exact .inr ⟨rfl, values_lt_of_leadsInto hleads⟩
  · refine ⟨⟨t', s', rfl⟩, ?_⟩
    rw [Site.rank_ep, Site.rank_ep, Prod.Lex.toLex_lt_toLex]
    exact .inl (h.older t' _ hcreator)

theorem exists_traverse_nil (h : g.Shaped code creator) (noexecyields : Bool)
    {executions : List (List (Nat × Annotation))} (hg : g.Logged (Recorder.runsLog executions))
    {t : Nat} {f : Site} (hfirst : g.first = f.ep t) :
    ∃ n, (Traversal.traverse g noexecyields n).pending = [] := by
  apply EventGraph.exists_traverse_nil
  apply acc_succs hg (P := fun a => ∃ (t : Nat) (s : Site), a = s.ep t)
  · rintro a ⟨t, s, rfl⟩ x hx
    exact h.rank_lt hx
  · exact ⟨t, f, hfirst⟩

end Shaped

end EventGraph

/-! ## What a finished traversal has visited -/

namespace Traversal

variable {g : EventGraph} {noexecyields : Bool} {n : Nat}

theorem exists_worklist_nil (hdone : (traverse g noexecyields n).pending = []) : ∃ m,
    (traverse g noexecyields n).visited =
      (Worklist.run (g.succs noexecyields) m (Worklist.start g.first)).visited ∧
    (Worklist.run (g.succs noexecyields) m (Worklist.start g.first)).pending = [] := by
  obtain ⟨m, hm⟩ := exists_worklist g noexecyields n
  refine ⟨m, congrArg Worklist.State.visited hm, ?_⟩
  rw [← hm]
  exact hdone

theorem mem_visited_iff (hdone : (traverse g noexecyields n).pending = []) {x : ExecPoint} :
    x ∈ (traverse g noexecyields n).visited ↔
      Relation.ReflTransGen (fun a b => b ∈ g.succs noexecyields a) g.first x := by
  obtain ⟨m, hvisited, hpending⟩ := exists_worklist_nil hdone
  rw [hvisited]
  exact Worklist.visited_iff hpending

theorem first_mem_visited (hdone : (traverse g noexecyields n).pending = []) :
    g.first ∈ (traverse g noexecyields n).visited :=
  (mem_visited_iff hdone).mpr .refl

theorem visited_closed (hdone : (traverse g noexecyields n).pending = []) :
    ∀ r ∈ (traverse g noexecyields n).visited, ∀ y ∈ g.succs noexecyields r,
      y ∈ (traverse g noexecyields n).visited := by
  intro r hr y hy
  exact (mem_visited_iff hdone).mpr (((mem_visited_iff hdone).mp hr).tail hy)

/-- Every visit is the first one, or one of a record that follows on a visited record. -/
theorem perm_visited (hdone : (traverse g noexecyields n).pending = []) :
    (traverse g noexecyields n).visited.Perm
      (g.first :: (traverse g noexecyields n).visited.flatMap (g.succs noexecyields)) := by
  obtain ⟨m, hvisited, hpending⟩ := exists_worklist_nil hdone
  have hperm := Worklist.perm_run (g.succs noexecyields) g.first m
  rw [hpending, List.append_nil] at hperm
  rwa [hvisited]

end Traversal

end SatCheck
