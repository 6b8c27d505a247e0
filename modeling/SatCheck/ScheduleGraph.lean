import SatCheck.BuildSchedule
import SatCheck.ScheduleOrder
import SatCheck.ThreadCoverage
/-!
# The schedule of the paths

A path is what `processRecord` and `getNextRecord` walk in the recorded graph.  On such paths
`buildSchedule` adds the wait pairs that it adds on the graph.
-/

namespace SatCheck

namespace ScheduleBuilder

/-- The record that a slot stands at, with its last action. -/
def entry (paths : RecordedPaths) (slot : Slot) : ThreadEntry :=
  ⟨(record paths slot).map PathEvent.ep, slot.lastoperation⟩

/-- The paths are those of the graph for the solution: each record is followed by what `step` goes
on to, the memory actions are where `processRecord` stays, and the threads are those created. -/
structure WalkedIn (paths : RecordedPaths) (g : EventGraph) (noexecyields : Bool)
    (index : ExecPoint → Option Nat) : Prop where
  first : (record paths ⟨0, 0, none⟩).map PathEvent.ep = some g.first
  next : ∀ t < paths.num, ∀ i, ∀ hi : i < (paths.path t).length,
    step g noexecyields index (paths.path t)[i].ep = ((paths.path t)[i + 1]?).map PathEvent.ep
  memory : ∀ t < paths.num, ∀ event ∈ paths.path t,
    processRecord g noexecyields index event.ep = some event.ep ↔ event.memory?.isSome
  creates : ∀ t < paths.num, ∀ event ∈ paths.path t,
    createdThread g event.ep = (created event).map (entry paths)

variable {g : EventGraph} {noexecyields : Bool} {index : ExecPoint → Option Nat}
  {order : ExecPoint → ExecPoint → Bool} {paths : RecordedPaths} {slot : Slot}
  {event : PathEvent} {slots done todo : List Slot} {entries : List ThreadEntry}
  {waitpairs : List WaitPair} {offered : List ExecPoint}

/-! ## One record -/

private theorem entry_of_record (hrec : record paths slot = some event) :
    entry paths slot = ⟨some event.ep, slot.lastoperation⟩ := by
  simp [entry, hrec]

private theorem WalkedIn.step_eq (h : WalkedIn paths g noexecyields index)
    (hlt : slot.thread < paths.num) (hrec : record paths slot = some event) :
    step g noexecyields index event.ep = (record paths (stepped slot event)).map PathEvent.ep := by
  obtain ⟨hi, rfl⟩ := List.getElem?_eq_some_iff.mp hrec
  exact h.next slot.thread hlt slot.pos hi

private theorem WalkedIn.memory_iff (h : WalkedIn paths g noexecyields index)
    (hlt : slot.thread < paths.num) (hrec : record paths slot = some event) :
    processRecord g noexecyields index event.ep = some event.ep ↔ event.memory?.isSome :=
  h.memory slot.thread hlt event (List.mem_of_getElem? hrec)

private theorem WalkedIn.step_settled (h : WalkedIn paths g noexecyields index)
    (hlt : slot.thread < paths.num) (hsettled : Settled paths slot) {done : List ThreadEntry} :
    Building.step g noexecyields index order ⟨done, entry paths slot :: entries, waitpairs, offered⟩
      = ⟨done ++ [entry paths slot], entries, waitpairs, offered⟩ := by
  cases hrec : record paths slot with
  | none => simp [entry, hrec, Building.step]
  | some event =>
    have hmemory := hsettled event hrec
    have hstays := (h.memory_iff hlt hrec).mpr hmemory
    have hnone : createdThread g event.ep = [] := by
      rw [h.creates slot.thread hlt event (List.mem_of_getElem? hrec)]
      cases event <;> simp_all [PathEvent.memory?, created]
    rw [entry_of_record hrec]
    simp [Building.step, hstays, hnone]

private theorem WalkedIn.step_other (h : WalkedIn paths g noexecyields index)
    (hlt : slot.thread < paths.num) (hrec : record paths slot = some event)
    (hmem : event.memory? = none) {done : List ThreadEntry} :
    Building.step g noexecyields index order ⟨done, entry paths slot :: entries, waitpairs, offered⟩
      = ⟨done, entry paths (stepped slot event) :: entries ++ (created event).map (entry paths),
        waitpairs, offered⟩ := by
  have hgoes : processRecord g noexecyields index event.ep ≠ some event.ep := by
    rw [ne_eq, h.memory_iff hlt hrec, hmem]
    simp
  have hnext := h.step_eq hlt hrec
  rw [step_of_ne hgoes] at hnext
  have hstepped : entry paths (stepped slot event) =
      ⟨processRecord g noexecyields index event.ep, slot.lastoperation⟩ := by
    rw [entry, hnext]
    cases event <;> simp_all [PathEvent.memory?, stepped]
  rw [entry_of_record hrec, hstepped,
    ← h.creates slot.thread hlt event (List.mem_of_getElem? hrec)]
  simp [Building.step, hgoes]

/-! ## A round -/

theorem WalkedIn.iterate_settle (h : WalkedIn paths g noexecyields index)
    (order : ExecPoint → ExecPoint → Bool) (waitpairs : List WaitPair) (offered : List ExecPoint)
    {fuel : Nat} (hok : SlotsOk paths (done ++ todo))
    (hfuel : settleFuel paths ≤ fuel + ((done ++ todo).map Slot.pos).sum + done.length) :
    ∃ n, (Building.step g noexecyields index order)^[n]
      ⟨done.map (entry paths), todo.map (entry paths), waitpairs, offered⟩ =
        ⟨(settle paths fuel done todo).map (entry paths), [], waitpairs, offered⟩ := by
  induction fuel generalizing done todo with
  | zero =>
    have hlt := hok.positions_lt
    simp only [List.length_append] at hlt
    omega
  | succ fuel ih =>
    cases todo with
    | nil => exact ⟨0, by simp [settle]⟩
    | cons slot todo =>
      have hlt := hok.lt slot (by simp)
      simp only [List.map_append, List.map_cons, List.sum_append, List.sum_cons] at hfuel
      by_cases hsettled : Settled paths slot
      · rw [settle_settled hsettled]
        have happend : (done ++ [slot]) ++ todo = done ++ slot :: todo := by simp
        rw [← happend] at hok
        obtain ⟨n, hn⟩ := ih hok (by
          simp only [List.map_append, List.map_cons, List.sum_append, List.sum_cons,
            List.length_append, List.length_singleton, List.map_nil, List.sum_nil]
          omega)
        refine ⟨n + 1, ?_⟩
        rw [Function.iterate_succ_apply, List.map_cons, h.step_settled hlt hsettled, ← hn]
        simp
      · simp only [Settled, not_forall] at hsettled
        obtain ⟨event, hrec, hmem⟩ := hsettled
        have hmem : event.memory? = none := by simpa using hmem
        rw [settle_other hrec hmem]
        obtain ⟨n, hn⟩ := ih (hok.step hrec) (by
          simp only [List.map_append, List.map_cons, List.sum_append, List.sum_cons, stepped]
          omega)
        refine ⟨n + 1, ?_⟩
        rw [Function.iterate_succ_apply, List.map_cons, h.step_other hlt hrec hmem, ← hn]
        simp

private theorem record_entry (hsettled : Settled paths slot) :
    (entry paths slot).record = head paths slot := by
  cases hrec : record paths slot with
  | none => simp [entry, head, hrec]
  | some event =>
    have hmemory := hsettled event hrec
    cases event <;> simp_all [PathEvent.memory?, entry, head, PathEvent.ep]

private theorem WalkedIn.advance_entry (h : WalkedIn paths g noexecyields index)
    (hlt : slot.thread < paths.num) (hsettled : Settled paths slot) (first : ExecPoint) :
    (entry paths slot).advance g first = entry paths
      (if head paths slot = some first then
        { slot with pos := slot.pos + 1, lastoperation := some first } else slot) := by
  unfold ThreadEntry.advance
  rw [record_entry hsettled]
  split_ifs with hhead
  · obtain ⟨event, hrec, hmem⟩ := Option.bind_eq_some_iff.mp hhead
    cases event <;> simp [PathEvent.memory?] at hmem
    subst hmem
    have hnext := h.step_eq hlt hrec
    have hstays := (h.memory_iff hlt hrec).mpr rfl
    rw [step_of_memory hstays] at hnext
    exact congrArg (ThreadEntry.mk · _) hnext
  · rfl

private theorem filterMap_record (hsettled : ∀ slot ∈ slots, Settled paths slot) :
    (slots.map (entry paths)).filterMap ThreadEntry.record = slots.filterMap (head paths) := by
  rw [List.filterMap_map]
  exact List.filterMap_congr fun slot hslot => record_entry (hsettled slot hslot)

private theorem WalkedIn.step_select (h : WalkedIn paths g noexecyields index)
    (waitpairs : List WaitPair) (offered : List ExecPoint) (hok : SlotsOk paths slots)
    (hsettled : ∀ slot ∈ slots, Settled paths slot)
    {first : ExecPoint} (hfirst : earliest order (slots.filterMap (head paths)) = some first) :
    Building.step g noexecyields index order ⟨slots.map (entry paths), [], waitpairs, offered⟩ =
      ⟨[], (advance paths first slots).map (entry paths),
        waitpairs ++ addedPairs paths first slots, offered ++ slots.filterMap (head paths)⟩ := by
  have hpairs : (slots.map (entry paths)).filterMap (ThreadEntry.waitPair first) =
      addedPairs paths first slots := by
    rw [List.filterMap_map]
    refine List.filterMap_congr fun slot hslot => ?_
    unfold Function.comp ThreadEntry.waitPair
    rw [record_entry (hsettled slot hslot)]
    rfl
  have hadvance : (slots.map (entry paths)).map (ThreadEntry.advance g first) =
      (advance paths first slots).map (entry paths) := by
    unfold advance
    rw [List.map_map, List.map_map]
    exact List.map_congr_left fun slot hslot =>
      h.advance_entry (hok.lt slot hslot) (hsettled slot hslot) first
  simp only [Building.step, filterMap_record hsettled, hfirst, hpairs, hadvance]

/-! ## The schedule -/

/-- The rounds add their wait pairs, and then nothing changes any more. -/
theorem WalkedIn.iterate_rounds (h : WalkedIn paths g noexecyields index)
    (order : ExecPoint → ExecPoint → Bool) (waitpairs : List WaitPair) (offered : List ExecPoint)
    {fuel : Nat} (hok : SlotsOk paths slots)
    (hfuel : roundsFuel paths ≤ fuel + (taken paths slots).length) :
    ∃ n b, (Building.step g noexecyields index order)^[n]
        ⟨[], slots.map (entry paths), waitpairs, offered⟩ = b ∧
      b.waitpairs = waitpairs ++ (rounds paths order fuel slots).flatMap Prod.snd ∧
      b.step g noexecyields index order = b := by
  induction fuel generalizing slots waitpairs offered with
  | zero =>
    have hlt := hok.length_taken_lt
    omega
  | succ fuel ih =>
    obtain ⟨hnext, hsettled, hperm⟩ :=
      @settle_spec paths (settleFuel paths) [] slots hok (by simp) (by simp)
    have hstart : SlotsOk paths ([] ++ slots) := hok
    obtain ⟨n, hn⟩ := h.iterate_settle order waitpairs offered hstart (Nat.le_add_right _ _)
    unfold rounds
    simp only
    generalize settle paths (settleFuel paths) [] slots = next at hnext hsettled hperm hn ⊢
    rw [List.map_nil] at hn
    rcases earliest_cases order (next.filterMap (head paths)) with ⟨-, hnone⟩ | ⟨m, hm, hsome⟩
    · refine ⟨n, _, hn, by simp [hnone], ?_⟩
      simp [Building.step, filterMap_record hsettled, hnone]
    · obtain ⟨slot, hslot, hrec⟩ := mem_heads.mp hm
      obtain ⟨l₁, l₂, hsplit⟩ := List.append_of_mem hslot
      have hselect := h.step_select waitpairs offered hnext hsettled hsome
      have hadvance := advance_eq (hsplit ▸ hnext) hrec
      have hstep := (taken_step l₁ l₂ hrec).length_eq
      rw [← hsplit] at hadvance hstep
      rw [← hadvance] at hstep
      have hok' : SlotsOk paths (advance paths m next) := by
        rw [hadvance]
        exact (hsplit ▸ hnext).step hrec
      have hlength := hperm.length_eq
      simp only [PathEvent.memory?, Option.toList_some, List.length_append,
        List.length_singleton, List.nil_append] at hstep hlength
      obtain ⟨n', b, hb, hpairs, hfixed⟩ := ih (waitpairs ++ addedPairs paths m next)
        (offered ++ next.filterMap (head paths)) hok' (by omega)
      refine ⟨n' + (1 + n), b, ?_, ?_, hfixed⟩
      · rw [Function.iterate_add_apply, Function.iterate_add_apply, hn, Function.iterate_one,
          hselect, hb]
      · rw [hpairs, hsome]
        simp

/-- On the paths that are walked in the graph, `buildSchedule` comes to the wait pairs of the
paths. -/
theorem WalkedIn.waitpairs_building (h : WalkedIn paths g noexecyields index) :
    ∃ n, ∀ m ≥ n,
      (building g noexecyields index order m).waitpairs = buildSchedule paths order := by
  obtain ⟨n, b, hb, hpairs, hfixed⟩ :=
    h.iterate_rounds order [] [] slotsOk_start (Nat.le_add_right (roundsFuel paths) _)
  have hstart : Building.start g = ⟨[], [⟨0, 0, none⟩].map (entry paths), [], []⟩ := by
    simp [Building.start, entry, h.first]
  refine ⟨n, fun m hm => ?_⟩
  obtain ⟨k, rfl⟩ := Nat.exists_eq_add_of_le' hm
  unfold building
  rw [Function.iterate_add_apply, hstart, hb, Function.iterate_fixed hfixed, hpairs]
  rfl

/-! ## A thread that is created in one direction of a branch -/

/-- What the threads do in the direction in which the thread is created. -/
def createdOncePath : Nat → List PathEvent
  | 0 => [.other (Site.ep 0 ⟨[], 1⟩), .threadCreate (Site.ep 0 ⟨[.arm 1 0], 0⟩) 1,
      .other (Site.ep 0 ⟨[], 2⟩), .memory (Site.ep 0 ⟨[], 3⟩)]
  | 1 => [.other (Site.ep 1 ⟨[], 0⟩), .memory (Site.ep 1 ⟨[], 1⟩)]
  | _ => []

theorem create_createdOncePath {t child : Nat} {ep : ExecPoint}
    (h : .threadCreate ep child ∈ createdOncePath t) :
    t = 0 ∧ child = 1 ∧ ep = Site.ep 0 ⟨[.arm 1 0], 0⟩ := by
  match t with
  | 0 | 1 | _ + 2 => simp_all [createdOncePath]

private theorem createdOncePath_increasing :
    ∀ t < 2, (createdOncePath t).Pairwise PathEvent.Precedes := by
  unfold PathEvent.Precedes
  decide

theorem created_createdOncePath {t : Nat} (ht : t < 2) (hpos : 0 < t) :
    ∃ c < 2, ∃ ep, .threadCreate ep t ∈ createdOncePath c := by
  obtain rfl : t = 1 := by omega
  exact ⟨0, by decide, Site.ep 0 ⟨[.arm 1 0], 0⟩, by simp [createdOncePath]⟩

def createdOncePaths : RecordedPaths where
  num := 2
  path := createdOncePath
  num_pos := Nat.two_pos
  tid_eq := by decide
  increasing := createdOncePath_increasing
  created_lt t _ ep child h := by
    obtain ⟨rfl, rfl, -⟩ := create_createdOncePath h
    decide
  created t := created_createdOncePath
  created_once t _ t' _ ep ep' child h h' := by
    obtain ⟨rfl, -, rfl⟩ := create_createdOncePath h
    obtain ⟨rfl, -, rfl⟩ := create_createdOncePath h'
    exact ⟨rfl, rfl⟩

theorem walkedIn_createdOnce :
    WalkedIn createdOncePaths createdOnce false (fun _ => some 1) where
  first := by decide +kernel
  next := by decide +kernel
  memory := by decide +kernel
  creates := by decide +kernel

end ScheduleBuilder

end SatCheck
