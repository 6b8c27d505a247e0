import SatCheck.RecordWalk
import SatCheck.Schedule
import SatCheck.Library.Worklist
import Mathlib.Algebra.Order.BigOperators.Group.List
import Mathlib.Algebra.Order.Group.Nat
import Mathlib.Data.Prod.Lex
/-!
# The threads of a schedule

`ScheduleBuilder::buildSchedule` on the recorded graph (SC build).  Every thread is taken to its
next memory action, the earliest of these actions goes first, and its thread goes on.
-/

namespace SatCheck

namespace ScheduleBuilder

/-- An entry of `threads` with the one of `lastoperation`. -/
structure ThreadEntry where
  record : Option ExecPoint
  lastoperation : Option ExecPoint
  deriving DecidableEq, Repr

/-- The loop over the threads has come past `done`, and new threads join the end of `todo`.
`offered` only remembers what the selection loop has looked at. -/
structure Building where
  done : List ThreadEntry
  todo : List ThreadEntry
  waitpairs : List WaitPair
  offered : List ExecPoint
  deriving DecidableEq, Repr

section

variable (g : EventGraph) (noexecyields : Bool) (index : ExecPoint → Option Nat)
  (order : ExecPoint → ExecPoint → Bool)

/-- The thread that `processRecord` adds at a THREADCREATE. -/
def createdThread (record : ExecPoint) : List ThreadEntry :=
  if g.getType record = some .threadcreate then [⟨g.getChildRecord record, none⟩] else []

namespace ThreadEntry

def advance (first : ExecPoint) (entry : ThreadEntry) : ThreadEntry :=
  if entry.record = some first then ⟨getNextRecord g first, some first⟩ else entry

def waitPair (first : ExecPoint) (entry : ThreadEntry) : Option WaitPair :=
  if entry.record = some first then none else entry.lastoperation.map fun last => ⟨first, last⟩

end ThreadEntry

namespace Building

/-- An iteration of the loop over the threads, or the selection of the earliest action. -/
def step (b : Building) : Building :=
  match b.todo with
  | ⟨none, last⟩ :: todo => { b with done := b.done ++ [⟨none, last⟩], todo := todo }
  | ⟨some record, last⟩ :: todo =>
    let next := processRecord g noexecyields index record
    if next = some record then
      { b with
        done := b.done ++ [⟨some record, last⟩]
        todo := todo ++ createdThread g record }
    else { b with todo := ⟨next, last⟩ :: todo ++ createdThread g record }
  | [] =>
    match earliest order (b.done.filterMap ThreadEntry.record) with
    | none => b
    | some first =>
      { done := []
        todo := b.done.map (ThreadEntry.advance g first)
        waitpairs := b.waitpairs ++ b.done.filterMap (ThreadEntry.waitPair first)
        offered := b.offered ++ b.done.filterMap ThreadEntry.record }

def start : Building := ⟨[], [⟨some g.first, none⟩], [], []⟩

end Building

/-- `buildSchedule` after `n` steps. -/
def building (n : Nat) : Building :=
  (Building.step g noexecyields index order)^[n] (Building.start g)

def Offers (record : ExecPoint) : Prop :=
  ∃ n, record ∈ (building g noexecyields index order n).offered

/-- The records that `buildSchedule` goes on to from a record. -/
def Follows (a x : ExecPoint) : Prop :=
  ScheduleBuilder.step g noexecyields index a = some x ∨
    (g.getType a = some .threadcreate ∧ g.getChildRecord a = some x)

end

variable {g : EventGraph} {noexecyields : Bool} {index : ExecPoint → Option Nat}
  {order : ExecPoint → ExecPoint → Bool}

/-! ## The earliest action -/

theorem earliest_cases (order : ExecPoint → ExecPoint → Bool) (heads : List ExecPoint) :
    (heads = [] ∧ earliest order heads = none) ∨
      ∃ first ∈ heads, earliest order heads = some first := by
  have hfold : ∀ (heads : List ExecPoint) (best : ExecPoint), ∃ first ∈ best :: heads,
      heads.foldl (fun best head =>
        match best with
        | none => some head
        | some best => if order head best then some head else some best) (some best) =
      some first := by
    intro heads
    induction heads with
    | nil => exact fun best => ⟨best, List.mem_singleton_self best, rfl⟩
    | cons head heads ih =>
      intro best
      rw [List.foldl_cons]
      simp only
      split_ifs
      · obtain ⟨first, hfirst, heq⟩ := ih head
        exact ⟨first, List.mem_cons_of_mem _ hfirst, heq⟩
      · obtain ⟨first, hfirst, heq⟩ := ih best
        refine ⟨first, ?_, heq⟩
        rcases List.mem_cons.mp hfirst with rfl | hfirst
        · exact List.mem_cons_self
        · exact List.mem_cons_of_mem _ (List.mem_cons_of_mem _ hfirst)
  cases heads with
  | nil => exact .inl ⟨rfl, rfl⟩
  | cons head heads => exact .inr (hfold heads head)

/-! ## The threads are taken on -/

theorem processRecord_cases {a x : ExecPoint} (h : processRecord g noexecyields index a = some x) :
    x = a ∨ g.getChildRecord a = some x ∨ (∃ v, g.firstrecord ⟨a, v⟩ = some x) ∨
      getNextRecord g a = some x := by
  unfold processRecord at h
  split at h
  · exact .inl (Option.some_inj.mp h).symm
  · exact .inl (Option.some_inj.mp h).symm
  · exact .inl (Option.some_inj.mp h).symm
  · exact .inl (Option.some_inj.mp h).symm
  · exact .inr (.inl h)
  · split at h
    next branchrecord hfirst =>
      obtain ⟨v, -, hv⟩ := Option.bind_eq_some_iff.mp hfirst
      exact .inr (.inr (.inl ⟨v, hv.trans h⟩))
    next => exact .inr (.inr (.inr h))
  · split_ifs at h
    exact .inr (.inr (.inr h))
  · exact .inr (.inr (.inr h))
  · simp at h

theorem step_of_memory {record : ExecPoint}
    (h : processRecord g noexecyields index record = some record) :
    ScheduleBuilder.step g noexecyields index record = getNextRecord g record := by
  unfold ScheduleBuilder.step
  simp [h]

theorem step_of_ne {record : ExecPoint}
    (h : processRecord g noexecyields index record ≠ some record) :
    ScheduleBuilder.step g noexecyields index record =
      processRecord g noexecyields index record := by
  unfold ScheduleBuilder.step
  simp [h]

def ThreadEntry.weight (w : ExecPoint → Nat) (entry : ThreadEntry) : Nat :=
  (entry.record.map w).getD 0

def Weighs (g : EventGraph) (noexecyields : Bool) (index : ExecPoint → Option Nat)
    (w : ExecPoint → Nat) : Prop :=
  ∀ a, ((ScheduleBuilder.step g noexecyields index a).map w).getD 0 +
    ((createdThread g a).map (ThreadEntry.weight w)).sum < w a

theorem type_of_memory {w : ExecPoint → Nat} (hw : Weighs g noexecyields index w)
    {record : ExecPoint} (h : processRecord g noexecyields index record = some record) :
    g.getType record ≠ some .threadcreate := by
  intro htype
  have hnext : getNextRecord g record = some record := by simpa [processRecord, htype] using h
  have hlt := hw record
  rw [step_of_memory h, hnext] at hlt
  simp only [Option.map_some, Option.getD_some] at hlt
  omega

namespace Building

/-- The threads that the loop has come past are at their end or at a memory action. -/
def Settled (g : EventGraph) (noexecyields : Bool) (index : ExecPoint → Option Nat)
    (b : Building) : Prop :=
  ∀ entry ∈ b.done, ∀ record, entry.record = some record →
    processRecord g noexecyields index record = some record

def Holds (b : Building) (record : ExecPoint) : Prop :=
  ∃ entry ∈ b.done ++ b.todo, entry.record = some record

/-- The weight of the records, and then what the loop over the threads has still to come to. -/
def measure (w : ExecPoint → Nat) (b : Building) : ℕ ×ₗ ℕ :=
  toLex (((b.done ++ b.todo).map (ThreadEntry.weight w)).sum, b.todo.length)

private theorem weight_advance_le {w : ExecPoint → Nat} (hw : Weighs g noexecyields index w)
    {first : ExecPoint} (hfirst : processRecord g noexecyields index first = some first)
    (entry : ThreadEntry) : (entry.advance g first).weight w ≤ entry.weight w ∧
      (entry.record = some first → (entry.advance g first).weight w < entry.weight w) := by
  have hlt := hw first
  rw [step_of_memory hfirst] at hlt
  unfold ThreadEntry.advance ThreadEntry.weight
  split_ifs with heq
  · rw [heq]
    simp only [Option.map_some, Option.getD_some]
    omega
  · exact ⟨le_rfl, fun h => absurd h heq⟩

theorem sum_advance_lt {w : ExecPoint → Nat} (hw : Weighs g noexecyields index w)
    {first : ExecPoint} (hfirst : processRecord g noexecyields index first = some first)
    {entries : List ThreadEntry} (hmem : ∃ entry ∈ entries, entry.record = some first) :
    ((entries.map (ThreadEntry.advance g first)).map (ThreadEntry.weight w)).sum <
      (entries.map (ThreadEntry.weight w)).sum := by
  obtain ⟨entry, hentry, hrecord⟩ := hmem
  rw [List.map_map]
  apply List.sum_lt_sum
  · exact fun entry _ => (weight_advance_le hw hfirst entry).1
  · exact ⟨entry, hentry, (weight_advance_le hw hfirst entry).2 hrecord⟩

theorem settled_step {b : Building} (h : b.Settled g noexecyields index) :
    (b.step g noexecyields index order).Settled g noexecyields index := by
  obtain ⟨done, todo, waitpairs, offered⟩ := b
  have hmore : ∀ entry, (∀ record, entry.record = some record →
      processRecord g noexecyields index record = some record) →
      ∀ entry' ∈ done ++ [entry], ∀ record, entry'.record = some record →
        processRecord g noexecyields index record = some record := by
    intro entry hentry entry' hmem
    rcases List.mem_append.mp hmem with hmem | hmem
    · exact h entry' hmem
    · rw [List.mem_singleton.mp hmem]
      exact hentry
  cases todo with
  | nil =>
    unfold step
    simp only
    split
    · exact h
    · simp [Settled]
  | cons entry todo =>
    obtain ⟨record, last⟩ := entry
    cases record with
    | none => exact hmore ⟨none, last⟩ (by simp)
    | some record =>
      unfold step
      simp only
      split_ifs with hnext
      · apply hmore ⟨some record, last⟩
        rintro record' heq
        obtain rfl := Option.some_inj.mp heq
        exact hnext
      · exact h

/-- A thread stays at its record, or the record has been offered and the thread goes on. -/
theorem holds_step {w : ExecPoint → Nat} (hw : Weighs g noexecyields index w) {b : Building}
    (h : b.Settled g noexecyields index) {a : ExecPoint} (ha : b.Holds a) :
    (b.step g noexecyields index order).Holds a ∨
      (processRecord g noexecyields index a = some a →
        a ∈ (b.step g noexecyields index order).offered) ∧
      ∀ x, Follows g noexecyields index a x → (b.step g noexecyields index order).Holds x := by
  obtain ⟨done, todo, waitpairs, offered⟩ := b
  obtain ⟨entry, hentry, hrecord⟩ := ha
  cases todo with
  | nil =>
    have hdone : entry ∈ done := by simpa using hentry
    have hmemory := h entry hdone a hrecord
    have hhead : a ∈ done.filterMap ThreadEntry.record :=
      List.mem_filterMap.mpr ⟨entry, hdone, hrecord⟩
    rcases earliest_cases order (done.filterMap ThreadEntry.record) with
      ⟨hnil, -⟩ | ⟨first, -, hfirst⟩
    · simp [hnil] at hhead
    · have hadvance : entry.advance g first ∈
          (Building.step g noexecyields index order ⟨done, [], waitpairs, offered⟩).done ++
            (Building.step g noexecyields index order ⟨done, [], waitpairs, offered⟩).todo := by
        simp only [step, hfirst, List.nil_append]
        exact List.mem_map_of_mem hdone
      by_cases heq : a = first
      · subst heq
        right
        constructor
        · intro _
          simp only [step, hfirst]
          exact List.mem_append_right _ hhead
        · rintro x (hstep | ⟨htype, -⟩)
          · rw [step_of_memory hmemory] at hstep
            refine ⟨_, hadvance, ?_⟩
            simp [ThreadEntry.advance, hrecord, hstep]
          · exact absurd htype (type_of_memory hw hmemory)
      · left
        refine ⟨_, hadvance, ?_⟩
        simp [ThreadEntry.advance, hrecord, heq]
  | cons head todo =>
    obtain ⟨record, last⟩ := head
    cases record with
    | none =>
      left
      refine ⟨entry, ?_, hrecord⟩
      simpa [step] using hentry
    | some record =>
      by_cases hnext : processRecord g noexecyields index record = some record
      · left
        refine ⟨entry, ?_, hrecord⟩
        simp only [step, hnext, if_true, List.append_assoc, List.singleton_append, List.mem_append,
          List.mem_cons] at hentry ⊢
        tauto
      · by_cases hhead : entry = ⟨some record, last⟩
        · subst hhead
          obtain rfl := Option.some_inj.mp hrecord
          right
          constructor
          · exact fun hmemory => absurd hmemory hnext
          · rintro x (hstep | ⟨htype, hchild⟩)
            · rw [step_of_ne hnext] at hstep
              have hne : x ≠ record := by
                rintro rfl
                exact hnext hstep
              refine ⟨⟨some x, last⟩, ?_, rfl⟩
              simp [step, hstep, hne]
            · refine ⟨⟨some x, none⟩, ?_, rfl⟩
              simp [step, hnext, createdThread, htype, hchild]
        · left
          refine ⟨entry, ?_, hrecord⟩
          simp only [step, hnext, if_false, List.mem_append, List.mem_cons, hhead, false_or,
            List.cons_append] at hentry ⊢
          tauto

theorem measure_step {w : ExecPoint → Nat} (hw : Weighs g noexecyields index w) {b : Building}
    (h : b.Settled g noexecyields index) {a : ExecPoint} (ha : b.Holds a) :
    (b.step g noexecyields index order).measure w < b.measure w := by
  obtain ⟨done, todo, waitpairs, offered⟩ := b
  cases todo with
  | nil =>
    obtain ⟨entry, hentry, hrecord⟩ := ha
    have hdone : entry ∈ done := by simpa using hentry
    rcases earliest_cases order (done.filterMap ThreadEntry.record) with
      ⟨hnil, -⟩ | ⟨first, hmem, hfirst⟩
    · have hhead := List.mem_filterMap.mpr ⟨entry, hdone, hrecord⟩
      simp [hnil] at hhead
    · obtain ⟨entry', hentry', hrecord'⟩ := List.mem_filterMap.mp hmem
      have hlt := sum_advance_lt hw (h entry' hentry' first hrecord') ⟨entry', hentry', hrecord'⟩
      simp only [step, hfirst, measure, Prod.Lex.toLex_lt_toLex, List.nil_append, List.append_nil]
      exact .inl hlt
  | cons head todo =>
    obtain ⟨record, last⟩ := head
    cases record with
    | none =>
      simp only [step, measure, Prod.Lex.toLex_lt_toLex, List.append_assoc, List.singleton_append,
        List.length_cons, true_and]
      exact .inr (Nat.lt_succ_self _)
    | some record =>
      have hlt := hw record
      by_cases hnext : processRecord g noexecyields index record = some record
      · have hnone : createdThread g record = [] := by
          simp [createdThread, type_of_memory hw hnext]
        simp only [step, hnext, if_true, hnone, measure, Prod.Lex.toLex_lt_toLex, List.append_nil,
          List.append_assoc, List.singleton_append, List.length_cons, true_and]
        exact .inr (Nat.lt_succ_self _)
      · rw [step_of_ne hnext] at hlt
        have hweight : (ThreadEntry.mk (some record) last).weight w = w record := rfl
        simp only [step, hnext, if_false, measure, Prod.Lex.toLex_lt_toLex, List.map_append,
          List.map_cons, List.sum_append, List.sum_cons, List.cons_append, hweight]
        left
        simp only [ThreadEntry.weight] at hlt ⊢
        omega

theorem advances {w : ExecPoint → Nat} (hw : Weighs g noexecyields index w) :
    Worklist.Advances (Building.step g noexecyields index order) (Settled g noexecyields index)
      Holds (fun b a => a ∈ b.offered) (Follows g noexecyields index)
      (fun a => processRecord g noexecyields index a = some a) (measure w) where
  kept _ h := settled_step h
  stays _ h _ ha := holds_step hw h ha
  lt _ h _ ha := measure_step hw h ha

theorem holds_of_step {b : Building} (h : b.Settled g noexecyields index) {x : ExecPoint}
    (hx : (b.step g noexecyields index order).Holds x) :
    b.Holds x ∨ ∃ a, b.Holds a ∧ Follows g noexecyields index a x := by
  obtain ⟨done, todo, waitpairs, offered⟩ := b
  obtain ⟨entry, hentry, hrecord⟩ := hx
  cases todo with
  | nil =>
    rcases earliest_cases order (done.filterMap ThreadEntry.record) with
      ⟨-, hnone⟩ | ⟨first, -, hfirst⟩
    · left
      refine ⟨entry, ?_, hrecord⟩
      simpa [step, hnone] using hentry
    · simp only [step, hfirst, List.nil_append] at hentry
      obtain ⟨entry', hentry', rfl⟩ := List.mem_map.mp hentry
      unfold ThreadEntry.advance at hrecord
      split_ifs at hrecord with heq
      · right
        refine ⟨first, ⟨entry', by simpa using hentry', heq⟩, .inl ?_⟩
        rw [step_of_memory (h entry' hentry' first heq)]
        exact hrecord
      · exact .inl ⟨entry', by simpa using hentry', hrecord⟩
  | cons head todo =>
    obtain ⟨record, last⟩ := head
    cases record with
    | none =>
      left
      refine ⟨entry, ?_, hrecord⟩
      simpa [step] using hentry
    | some record =>
      have hhead : Holds ⟨done, ⟨some record, last⟩ :: todo, waitpairs, offered⟩ record :=
        ⟨⟨some record, last⟩, by simp, rfl⟩
      have hcreated : entry ∈ createdThread g record →
          Follows g noexecyields index record x := by
        intro hcreated
        unfold createdThread at hcreated
        split_ifs at hcreated with htype
        · obtain rfl := List.mem_singleton.mp hcreated
          exact .inr ⟨htype, hrecord⟩
        · simp at hcreated
      have hold : entry ∈ done ∨ entry ∈ todo →
          Holds ⟨done, ⟨some record, last⟩ :: todo, waitpairs, offered⟩ x := by
        intro hmem
        refine ⟨entry, ?_, hrecord⟩
        simp only [List.mem_append, List.mem_cons]
        tauto
      by_cases hnext : processRecord g noexecyields index record = some record
      · simp only [step, hnext, if_true, List.mem_append, List.mem_singleton] at hentry
        rcases hentry with (hentry | rfl) | hentry | hentry
        · exact .inl (hold (.inl hentry))
        · obtain rfl := Option.some_inj.mp hrecord
          exact .inl hhead
        · exact .inl (hold (.inr hentry))
        · exact .inr ⟨record, hhead, hcreated hentry⟩
      · simp only [step, hnext, if_false, List.cons_append, List.mem_append,
          List.mem_cons] at hentry
        rcases hentry with hentry | rfl | hentry | hentry
        · exact .inl (hold (.inl hentry))
        · right
          refine ⟨record, hhead, .inl ?_⟩
          rw [step_of_ne hnext]
          exact hrecord
        · exact .inl (hold (.inr hentry))
        · exact .inr ⟨record, hhead, hcreated hentry⟩

private theorem holds_of_offered {b : Building} {x : ExecPoint}
    (hx : x ∈ (b.step g noexecyields index order).offered) : x ∈ b.offered ∨ b.Holds x := by
  obtain ⟨done, todo, waitpairs, offered⟩ := b
  unfold step at hx
  split at hx
  · exact .inl hx
  · simp only at hx
    split_ifs at hx
    · exact .inl hx
    · exact .inl hx
  · split at hx
    · exact .inl hx
    · rcases List.mem_append.mp hx with hx | hx
      · exact .inl hx
      · obtain ⟨entry, hentry, hrecord⟩ := List.mem_filterMap.mp hx
        exact .inr ⟨entry, List.mem_append_left _ hentry, hrecord⟩

private theorem comesFrom : Worklist.ComesFrom (Building.step g noexecyields index order)
    (Settled g noexecyields index) Holds (fun b a => a ∈ b.offered)
    (Follows g noexecyields index) where
  kept _ h := settled_step h
  comes _ h _ hx := holds_of_step h hx
  sees _ _ _ hx := holds_of_offered hx

theorem settled_start : (start g).Settled g noexecyields index := by
  simp [Settled, start]

end Building

theorem follows_of_offers {record : ExecPoint} (h : Offers g noexecyields index order record) :
    Relation.ReflTransGen (Follows g noexecyields index) g.first record := by
  obtain ⟨n, hn⟩ := h
  refine Building.comesFrom.reaches Building.settled_start ?_ n record (.inr hn)
  rintro b (⟨entry, hentry, hrecord⟩ | hb)
  · obtain rfl : entry = ⟨some g.first, none⟩ := by simpa [Building.start] using hentry
    exact (Option.some_inj.mp hrecord).symm
  · simp [Building.start] at hb

theorem offers_of_follows {w : ExecPoint → Nat} (hw : Weighs g noexecyields index w)
    {record : ExecPoint}
    (hfollows : Relation.ReflTransGen (Follows g noexecyields index) g.first record)
    (hmemory : processRecord g noexecyields index record = some record) :
    Offers g noexecyields index order record := by
  have hholds : (Building.start g).Holds g.first :=
    ⟨⟨some g.first, none⟩, by simp [Building.start], rfl⟩
  exact (Building.advances hw).exists_seen Building.settled_start hholds hfollows hmemory

end ScheduleBuilder

end SatCheck
