import SatCheck.Schedule
import Mathlib.Data.List.Nodup
import Mathlib.Data.List.Perm.Subperm
import Mathlib.Algebra.BigOperators.Group.List.Basic
import Mathlib.Algebra.Order.BigOperators.Group.List
import Mathlib.Algebra.Order.Group.Nat
/-!
# The schedule follows the order

In every round `buildSchedule` takes the earliest action that is left, because a
thread that is not started yet only has actions behind the head of one of its
creators.  The wait pairs then say what has to be executed before each action.
-/

namespace SatCheck

/-! ## Lists split at a position -/

section Position

variable {α : Type*} {R : α → α → Prop} {l : List α} {i : Nat} {a b c : α}

theorem mem_drop_of_getElem? (h : l[i]? = some a) : a ∈ l.drop i := by
  obtain ⟨hi, rfl⟩ := List.getElem?_eq_some_iff.mp h
  rw [List.drop_eq_getElem_cons hi]
  exact List.mem_cons_self

theorem pairwise_of_mem_take (h : l.Pairwise R) (ha : a ∈ l.take i) (hb : b ∈ l.drop i) :
    R a b := by
  rw [← List.take_append_drop i l, List.pairwise_append] at h
  exact h.2.2 a ha b hb

theorem eq_or_pairwise_of_mem_drop (h : l.Pairwise R) (ha : l[i]? = some a)
    (hb : b ∈ l.drop i) : b = a ∨ R a b := by
  obtain ⟨hi, rfl⟩ := List.getElem?_eq_some_iff.mp ha
  rw [List.drop_eq_getElem_cons hi] at hb
  rcases List.mem_cons.mp hb with rfl | hb
  · exact .inl rfl
  · refine .inr (pairwise_of_mem_take h (?_ : l[i] ∈ l.take (i + 1)) hb)
    rw [List.take_succ_eq_append_getElem hi]
    exact List.mem_append_right _ (List.mem_singleton_self _)

theorem mem_take_or_drop (i : Nat) (h : a ∈ l) : a ∈ l.take i ∨ a ∈ l.drop i := by
  rwa [← List.take_append_drop i l, List.mem_append] at h

theorem take_succ_of_getElem? (h : l[i]? = some a) : l.take (i + 1) = l.take i ++ [a] := by
  obtain ⟨hi, rfl⟩ := List.getElem?_eq_some_iff.mp h
  exact List.take_succ_eq_append_getElem hi

end Position

theorem mem_memories {path : List PathEvent} {f : ExecPoint} :
    f ∈ memories path ↔ .memory f ∈ path := by
  simp only [memories, List.mem_filterMap]
  constructor
  · rintro ⟨event, hmem, hevent⟩
    cases event <;> simp [PathEvent.memory?] at hevent
    subst hevent
    exact hmem
  · intro h
    exact ⟨_, h, rfl⟩

namespace RecordedPaths

variable {paths : RecordedPaths} {order : ExecPoint → ExecPoint → Bool}

theorem not_precedes_self (e : PathEvent) : ¬ PathEvent.Precedes e e := by
  rintro ⟨h, -⟩
  simp at h

theorem tid_of_memory {t : Nat} {f : ExecPoint} (ht : t < paths.num)
    (h : .memory f ∈ paths.path t) : f.tid = t :=
  paths.tid_eq t ht _ h

theorem Action.mem {f : ExecPoint} (h : paths.Action f) :
    f.tid < paths.num ∧ .memory f ∈ paths.path f.tid := by
  obtain ⟨t, ht, hmem⟩ := h
  have := tid_of_memory ht hmem
  subst this
  exact ⟨ht, hmem⟩

theorem OrderOk.asymm (h : paths.OrderOk order) {f g : ExecPoint} (hf : paths.Action f)
    (hg : paths.Action g) (hfg : order f g = true) : order g f = false := by
  cases hgf : order g f with
  | false => rfl
  | true =>
    have hff := h.trans f g f hf hg hf hfg hgf
    rw [h.irrefl f hf] at hff
    cases hff

theorem OrderOk.head_le (h : paths.OrderOk order) {t pos : Nat} {head f : ExecPoint}
    (ht : t < paths.num) (hhead : (paths.path t)[pos]? = some (.memory head))
    (hf : .memory f ∈ (paths.path t).drop pos) : f = head ∨ order head f = true := by
  rcases eq_or_pairwise_of_mem_drop (h.program t ht) hhead hf with heq | hlt
  · exact .inl (PathEvent.memory.inj heq)
  · exact .inr (hlt head f rfl rfl)

end RecordedPaths

namespace ScheduleBuilder

variable {paths : RecordedPaths} {order : ExecPoint → ExecPoint → Bool}

/-! ## The earliest action -/

private theorem earliest_cons_cons (best x : ExecPoint) (l : List ExecPoint) :
    earliest order (best :: x :: l) =
      if order x best then earliest order (x :: l) else earliest order (best :: l) := by
  cases hx : order x best <;> simp [earliest, hx]

theorem earliest_spec {heads : List ExecPoint} (h : paths.OrderOk order)
    (hheads : ∀ f ∈ heads, paths.Action f) :
    (heads = [] ∧ earliest order heads = none) ∨
      ∃ m ∈ heads, earliest order heads = some m ∧ ∀ f ∈ heads, f = m ∨ order m f = true := by
  have hfold : ∀ (l : List ExecPoint) (best : ExecPoint), paths.Action best →
      (∀ f ∈ l, paths.Action f) →
      ∃ m ∈ best :: l, earliest order (best :: l) = some m ∧
        ∀ f ∈ best :: l, f = m ∨ order m f = true := by
    intro l
    induction l with
    | nil => exact fun best _ _ => ⟨best, by simp, rfl, by simp⟩
    | cons x l ih =>
      intro best hbest hl
      rw [List.forall_mem_cons] at hl
      cases hx : order x best with
      | true =>
        obtain ⟨m, hm, hfold, hmin⟩ := ih x hl.1 hl.2
        refine ⟨m, List.mem_cons_of_mem best hm, ?_, ?_⟩
        · rw [earliest_cons_cons, hx, if_pos rfl, hfold]
        rw [List.forall_mem_cons]
        refine ⟨?_, hmin⟩
        have hmact : paths.Action m := by
          rcases List.mem_cons.mp hm with rfl | hm
          · exact hl.1
          · exact hl.2 m hm
        rcases hmin x (by simp) with rfl | hmx
        · exact .inr hx
        · exact .inr (h.trans m x best hmact hl.1 hbest hmx hx)
      | false =>
        obtain ⟨m, hm, hfold, hmin⟩ := ih best hbest hl.2
        rw [List.forall_mem_cons] at hmin
        refine ⟨m, ?_, by rw [earliest_cons_cons, hx, if_neg (by simp), hfold], ?_⟩
        · rcases List.mem_cons.mp hm with rfl | hm
          · simp
          · simp [hm]
        · rw [List.forall_mem_cons, List.forall_mem_cons]
          refine ⟨hmin.1, ?_, hmin.2⟩
          have hmact : paths.Action m := by
            rcases List.mem_cons.mp hm with rfl | hm
            · exact hbest
            · exact hl.2 m hm
          by_cases hxb : x = best
          · rw [hxb]
            exact hmin.1
          · have hbx := (h.total x best hl.1 hbest hxb).resolve_left (by simp [hx])
            rcases hmin.1 with rfl | hmb
            · exact .inr hbx
            · exact .inr (h.trans m best x hmact hbest hl.1 hmb hbx)
  cases heads with
  | nil => exact .inl ⟨rfl, rfl⟩
  | cons x l =>
    rw [List.forall_mem_cons] at hheads
    obtain ⟨m, hm, hfold, hmin⟩ := hfold l x hheads.1 hheads.2
    exact .inr ⟨m, hm, hfold, hmin⟩

/-! ## Slots -/

structure SlotsOk (paths : RecordedPaths) (slots : List Slot) : Prop where
  nodup : (slots.map Slot.thread).Nodup
  lt : ∀ slot ∈ slots, slot.thread < paths.num
  pos_le : ∀ slot ∈ slots, slot.pos ≤ (paths.path slot.thread).length
  main : ∃ slot ∈ slots, slot.thread = 0
  last : ∀ slot ∈ slots,
    slot.lastoperation = (memories ((paths.path slot.thread).take slot.pos)).getLast?
  children : ∀ slot ∈ slots, ∀ ep child,
    .threadCreate ep child ∈ (paths.path slot.thread).take slot.pos →
    ∃ slot' ∈ slots, slot'.thread = child
  parents : ∀ slot ∈ slots, 0 < slot.thread → ∃ slot' ∈ slots, ∃ ep,
    .threadCreate ep slot.thread ∈ (paths.path slot'.thread).take slot'.pos

def taken (paths : RecordedPaths) (slots : List Slot) : List ExecPoint :=
  slots.flatMap fun slot => memories ((paths.path slot.thread).take slot.pos)

theorem mem_taken {slots : List Slot} {f : ExecPoint} :
    f ∈ taken paths slots ↔
      ∃ slot ∈ slots, .memory f ∈ (paths.path slot.thread).take slot.pos := by
  simp only [taken, List.mem_flatMap, mem_memories]

theorem SlotsOk.eq_of_thread {slots : List Slot} (h : SlotsOk paths slots) {a b : Slot}
    (ha : a ∈ slots) (hb : b ∈ slots) (hthread : a.thread = b.thread) : a = b :=
  List.inj_on_of_nodup_map h.nodup ha hb hthread

def stepped (slot : Slot) (event : PathEvent) : Slot :=
  { slot with
    pos := slot.pos + 1
    lastoperation := match event with
      | .memory ep => some ep
      | _ => slot.lastoperation }

def created : PathEvent → List Slot
  | .threadCreate _ child => [⟨child, 0, none⟩]
  | _ => []

theorem memories_append_singleton (l : List PathEvent) (event : PathEvent) :
    memories (l ++ [event]) = memories l ++ event.memory?.toList := by
  cases event <;> simp [memories, PathEvent.memory?, List.filterMap_append]

theorem not_present_of_create {l₁ l₂ : List Slot} {slot : Slot}
    (h : SlotsOk paths (l₁ ++ slot :: l₂)) {ep : ExecPoint} {child : Nat}
    (hrec : record paths slot = some (.threadCreate ep child)) :
    ∀ slot' ∈ l₁ ++ slot :: l₂, slot'.thread ≠ child := by
  have hslot : slot ∈ l₁ ++ slot :: l₂ := by simp
  have hpath : .threadCreate ep child ∈ paths.path slot.thread := List.mem_of_getElem? hrec
  have hlt := h.lt slot hslot
  rintro slot' hslot' rfl
  obtain ⟨slot'', hslot'', ep', hcreate⟩ := h.parents slot' hslot'
    (Nat.zero_lt_of_lt (paths.created_lt _ hlt ep _ hpath).1)
  obtain ⟨hthread, rfl⟩ := paths.created_once _ (h.lt slot'' hslot'') _ hlt ep' ep _
    (List.mem_of_mem_take hcreate) hpath
  have heq := h.eq_of_thread hslot'' hslot hthread
  subst heq
  exact RecordedPaths.not_precedes_self _ (pairwise_of_mem_take
    (paths.increasing _ hlt) hcreate (mem_drop_of_getElem? hrec))

/-- A step takes nothing from what the threads have passed. -/
private theorem exists_kept {l₁ l₂ : List Slot} {slot : Slot} {event : PathEvent}
    (hrec : record paths slot = some event) {a : Slot} (ha : a ∈ l₁ ++ slot :: l₂) :
    ∃ b ∈ l₁ ++ (stepped slot event :: l₂ ++ created event), b.thread = a.thread ∧
      ∀ e ∈ (paths.path a.thread).take a.pos, e ∈ (paths.path b.thread).take b.pos := by
  rcases List.mem_append.mp ha with ha | ha
  · exact ⟨a, by simp [ha], rfl, fun _ he => he⟩
  · rcases List.mem_cons.mp ha with rfl | ha
    · refine ⟨stepped a event, by simp, rfl, fun e he => ?_⟩
      change e ∈ (paths.path a.thread).take (a.pos + 1)
      rw [take_succ_of_getElem? hrec]
      exact List.mem_append_left _ he
    · exact ⟨a, by simp [ha], rfl, fun _ he => he⟩

private theorem mem_stepped_cases {l₁ l₂ : List Slot} {slot b : Slot} {event : PathEvent}
    (hb : b ∈ l₁ ++ (stepped slot event :: l₂ ++ created event)) :
    b ∈ l₁ ++ slot :: l₂ ∨ b = stepped slot event ∨
      ∃ ep child, event = .threadCreate ep child ∧ b = ⟨child, 0, none⟩ := by
  simp only [List.mem_append, List.mem_cons] at hb
  rcases hb with hb | (rfl | hb) | hb
  · exact .inl (by simp [hb])
  · exact .inr (.inl rfl)
  · exact .inl (by simp [hb])
  · cases event with
    | threadCreate ep child => exact .inr (.inr ⟨ep, child, rfl, by simpa [created] using hb⟩)
    | _ => simp [created] at hb

private theorem SlotsOk.nodup_step {l₁ l₂ : List Slot} {slot : Slot} {event : PathEvent}
    (h : SlotsOk paths (l₁ ++ slot :: l₂)) (hrec : record paths slot = some event) :
    ((l₁ ++ (stepped slot event :: l₂ ++ created event)).map Slot.thread).Nodup := by
  have hnodup := h.nodup
  cases event with
  | threadCreate ep child =>
    have habsent : child ∉ (l₁ ++ slot :: l₂).map Slot.thread := by
      intro hmem
      obtain ⟨a, ha, hchild⟩ := List.mem_map.mp hmem
      exact not_present_of_create h hrec a ha hchild
    have happend : ((l₁ ++ slot :: l₂).map Slot.thread ++ [child]).Nodup :=
      hnodup.append (List.nodup_singleton child) (by simpa using habsent)
    simpa [created, stepped] using happend
  | _ => simpa [created, stepped] using hnodup

theorem SlotsOk.step {l₁ l₂ : List Slot} {slot : Slot} {event : PathEvent}
    (h : SlotsOk paths (l₁ ++ slot :: l₂)) (hrec : record paths slot = some event) :
    SlotsOk paths (l₁ ++ (stepped slot event :: l₂ ++ created event)) := by
  have hslot : slot ∈ l₁ ++ slot :: l₂ := by simp
  have htake : (paths.path slot.thread).take (slot.pos + 1) =
      (paths.path slot.thread).take slot.pos ++ [event] := take_succ_of_getElem? hrec
  refine ⟨h.nodup_step hrec, ?_, ?_, ?_, ?_, ?_, ?_⟩
  · intro b hb
    rcases mem_stepped_cases hb with hb | rfl | ⟨ep, child, rfl, rfl⟩
    · exact h.lt b hb
    · exact h.lt slot hslot
    · exact (paths.created_lt _ (h.lt slot hslot) ep child (List.mem_of_getElem? hrec)).2
  · intro b hb
    rcases mem_stepped_cases hb with hb | rfl | ⟨ep, child, rfl, rfl⟩
    · exact h.pos_le b hb
    · exact (List.getElem?_eq_some_iff.mp hrec).1
    · exact Nat.zero_le _
  · obtain ⟨a, ha, hmain⟩ := h.main
    obtain ⟨b, hb, hthread, -⟩ := exists_kept hrec ha
    exact ⟨b, hb, hthread.trans hmain⟩
  · intro b hb
    rcases mem_stepped_cases hb with hb | rfl | ⟨ep, child, rfl, rfl⟩
    · exact h.last b hb
    · change _ = (memories ((paths.path slot.thread).take (slot.pos + 1))).getLast?
      rw [htake, memories_append_singleton]
      cases event <;> simp [stepped, PathEvent.memory?, h.last slot hslot]
    · simp [memories]
  · intro b hb ep child hcreate
    rcases mem_stepped_cases hb with hb | rfl | ⟨ep', child', rfl, rfl⟩
    · obtain ⟨a, ha, hchild⟩ := h.children b hb ep child hcreate
      obtain ⟨b', hb', hthread, -⟩ := exists_kept hrec ha
      exact ⟨b', hb', hthread.trans hchild⟩
    · change _ ∈ (paths.path slot.thread).take (slot.pos + 1) at hcreate
      rw [htake, List.mem_append, List.mem_singleton] at hcreate
      rcases hcreate with hcreate | rfl
      · obtain ⟨a, ha, hchild⟩ := h.children slot hslot ep child hcreate
        obtain ⟨b', hb', hthread, -⟩ := exists_kept hrec ha
        exact ⟨b', hb', hthread.trans hchild⟩
      · exact ⟨⟨child, 0, none⟩, by simp [created], rfl⟩
    · simp at hcreate
  · intro b hb hne
    rcases mem_stepped_cases hb with hb | rfl | ⟨ep, child, rfl, rfl⟩
    · obtain ⟨a, ha, ep, hcreate⟩ := h.parents b hb hne
      obtain ⟨b', hb', -, htaken⟩ := exists_kept hrec ha
      exact ⟨b', hb', ep, htaken _ hcreate⟩
    · obtain ⟨a, ha, ep, hcreate⟩ := h.parents slot hslot hne
      obtain ⟨b', hb', -, htaken⟩ := exists_kept hrec ha
      exact ⟨b', hb', ep, htaken _ hcreate⟩
    · refine ⟨stepped slot (.threadCreate ep child), by simp, ep, ?_⟩
      change _ ∈ (paths.path slot.thread).take (slot.pos + 1)
      rw [htake]
      simp

theorem taken_step (l₁ l₂ : List Slot) {slot : Slot} {event : PathEvent}
    (hrec : record paths slot = some event) :
    (taken paths (l₁ ++ (stepped slot event :: l₂ ++ created event))).Perm
      (taken paths (l₁ ++ slot :: l₂) ++ event.memory?.toList) := by
  have htake : (paths.path slot.thread).take (slot.pos + 1) =
      (paths.path slot.thread).take slot.pos ++ [event] := take_succ_of_getElem? hrec
  have hstepped : memories ((paths.path (stepped slot event).thread).take
      (stepped slot event).pos) =
      memories ((paths.path slot.thread).take slot.pos) ++ event.memory?.toList := by
    change memories ((paths.path slot.thread).take (slot.pos + 1)) = _
    rw [htake, memories_append_singleton]
  have hcreated : taken paths (created event) = [] := by
    cases event <;> simp [created, taken, memories]
  simp only [taken, List.flatMap_append, List.flatMap_cons, hstepped, List.append_assoc]
    at hcreated ⊢
  rw [hcreated, List.append_nil]
  refine List.Perm.append_left _ (List.Perm.append_left _ ?_)
  exact List.perm_append_comm

/-! ## Fuel -/

theorem SlotsOk.sum_le {slots : List Slot} (h : SlotsOk paths slots) {w : Slot → Nat}
    {W : Nat → Nat} (hw : ∀ slot ∈ slots, w slot ≤ W slot.thread) :
    (slots.map w).sum ≤ ((List.range paths.num).map W).sum := by
  have hsubset : slots.map Slot.thread ⊆ List.range paths.num := by
    intro t ht
    obtain ⟨slot, hslot, rfl⟩ := List.mem_map.mp ht
    exact List.mem_range.mpr (h.lt slot hslot)
  obtain ⟨l, hperm, hsub⟩ := h.nodup.subperm hsubset
  calc (slots.map w).sum
      ≤ (slots.map fun slot => W slot.thread).sum := List.sum_le_sum hw
    _ = ((slots.map Slot.thread).map W).sum := by rw [List.map_map]; rfl
    _ = (l.map W).sum := ((hperm.map W).sum_eq).symm
    _ ≤ ((List.range paths.num).map W).sum := (hsub.map W).sum_le_sum fun _ _ => Nat.zero_le _

theorem SlotsOk.length_le {slots : List Slot} (h : SlotsOk paths slots) :
    slots.length ≤ paths.num := by
  have hsum := h.sum_le (w := fun _ => 1) (W := fun _ => 1) fun _ _ => le_rfl
  simpa using hsum

theorem SlotsOk.positions_lt {slots : List Slot} (h : SlotsOk paths slots) :
    (slots.map Slot.pos).sum + slots.length < settleFuel paths := by
  have hsum := h.sum_le (W := fun t => (paths.path t).length) h.pos_le
  have hlength := h.length_le
  unfold settleFuel
  omega

theorem SlotsOk.length_taken_lt {slots : List Slot} (h : SlotsOk paths slots) :
    (taken paths slots).length < roundsFuel paths := by
  have hsum := h.sum_le (W := fun t => (memories (paths.path t)).length)
    (w := fun slot => (memories ((paths.path slot.thread).take slot.pos)).length) fun slot _ =>
      ((List.take_sublist _ _).filterMap _).length_le
  rw [taken, List.length_flatMap, roundsFuel]
  omega

/-! ## Getting rid of other records -/

def Settled (paths : RecordedPaths) (slot : Slot) : Prop :=
  ∀ event, record paths slot = some event → event.memory?.isSome

theorem settle_settled {slot : Slot} (h : Settled paths slot) (fuel : Nat)
    (done todo : List Slot) :
    settle paths (fuel + 1) done (slot :: todo) = settle paths fuel (done ++ [slot]) todo := by
  cases hrec : record paths slot with
  | none => simp [settle, hrec]
  | some event =>
    have hmem := h event hrec
    cases event with
    | memory => simp [settle, hrec]
    | _ => simp [PathEvent.memory?] at hmem

theorem settle_other {slot : Slot} {event : PathEvent} (hrec : record paths slot = some event)
    (hmem : event.memory? = none) (fuel : Nat) (done todo : List Slot) :
    settle paths (fuel + 1) done (slot :: todo) =
      settle paths fuel done (stepped slot event :: todo ++ created event) := by
  cases event with
  | memory => simp [PathEvent.memory?] at hmem
  | _ => simp [settle, hrec, stepped, created, Slot.next]

theorem settle_spec {fuel : Nat} {done todo : List Slot} (h : SlotsOk paths (done ++ todo))
    (hdone : ∀ slot ∈ done, Settled paths slot)
    (hfuel : settleFuel paths ≤ fuel + ((done ++ todo).map Slot.pos).sum + done.length) :
    SlotsOk paths (settle paths fuel done todo) ∧
      (∀ slot ∈ settle paths fuel done todo, Settled paths slot) ∧
      (taken paths (settle paths fuel done todo)).Perm (taken paths (done ++ todo)) := by
  induction fuel generalizing done todo with
  | zero =>
    have hlt := h.positions_lt
    simp only [List.length_append] at hlt
    omega
  | succ fuel ih =>
    cases todo with
    | nil =>
      rw [List.append_nil] at h ⊢
      exact ⟨h, hdone, .refl _⟩
    | cons slot todo =>
      by_cases hsettled : Settled paths slot
      · rw [settle_settled hsettled]
        have happend : (done ++ [slot]) ++ todo = done ++ slot :: todo := by simp
        rw [← happend] at h ⊢
        refine ih h ?_ ?_
        · intro a ha
          rcases List.mem_append.mp ha with ha | ha
          · exact hdone a ha
          · rwa [List.mem_singleton.mp ha]
        · simp only [List.map_append, List.map_cons, List.sum_append, List.sum_cons,
            List.length_append, List.length_singleton] at hfuel ⊢
          omega
      · simp only [Settled, not_forall] at hsettled
        obtain ⟨event, hrec, hmem⟩ := hsettled
        have hmem : event.memory? = none := by simpa using hmem
        rw [settle_other hrec hmem]
        have hperm := taken_step done todo hrec
        rw [hmem, Option.toList_none, List.append_nil] at hperm
        obtain ⟨hok, hall, htaken⟩ := ih (h.step hrec) hdone (by
          simp only [List.map_append, List.map_cons, List.sum_append, List.sum_cons,
            stepped] at hfuel ⊢
          omega)
        exact ⟨hok, hall, htaken.trans hperm⟩

/-! ## Rounds -/

/-- A thread without a slot is created behind the position of some slot. -/
theorem SlotsOk.exists_creator {slots : List Slot} (h : SlotsOk paths slots) (u : Nat)
    (hu : u < paths.num) :
    (∃ slot ∈ slots, slot.thread = u) ∨ ∃ slot ∈ slots, ∃ ep child,
      .threadCreate ep child ∈ (paths.path slot.thread).drop slot.pos ∧
      paths.Descends child u := by
  induction u using Nat.strong_induction_on with
  | _ u ih =>
    rcases Nat.eq_zero_or_pos u with rfl | hpos
    · exact .inl h.main
    · obtain ⟨c, hc, ep, hcreate⟩ := paths.created u hu hpos
      have hlt := (paths.created_lt c hc ep u hcreate).1
      rcases ih c hlt hc with ⟨slot, hslot, rfl⟩ | ⟨slot, hslot, ep', child, hmem, hdesc⟩
      · rcases mem_take_or_drop slot.pos hcreate with hmem | hmem
        · exact .inl (h.children slot hslot ep u hmem)
        · exact .inr ⟨slot, hslot, ep, u, hmem, .refl⟩
      · exact .inr ⟨slot, hslot, ep', child, hmem, .step hdesc hc ep hcreate⟩

theorem SlotsOk.exists_head {slots : List Slot} (h : SlotsOk paths slots)
    (hsettled : ∀ slot ∈ slots, Settled paths slot) (horder : paths.OrderOk order)
    (hcreators : paths.AfterCreators order) {f : ExecPoint} (hf : paths.Action f)
    (hleft : f ∉ taken paths slots) :
    ∃ slot ∈ slots, ∃ m, record paths slot = some (.memory m) ∧ (f = m ∨ order m f = true) := by
  have hhead : ∀ slot ∈ slots, ∀ event ∈ (paths.path slot.thread).drop slot.pos,
      ∃ m, record paths slot = some (.memory m) := by
    intro slot hslot event hevent
    have hpos : slot.pos < (paths.path slot.thread).length := by
      have hlength := List.length_pos_of_mem hevent
      rw [List.length_drop] at hlength
      omega
    have hrec : record paths slot = some (paths.path slot.thread)[slot.pos] :=
      List.getElem?_eq_getElem hpos
    have hmem := hsettled slot hslot _ hrec
    cases hev : (paths.path slot.thread)[slot.pos] with
    | memory m => exact ⟨m, hev ▸ hrec⟩
    | _ => simp [hev, PathEvent.memory?] at hmem
  obtain ⟨htid, hmem⟩ := hf.mem
  rcases h.exists_creator f.tid htid with ⟨slot, hslot, hthread⟩ |
    ⟨slot, hslot, ep, child, hcreate, hdesc⟩
  · rw [← hthread] at hmem
    have hdrop := (mem_take_or_drop slot.pos hmem).resolve_left fun htake =>
      hleft (mem_taken.mpr ⟨slot, hslot, htake⟩)
    obtain ⟨m, hm⟩ := hhead slot hslot _ hdrop
    exact ⟨slot, hslot, m, hm, horder.head_le (h.lt slot hslot) hm hdrop⟩
  · obtain ⟨m, hm⟩ := hhead slot hslot _ hcreate
    refine ⟨slot, hslot, m, hm, .inr ?_⟩
    have hlt : slot.pos < (paths.path slot.thread).length := (List.getElem?_eq_some_iff.mp hm).1
    have hdrop : (paths.path slot.thread).drop slot.pos =
        .memory m :: (paths.path slot.thread).drop (slot.pos + 1) := by
      rw [List.drop_eq_getElem_cons hlt, (List.getElem?_eq_some_iff.mp hm).2]
    rw [hdrop, List.mem_cons] at hcreate
    obtain ⟨pre, post, hsplit⟩ := List.append_of_mem (hcreate.resolve_left (by simp))
    refine hcreators slot.thread (h.lt slot hslot)
      ((paths.path slot.thread).take slot.pos ++ .memory m :: pre) ep child post ?_
      f.tid htid hdesc m ?_ f (mem_memories.mpr hmem)
    · rw [List.append_assoc, List.cons_append, ← hsplit, ← hdrop, List.take_append_drop]
    · exact mem_memories.mpr (by simp)

theorem mem_heads {slots : List Slot} {f : ExecPoint} :
    f ∈ slots.filterMap (head paths) ↔
      ∃ slot ∈ slots, record paths slot = some (.memory f) := by
  simp only [List.mem_filterMap, head]
  refine exists_congr fun slot => and_congr_right fun _ => ?_
  cases hrec : record paths slot with
  | none => simp
  | some event => cases event <;> simp [PathEvent.memory?]

/-- What a round takes: the earliest action that is left, with a wait pair for every
other thread that something has been taken from. -/
structure RoundOk (paths : RecordedPaths) (order : ExecPoint → ExecPoint → Bool)
    (done : List ExecPoint) (first : ExecPoint) (pairs : List WaitPair) : Prop where
  action : paths.Action first
  left : first ∉ done
  earliest : ∀ f, paths.Action f → f ∉ done → f = first ∨ order first f = true
  waits : ∀ wp ∈ pairs, wp.stop = first ∧ wp.wait ∈ done ∧ wp.wait.tid ≠ first.tid
  covers : ∀ f ∈ done, f.tid ≠ first.tid →
    ∃ wp ∈ pairs, wp.wait.tid = f.tid ∧ (f = wp.wait ∨ order f wp.wait = true)

/-- All rounds, up to the order of what has been taken before. -/
inductive RoundsOk (paths : RecordedPaths) (order : ExecPoint → ExecPoint → Bool) :
    List ExecPoint → List (ExecPoint × List WaitPair) → Prop
  | nil {done : List ExecPoint} (h : ∀ f, paths.Action f → f ∈ done) : RoundsOk paths order done []
  | cons {done : List ExecPoint} {first : ExecPoint} {pairs : List WaitPair}
      {rs : List (ExecPoint × List WaitPair)} (h : RoundOk paths order done first pairs)
      (hrest : RoundsOk paths order (done ++ [first]) rs) :
      RoundsOk paths order done ((first, pairs) :: rs)

theorem RoundOk.perm {done done' : List ExecPoint} {first : ExecPoint} {pairs : List WaitPair}
    (h : RoundOk paths order done first pairs) (hperm : done.Perm done') :
    RoundOk paths order done' first pairs where
  action := h.action
  left hmem := h.left (hperm.mem_iff.mpr hmem)
  earliest f hf hleft := h.earliest f hf fun hmem => hleft (hperm.mem_iff.mp hmem)
  waits wp hwp := ⟨(h.waits wp hwp).1, hperm.mem_iff.mp (h.waits wp hwp).2.1, (h.waits wp hwp).2.2⟩
  covers f hf := h.covers f (hperm.mem_iff.mpr hf)

theorem RoundsOk.perm {done done' : List ExecPoint} {rs : List (ExecPoint × List WaitPair)}
    (h : RoundsOk paths order done rs) (hperm : done.Perm done') :
    RoundsOk paths order done' rs := by
  induction h generalizing done' with
  | nil h => exact .nil fun f hf => hperm.mem_iff.mp (h f hf)
  | cons h _ ih => exact .cons (h.perm hperm) (ih (hperm.append_right _))

theorem advance_eq {l₁ l₂ : List Slot} {slot : Slot} {m : ExecPoint}
    (h : SlotsOk paths (l₁ ++ slot :: l₂)) (hrec : record paths slot = some (.memory m)) :
    advance paths m (l₁ ++ slot :: l₂) =
      l₁ ++ (stepped slot (.memory m) :: l₂ ++ created (.memory m)) := by
  have htid : ∀ a ∈ l₁ ++ slot :: l₂, head paths a = some m → a.thread = m.tid := by
    intro a ha hhead
    obtain ⟨event, hevent, hmem⟩ := Option.bind_eq_some_iff.mp hhead
    cases event <;> simp [PathEvent.memory?] at hmem
    subst hmem
    exact (RecordedPaths.tid_of_memory (h.lt a ha) (List.mem_of_getElem? hevent)).symm
  have hslot : slot ∈ l₁ ++ slot :: l₂ := by simp
  have hhead : head paths slot = some m := by simp [head, hrec, PathEvent.memory?]
  have hother : ∀ a ∈ l₁ ++ l₂, head paths a ≠ some m := by
    intro a ha hm
    have hmem : a ∈ l₁ ++ slot :: l₂ := by
      rcases List.mem_append.mp ha with ha | ha <;> simp [ha]
    have hthread : a.thread = slot.thread :=
      (htid a hmem hm).trans (htid slot hslot hhead).symm
    have hnodup := h.nodup
    rw [(List.perm_middle.map Slot.thread).nodup_iff, List.map_cons, List.nodup_cons] at hnodup
    exact hnodup.1 (List.mem_map.mpr ⟨a, ha, hthread⟩)
  have hkeep : ∀ l : List Slot, (∀ a ∈ l, head paths a ≠ some m) → advance paths m l = l := by
    intro l hl
    exact (List.map_congr_left fun a ha => if_neg (hl a ha)).trans (List.map_id' l)
  have hstepped : advance paths m [slot] = [stepped slot (.memory m)] := by
    simp [advance, hhead, stepped]
  have hsplit : advance paths m (l₁ ++ slot :: l₂) =
      advance paths m l₁ ++ (advance paths m [slot] ++ advance paths m l₂) := by
    simp [advance]
  rw [hsplit, hstepped, hkeep l₁ fun a ha => hother a (List.mem_append_left _ ha),
    hkeep l₂ fun a ha => hother a (List.mem_append_right _ ha)]
  simp [created]

theorem SlotsOk.last_spec {slots : List Slot} (h : SlotsOk paths slots)
    (horder : paths.OrderOk order) {slot : Slot} (hslot : slot ∈ slots) {f : ExecPoint}
    (hf : .memory f ∈ (paths.path slot.thread).take slot.pos) :
    ∃ last, slot.lastoperation = some last ∧ (f = last ∨ order f last = true) := by
  have hmem := mem_memories.mpr hf
  obtain ⟨pre, last, hsplit⟩ := List.eq_nil_or_concat' _ |>.resolve_left (List.ne_nil_of_mem hmem)
  refine ⟨last, by rw [h.last slot hslot, hsplit, List.getLast?_concat], ?_⟩
  have hpairwise : (memories ((paths.path slot.thread).take slot.pos)).Pairwise
      fun f g => order f g = true := by
    refine List.pairwise_filterMap.mpr ?_
    refine ((horder.program _ (h.lt slot hslot)).sublist (List.take_sublist _ _)).imp ?_
    intro a b hab f hf g hg
    cases a <;> simp [PathEvent.memory?] at hf
    cases b <;> simp [PathEvent.memory?] at hg
    exact hab f g (by rw [hf]) (by rw [hg])
  rw [hsplit, List.pairwise_append] at hpairwise
  rw [hsplit, List.mem_append, List.mem_singleton] at hmem
  rcases hmem with hmem | heq
  · exact .inr (hpairwise.2.2 f hmem last (List.mem_singleton_self last))
  · exact .inl heq

theorem roundOk_addedPairs {slots : List Slot} {slot : Slot} {m : ExecPoint}
    (h : SlotsOk paths slots) (hsettled : ∀ slot ∈ slots, Settled paths slot)
    (horder : paths.OrderOk order) (hcreators : paths.AfterCreators order) (hslot : slot ∈ slots)
    (hrec : record paths slot = some (.memory m))
    (hmin : ∀ f ∈ slots.filterMap (head paths), f = m ∨ order m f = true) :
    RoundOk paths order (taken paths slots) m (addedPairs paths m slots) := by
  have hpath : .memory m ∈ paths.path slot.thread := List.mem_of_getElem? hrec
  have hm : paths.Action m := ⟨slot.thread, h.lt slot hslot, hpath⟩
  have htid : m.tid = slot.thread := RecordedPaths.tid_of_memory (h.lt slot hslot) hpath
  have hhead : head paths slot = some m := by simp [head, hrec, PathEvent.memory?]
  have hother : ∀ a ∈ slots, head paths a ≠ some m ↔ a.thread ≠ m.tid := by
    intro a ha
    refine not_congr ⟨fun hm => ?_, fun hthread => ?_⟩
    · obtain ⟨event, hevent, hmem⟩ := Option.bind_eq_some_iff.mp hm
      cases event <;> simp [PathEvent.memory?] at hmem
      subst hmem
      exact (RecordedPaths.tid_of_memory (h.lt a ha) (List.mem_of_getElem? hevent)).symm
    · rw [h.eq_of_thread ha hslot (hthread.trans htid), hhead]
  have htidTaken : ∀ a ∈ slots, ∀ f, .memory f ∈ (paths.path a.thread).take a.pos →
      f.tid = a.thread := fun a ha f hf =>
    RecordedPaths.tid_of_memory (h.lt a ha) (List.mem_of_mem_take hf)
  refine ⟨hm, fun hmem => ?_, fun f hf hleft => ?_, fun wp hwp => ?_, fun f hf hne => ?_⟩
  · obtain ⟨a, ha, htake⟩ := mem_taken.mp hmem
    have heq := h.eq_of_thread ha hslot ((htidTaken a ha m htake).symm.trans htid)
    subst heq
    exact RecordedPaths.not_precedes_self _ (pairwise_of_mem_take
      (paths.increasing _ (h.lt a ha)) htake (mem_drop_of_getElem? hrec))
  · obtain ⟨a, ha, g, hg, hle⟩ := h.exists_head hsettled horder hcreators hf hleft
    have hgact : paths.Action g := ⟨a.thread, h.lt a ha, List.mem_of_getElem? hg⟩
    rcases hmin g (mem_heads.mpr ⟨a, ha, hg⟩) with rfl | hmg
    · exact hle
    · rcases hle with rfl | hgf
      · exact .inr hmg
      · exact .inr (horder.trans m g f hm hgact hf hmg hgf)
  · obtain ⟨a, ha, hwp⟩ := List.mem_filterMap.mp hwp
    split_ifs at hwp with hheada
    obtain ⟨last, hlast, rfl⟩ := Option.map_eq_some_iff.mp hwp
    have hmem : .memory last ∈ (paths.path a.thread).take a.pos := by
      rw [h.last a ha] at hlast
      exact mem_memories.mp (List.mem_of_getLast? hlast)
    refine ⟨rfl, mem_taken.mpr ⟨a, ha, hmem⟩, ?_⟩
    rw [htidTaken a ha last hmem]
    exact (hother a ha).mp hheada
  · obtain ⟨a, ha, hmem⟩ := mem_taken.mp hf
    obtain ⟨last, hlast, hle⟩ := h.last_spec horder ha hmem
    have hthread := htidTaken a ha f hmem
    have hheada := (hother a ha).mpr (hthread ▸ hne)
    refine ⟨⟨m, last⟩, List.mem_filterMap.mpr ⟨a, ha, ?_⟩, ?_, hle⟩
    · rw [if_neg hheada, hlast]
      rfl
    · have hlastmem : .memory last ∈ (paths.path a.thread).take a.pos := by
        rw [h.last a ha] at hlast
        exact mem_memories.mp (List.mem_of_getLast? hlast)
      exact (htidTaken a ha last hlastmem).trans hthread.symm

theorem roundsOk_rounds {fuel : Nat} {slots : List Slot} (h : SlotsOk paths slots)
    (horder : paths.OrderOk order) (hcreators : paths.AfterCreators order)
    (hfuel : roundsFuel paths ≤ fuel + (taken paths slots).length) :
    RoundsOk paths order (taken paths slots) (rounds paths order fuel slots) := by
  induction fuel generalizing slots with
  | zero =>
    have hlt := h.length_taken_lt
    omega
  | succ fuel ih =>
    obtain ⟨hok, hsettled, hperm⟩ :=
      @settle_spec paths (settleFuel paths) [] slots h (by simp) (by simp)
    unfold rounds
    simp only
    set next := settle paths (settleFuel paths) [] slots
    refine RoundsOk.perm ?_ hperm
    have hheads : ∀ f ∈ next.filterMap (head paths), paths.Action f := by
      intro f hf
      obtain ⟨a, ha, hrec⟩ := mem_heads.mp hf
      exact ⟨a.thread, hok.lt a ha, List.mem_of_getElem? hrec⟩
    rcases earliest_spec horder hheads with ⟨hnil, hnone⟩ | ⟨m, hm, hsome, hmin⟩
    · rw [hnone]
      refine .nil fun f hf => ?_
      by_contra hleft
      obtain ⟨a, ha, m, hm, -⟩ := hok.exists_head hsettled horder hcreators hf hleft
      have hmem := mem_heads.mpr ⟨a, ha, hm⟩
      rw [hnil] at hmem
      cases hmem
    · rw [hsome]
      obtain ⟨slot, hslot, hrec⟩ := mem_heads.mp hm
      refine .cons (roundOk_addedPairs hok hsettled horder hcreators hslot hrec hmin) ?_
      obtain ⟨l₁, l₂, hsplit⟩ := List.append_of_mem hslot
      rw [hsplit] at hok ⊢
      rw [advance_eq hok hrec]
      have hstep := taken_step l₁ l₂ hrec
      refine (ih (hok.step hrec) ?_).perm hstep
      have hlength := hstep.length_eq
      rw [hsplit] at hperm
      rw [List.nil_append] at hperm
      rw [List.length_append, hperm.length_eq] at hlength
      simp only [PathEvent.memory?, Option.toList_some, List.length_singleton] at hlength
      omega

theorem slotsOk_start : SlotsOk paths [⟨0, 0, none⟩] where
  nodup := by simp
  lt := by simpa using paths.num_pos
  pos_le := by simp
  main := by simp
  last := by simp [memories]
  children := by simp
  parents := by simp

theorem roundsOk_scheduleRounds (horder : paths.OrderOk order)
    (hcreators : paths.AfterCreators order) :
    RoundsOk paths order [] (scheduleRounds paths order) := by
  have hrounds := roundsOk_rounds slotsOk_start horder hcreators
    (Nat.le_add_right (roundsFuel paths) _)
  have htaken : taken paths [⟨0, 0, none⟩] = [] := by simp [taken, memories]
  rwa [htaken] at hrounds

/-! ## The wait pairs -/

/-- What the wait pairs ask for: the stops come in order, a stop only waits for earlier
actions of other threads, and it waits for all of them. -/
structure WaitsFor (paths : RecordedPaths) (order : ExecPoint → ExecPoint → Bool)
    (pairs : List WaitPair) : Prop where
  earlier : ∀ wp ∈ pairs, paths.Action wp.stop ∧ paths.Action wp.wait ∧
    order wp.wait wp.stop = true ∧ wp.wait.tid ≠ wp.stop.tid
  covers : ∀ e f, paths.Action e → paths.Action f → order f e = true → f.tid ≠ e.tid →
    ∃ wp ∈ pairs, wp.stop = e ∧ wp.wait.tid = f.tid ∧ (f = wp.wait ∨ order f wp.wait = true)
  sorted : pairs.Pairwise fun wp wp' => wp.stop = wp'.stop ∨ order wp.stop wp'.stop = true

/-- Everything earlier than an action that has been taken has been taken. -/
structure DoneOk (paths : RecordedPaths) (order : ExecPoint → ExecPoint → Bool)
    (done : List ExecPoint) : Prop where
  action : ∀ f ∈ done, paths.Action f
  closed : ∀ f g, paths.Action f → g ∈ done → order f g = true → f ∈ done

theorem RoundOk.mem_of_earlier {done : List ExecPoint} {first f : ExecPoint}
    {pairs : List WaitPair} (h : RoundOk paths order done first pairs)
    (horder : paths.OrderOk order) (hf : paths.Action f) (hlt : order f first = true) :
    f ∈ done := by
  by_contra hleft
  rcases h.earliest f hf hleft with rfl | hgt
  · simp [horder.irrefl f hf] at hlt
  · simp [horder.asymm h.action hf hgt] at hlt

theorem DoneOk.round {done : List ExecPoint} {first : ExecPoint} {pairs : List WaitPair}
    (hdone : DoneOk paths order done) (h : RoundOk paths order done first pairs)
    (horder : paths.OrderOk order) : DoneOk paths order (done ++ [first]) where
  action f hf := by
    rcases List.mem_append.mp hf with hf | hf
    · exact hdone.action f hf
    · exact List.mem_singleton.mp hf ▸ h.action
  closed f g hf hg hlt := by
    refine List.mem_append_left _ ?_
    rcases List.mem_append.mp hg with hg | hg
    · exact hdone.closed f g hf hg hlt
    · rw [List.mem_singleton.mp hg] at hlt
      exact h.mem_of_earlier horder hf hlt

theorem RoundOk.earlier {done : List ExecPoint} {first : ExecPoint} {pairs : List WaitPair}
    (h : RoundOk paths order done first pairs) (hdone : DoneOk paths order done)
    (horder : paths.OrderOk order) {wp : WaitPair} (hwp : wp ∈ pairs) :
    paths.Action wp.stop ∧ paths.Action wp.wait ∧ order wp.wait wp.stop = true ∧
      wp.wait.tid ≠ wp.stop.tid := by
  obtain ⟨hstop, hwait, hne⟩ := h.waits wp hwp
  have hact := hdone.action _ hwait
  refine ⟨hstop ▸ h.action, hact, ?_, hstop ▸ hne⟩
  rw [hstop]
  refine (horder.total _ _ hact h.action fun heq => hne (by rw [heq])).resolve_right fun hgt => ?_
  exact h.left (hdone.closed _ _ h.action hwait hgt)

theorem RoundsOk.later {done : List ExecPoint} {rs : List (ExecPoint × List WaitPair)}
    (h : RoundsOk paths order done rs) :
    ∀ wp ∈ rs.flatMap Prod.snd, paths.Action wp.stop ∧ wp.stop ∉ done := by
  induction h with
  | nil => simp
  | cons h _ ih =>
    intro wp hwp
    rw [List.flatMap_cons, List.mem_append] at hwp
    rcases hwp with hwp | hwp
    · rw [(h.waits wp hwp).1]
      exact ⟨h.action, h.left⟩
    · obtain ⟨haction, hleft⟩ := ih wp hwp
      exact ⟨haction, fun hmem => hleft (List.mem_append_left _ hmem)⟩

theorem RoundsOk.waitsFor {done : List ExecPoint} {rs : List (ExecPoint × List WaitPair)}
    (h : RoundsOk paths order done rs) (hdone : DoneOk paths order done)
    (horder : paths.OrderOk order) :
    (∀ wp ∈ rs.flatMap Prod.snd, paths.Action wp.stop ∧ paths.Action wp.wait ∧
      order wp.wait wp.stop = true ∧ wp.wait.tid ≠ wp.stop.tid) ∧
    (∀ e f, paths.Action e → e ∉ done → paths.Action f → order f e = true → f.tid ≠ e.tid →
      ∃ wp ∈ rs.flatMap Prod.snd, wp.stop = e ∧ wp.wait.tid = f.tid ∧
        (f = wp.wait ∨ order f wp.wait = true)) ∧
    (rs.flatMap Prod.snd).Pairwise fun wp wp' =>
      wp.stop = wp'.stop ∨ order wp.stop wp'.stop = true := by
  induction h with
  | nil h => exact ⟨by simp, fun e _ he hleft => absurd (h e he) hleft, by simp⟩
  | @cons done first pairs rs h hrest ih =>
    obtain ⟨hearlier, hcovers, hsorted⟩ := ih (hdone.round h horder)
    rw [List.flatMap_cons]
    refine ⟨fun wp hwp => ?_, fun e f he hleft hf hlt hne => ?_, ?_⟩
    · rcases List.mem_append.mp hwp with hwp | hwp
      · exact h.earlier hdone horder hwp
      · exact hearlier wp hwp
    · by_cases heq : e = first
      · subst heq
        obtain ⟨wp, hwp, hle⟩ := h.covers f (h.mem_of_earlier horder hf hlt) hne
        exact ⟨wp, List.mem_append_left _ hwp, (h.waits wp hwp).1, hle⟩
      · obtain ⟨wp, hwp, hle⟩ := hcovers e f he (by simp [hleft, heq]) hf hlt hne
        exact ⟨wp, List.mem_append_right _ hwp, hle⟩
    · refine List.pairwise_append.mpr ⟨?_, hsorted, fun wp hwp wp' hwp' => ?_⟩
      · exact List.pairwise_of_forall_mem_list fun wp hwp wp' hwp' =>
          .inl ((h.waits wp hwp).1.trans (h.waits wp' hwp').1.symm)
      · obtain ⟨haction, hleft⟩ := hrest.later wp' hwp'
        simp only [List.mem_append, List.mem_singleton, not_or] at hleft
        rw [(h.waits wp hwp).1]
        exact .inr ((h.earliest _ haction hleft.1).resolve_left hleft.2)

theorem buildSchedule_waitsFor (horder : paths.OrderOk order)
    (hcreators : paths.AfterCreators order) :
    WaitsFor paths order (buildSchedule paths order) := by
  obtain ⟨hearlier, hcovers, hsorted⟩ :=
    (roundsOk_scheduleRounds horder hcreators).waitsFor ⟨by simp, by simp⟩ horder
  exact ⟨hearlier, fun e f he => hcovers e f he (by simp), hsorted⟩

end ScheduleBuilder

end SatCheck
