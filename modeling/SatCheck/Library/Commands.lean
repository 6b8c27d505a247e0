import Mathlib.Data.List.Basic
/-!
# Commands that emit labels

A command of a structured language takes a state to a state, emits labels on the way, and ends in
one of the ways a block of C code ends.  A monitor reads the labels, and a specification relates
its state and that of the command before and after.
-/

/-- How a command ends; a stopped one is not continued. -/
inductive Outcome where
  | done
  | broken
  | continued
  | returned
  | stopped
  deriving DecidableEq, Repr

/-- The states, labels and outcomes of the runs of a command. -/
abbrev Command (σ α : Type*) := σ → List α → σ → Outcome → Prop

namespace Command

variable {σ α κ : Type*}

def leave (o : Outcome) : Command σ α := fun s out s' o' => s' = s ∧ out = [] ∧ o' = o

def skip : Command σ α := leave .done

def emit (label : σ → α) (next : σ → σ) : Command σ α := fun s out s' o =>
  out = [label s] ∧ s' = next s ∧ o = .done

def seq (c₁ c₂ : Command σ α) : Command σ α := fun s out s' o =>
  (o ≠ .done ∧ c₁ s out s' o) ∨
    ∃ out₁ s₁ out₂, c₁ s out₁ s₁ .done ∧ c₂ s₁ out₂ s' o ∧ out = out₁ ++ out₂

def either (c₁ c₂ : Command σ α) : Command σ α := fun s out s' o => c₁ s out s' o ∨ c₂ s out s' o

/-- The command may also be stopped in front. -/
def stoppable (c : Command σ α) : Command σ α := either (leave .stopped) c

/-- Any number of rounds of the body. -/
inductive Loop (body : Command σ α) : Command σ α
  | exit {s : σ} : Loop body s [] s .done
  | again {s s₁ s' : σ} {out out' : List α} {o₁ o : Outcome} (hbody : body s out s₁ o₁)
      (hgoes : o₁ = .done ∨ o₁ = .continued) (hrest : Loop body s₁ out' s' o) :
      Loop body s (out ++ out') s' o
  | breaks {s s' : σ} {out : List α} (hbody : body s out s' .broken) : Loop body s out s' .done
  | leaves {s s' : σ} {out : List α} {o : Outcome} (hbody : body s out s' o)
      (hleaves : o = .returned ∨ o = .stopped) : Loop body s out s' o

/-- A call runs its body from a state of its own; `back` takes the caller on. -/
def call (enter : σ → σ) (back : σ → σ → σ) (body : Command σ α) : Command σ α :=
  fun s out s' o => ∃ s₁ o₁, body (enter s) out s₁ o₁ ∧ s' = back s s₁ ∧
    ((o₁ = .done ∨ o₁ = .returned) ∧ o = .done ∨ o₁ = .stopped ∧ o = .stopped)

/-! ## Regrouping -/

theorem leave_seq {o : Outcome} (ho : o ≠ .done) (c : Command σ α) :
    seq (leave o) c = leave o := by
  funext s out s' o'
  apply propext
  constructor
  · rintro (⟨-, hleave⟩ | ⟨_, _, _, ⟨-, -, rfl⟩, -⟩)
    · exact hleave
    · exact absurd rfl ho
  · rintro ⟨rfl, rfl, rfl⟩
    exact .inl ⟨ho, rfl, rfl, rfl⟩

theorem skip_seq (c : Command σ α) : seq skip c = c := by
  funext s out s' o
  apply propext
  constructor
  · rintro (⟨ho, -, -, rfl⟩ | ⟨_, _, _, ⟨rfl, rfl, -⟩, hc, rfl⟩)
    · exact absurd rfl ho
    · exact hc
  · intro hc
    exact .inr ⟨[], s, out, ⟨rfl, rfl, rfl⟩, hc, rfl⟩

theorem seq_assoc (c₁ c₂ c₃ : Command σ α) : seq (seq c₁ c₂) c₃ = seq c₁ (seq c₂ c₃) := by
  funext s out s' o
  apply propext
  constructor
  · rintro (⟨ho, ⟨-, hc₁⟩ | ⟨out₁, s₁, out₂, hc₁, hc₂, rfl⟩⟩ |
      ⟨_, s₂, out₃, ⟨ho, -⟩ | ⟨out₁, s₁, out₂, hc₁, hc₂, rfl⟩, hc₃, rfl⟩)
    · exact .inl ⟨ho, hc₁⟩
    · exact .inr ⟨out₁, s₁, out₂, hc₁, .inl ⟨ho, hc₂⟩, rfl⟩
    · exact absurd rfl ho
    · exact .inr ⟨out₁, s₁, out₂ ++ out₃, hc₁, .inr ⟨out₂, s₂, out₃, hc₂, hc₃, rfl⟩, by simp⟩
  · rintro (⟨ho, hc₁⟩ | ⟨out₁, s₁, _, hc₁, ⟨ho, hc₂⟩ | ⟨out₂, s₂, out₃, hc₂, hc₃, rfl⟩, rfl⟩)
    · exact .inl ⟨ho, .inl ⟨ho, hc₁⟩⟩
    · exact .inl ⟨ho, .inr ⟨out₁, s₁, _, hc₁, hc₂, rfl⟩⟩
    · exact .inr ⟨out₁ ++ out₂, s₂, out₃, .inr ⟨out₁, s₁, out₂, hc₁, hc₂, rfl⟩, hc₃, by simp⟩

theorem either_seq (c₁ c₂ c : Command σ α) :
    seq (either c₁ c₂) c = either (seq c₁ c) (seq c₂ c) := by
  funext s out s' o
  apply propext
  constructor
  · rintro (⟨ho, hc | hc⟩ | ⟨out₁, s₁, out₂, hc | hc, hrest⟩)
    · exact .inl (.inl ⟨ho, hc⟩)
    · exact .inr (.inl ⟨ho, hc⟩)
    · exact .inl (.inr ⟨out₁, s₁, out₂, hc, hrest⟩)
    · exact .inr (.inr ⟨out₁, s₁, out₂, hc, hrest⟩)
  · rintro ((⟨ho, hc⟩ | ⟨out₁, s₁, out₂, hc, hrest⟩) | (⟨ho, hc⟩ | ⟨out₁, s₁, out₂, hc, hrest⟩))
    · exact .inl ⟨ho, .inl hc⟩
    · exact .inr ⟨out₁, s₁, out₂, .inl hc, hrest⟩
    · exact .inl ⟨ho, .inr hc⟩
    · exact .inr ⟨out₁, s₁, out₂, .inr hc, hrest⟩

theorem stoppable_seq (c₁ c₂ : Command σ α) :
    seq (stoppable c₁) c₂ = stoppable (seq c₁ c₂) := by
  rw [stoppable, either_seq, leave_seq (by simp)]
  rfl

theorem stoppable_stoppable (c : Command σ α) : stoppable (stoppable c) = stoppable c := by
  funext s out s' o
  apply propext
  constructor
  · rintro (hstop | hc)
    · exact .inl hstop
    · exact hc
  · exact .inr

/-- The command may stop where it begins and where it is done. -/
structure Interruptible (c : Command σ α) : Prop where
  front : ∀ s, c s [] s .stopped
  back : ∀ s out s', c s out s' .done → c s out s' .stopped

theorem Interruptible.skip : Interruptible (stoppable skip : Command σ α) where
  front _ := .inl ⟨rfl, rfl, rfl⟩
  back := by
    rintro s out s' (⟨-, -, h⟩ | ⟨rfl, rfl, -⟩)
    · cases h
    · exact .inl ⟨rfl, rfl, rfl⟩

theorem Interruptible.leave {o : Outcome} (ho : o ≠ .done) :
    Interruptible (stoppable (leave o) : Command σ α) where
  front _ := .inl ⟨rfl, rfl, rfl⟩
  back := by
    rintro s out s' (⟨-, -, h⟩ | ⟨-, -, rfl⟩)
    · cases h
    · exact absurd rfl ho

theorem Interruptible.seq (c₁ : Command σ α) {c₂ : Command σ α} (h : Interruptible c₂) :
    Interruptible (stoppable (seq c₁ c₂)) where
  front _ := .inl ⟨rfl, rfl, rfl⟩
  back := by
    rintro s out s' (⟨-, -, hdone⟩ | ⟨hdone, -⟩ | ⟨out₁, s₁, out₂, hc₁, hc₂, rfl⟩)
    · cases hdone
    · exact absurd rfl hdone
    · exact .inr (.inr ⟨out₁, s₁, out₂, hc₁, h.back s₁ out₂ s' hc₂, rfl⟩)

/-! ## Monitors -/

/-- What reads the labels, and which ones it allows. -/
structure Monitor (κ α : Type*) where
  legal : κ → α → Prop
  move : κ → α → κ

namespace Monitor

variable (m : Monitor κ α)

def after (k : κ) (out : List α) : κ := out.foldl m.move k

/-- Every label is legal where it is emitted. -/
def Accepts : κ → List α → Prop
  | _, [] => True
  | k, label :: out => m.legal k label ∧ Accepts (m.move k label) out

@[simp] theorem after_nil (k : κ) : m.after k [] = k := rfl

@[simp] theorem after_cons (k : κ) (label : α) (out : List α) :
    m.after k (label :: out) = m.after (m.move k label) out := rfl

theorem after_append (k : κ) (out out' : List α) :
    m.after k (out ++ out') = m.after (m.after k out) out' := by
  simp [after]

theorem accepts_append {k : κ} {out out' : List α} :
    m.Accepts k (out ++ out') ↔ m.Accepts k out ∧ m.Accepts (m.after k out) out' := by
  induction out generalizing k with
  | nil => simp [Accepts]
  | cons label out ih => simp [Accepts, ih, and_assoc]

end Monitor

/-! ## Specifications -/

/-- From every state with `pre` the labels are legal, and `spec` relates the states of the monitor
and the command before and after. -/
def Meets (m : Monitor κ α) (pre : κ → σ → Prop) (c : Command σ α)
    (spec : Outcome → κ → σ → κ → σ → Prop) : Prop :=
  ∀ k s, pre k s → ∀ out s' o, c s out s' o →
    m.Accepts k out ∧ spec o k s (m.after k out) s'

namespace Meets

variable {m : Monitor κ α} {pre pre₁ : κ → σ → Prop} {c c₁ c₂ : Command σ α}
  {spec spec₁ spec₂ : Outcome → κ → σ → κ → σ → Prop}

theorem imp (h : Meets m pre₁ c spec₁) (hpre : ∀ k s, pre k s → pre₁ k s)
    (hspec : ∀ o k s k' s', pre k s → spec₁ o k s k' s' → spec o k s k' s') :
    Meets m pre c spec := by
  intro k s hk out s' o hc
  obtain ⟨haccepts, hafter⟩ := h k s (hpre k s hk) out s' o hc
  exact ⟨haccepts, hspec o k s _ s' hk hafter⟩

theorem leave {o : Outcome} (h : ∀ k s, pre k s → spec o k s k s) :
    Meets m pre (leave o) spec := by
  rintro k s hk out s' o' ⟨rfl, rfl, rfl⟩
  exact ⟨trivial, h k s' hk⟩

theorem emit {label : σ → α} {next : σ → σ} (hlegal : ∀ k s, pre k s → m.legal k (label s))
    (h : ∀ k s, pre k s → spec .done k s (m.move k (label s)) (next s)) :
    Meets m pre (emit label next) spec := by
  rintro k s hk out s' o ⟨rfl, rfl, rfl⟩
  exact ⟨⟨hlegal k s hk, trivial⟩, h k s hk⟩

theorem either (h₁ : Meets m pre c₁ spec) (h₂ : Meets m pre c₂ spec) :
    Meets m pre (either c₁ c₂) spec := by
  rintro k s hk out s' o (hc | hc)
  · exact h₁ k s hk out s' o hc
  · exact h₂ k s hk out s' o hc

theorem stoppable (h : Meets m pre c spec) (hstop : ∀ k s, pre k s → spec .stopped k s k s) :
    Meets m pre (stoppable c) spec :=
  .either (.leave hstop) h

/-- The second command may use all that the first one says of where it began. -/
theorem seq (h₁ : Meets m pre c₁ spec₁)
    (h₂ : ∀ k s, pre k s → Meets m (spec₁ .done k s) c₂ fun o _ _ => spec o k s)
    (hleaves : ∀ o k s k' s', o ≠ .done → pre k s → spec₁ o k s k' s' → spec o k s k' s') :
    Meets m pre (seq c₁ c₂) spec := by
  rintro k s hk out s' o (⟨ho, hc⟩ | ⟨out₁, s₁, out₂, hc₁, hc₂, rfl⟩)
  · obtain ⟨haccepts, hspec⟩ := h₁ k s hk out s' o hc
    exact ⟨haccepts, hleaves o k s _ s' ho hk hspec⟩
  · obtain ⟨haccepts₁, hspec₁⟩ := h₁ k s hk out₁ s₁ .done hc₁
    obtain ⟨haccepts₂, hspec₂⟩ := h₂ k s hk _ s₁ hspec₁ out₂ s' o hc₂
    rw [m.accepts_append, m.after_append]
    exact ⟨⟨haccepts₁, haccepts₂⟩, hspec₂⟩

/-- One round is related to the rounds behind it. -/
theorem loop (h : Meets m pre c spec₁) (hexit : ∀ k s, pre k s → spec .done k s k s)
    (hmid : ∀ o k s k₁ s₁, o = .done ∨ o = .continued → pre k s → spec₁ o k s k₁ s₁ → pre k₁ s₁)
    (hagain : ∀ o₁ o k s k₁ s₁ k' s', o₁ = .done ∨ o₁ = .continued → pre k s →
      spec₁ o₁ k s k₁ s₁ → spec o k₁ s₁ k' s' → spec o k s k' s')
    (hbreaks : ∀ k s k' s', pre k s → spec₁ .broken k s k' s' → spec .done k s k' s')
    (hleaves : ∀ o k s k' s', o = .returned ∨ o = .stopped → pre k s → spec₁ o k s k' s' →
      spec o k s k' s') :
    Meets m pre (Loop c) spec := by
  intro k s hk out s' o hloop
  induction hloop generalizing k with
  | exit => exact ⟨trivial, hexit k _ hk⟩
  | again hbody hgoes _ ih =>
    obtain ⟨haccepts₁, hspec₁⟩ := h k _ hk _ _ _ hbody
    obtain ⟨haccepts₂, hspec₂⟩ := ih _ (hmid _ k _ _ _ hgoes hk hspec₁)
    rw [m.accepts_append, m.after_append]
    exact ⟨⟨haccepts₁, haccepts₂⟩, hagain _ _ k _ _ _ _ _ hgoes hk hspec₁ hspec₂⟩
  | breaks hbody =>
    obtain ⟨haccepts, hspec⟩ := h k _ hk _ _ _ hbody
    exact ⟨haccepts, hbreaks k _ _ _ hk hspec⟩
  | leaves hbody hleft =>
    obtain ⟨haccepts, hspec⟩ := h k _ hk _ _ _ hbody
    exact ⟨haccepts, hleaves _ k _ _ _ hleft hk hspec⟩

theorem call {enter : σ → σ} {back : σ → σ → σ} (h : Meets m pre₁ c spec₁)
    (henter : ∀ k s, pre k s → pre₁ k (enter s))
    (hdone : ∀ o k s k' s', o = .done ∨ o = .returned → pre k s → spec₁ o k (enter s) k' s' →
      spec .done k s k' (back s s'))
    (hstopped : ∀ k s k' s', pre k s → spec₁ .stopped k (enter s) k' s' →
      spec .stopped k s k' (back s s')) :
    Meets m pre (call enter back c) spec := by
  rintro k s hk out s' o ⟨s₁, o₁, hbody, rfl, ho⟩
  obtain ⟨haccepts, hspec⟩ := h k _ (henter k s hk) out s₁ o₁ hbody
  refine ⟨haccepts, ?_⟩
  rcases ho with ⟨ho₁, rfl⟩ | ⟨rfl, rfl⟩
  · exact hdone o₁ k s _ s₁ ho₁ hk hspec
  · exact hstopped k s _ s₁ hk hspec

end Meets

/-! ## The labels that are kept -/

/-- From any two states the commands emit the same kept labels and end in the same ways. -/
def SameTraces (keep : α → Bool) (c c' : Command σ α) : Prop :=
  ∀ (s s' : σ) (out : List α) (o : Outcome),
    (∃ out₁ s₁, c s out₁ s₁ o ∧ out₁.filter keep = out) ↔
      ∃ out₁ s₁, c' s' out₁ s₁ o ∧ out₁.filter keep = out

namespace SameTraces

variable {keep : α → Bool} {c c' c₁ c₂ c₁' c₂' : Command σ α}

theorem symm (h : SameTraces keep c c') : SameTraces keep c' c := fun s s' out o =>
  (h s' s out o).symm

theorem trans {c'' : Command σ α} (h : SameTraces keep c c') (h' : SameTraces keep c' c'') :
    SameTraces keep c c'' := fun s s' out o =>
  (h s s out o).trans (h' s s' out o)

/-- One half of the relation. -/
def Covers (keep : α → Bool) (c c' : Command σ α) : Prop :=
  ∀ (s s' : σ) (out : List α) (o : Outcome) (s₁ : σ), c s out s₁ o →
    ∃ out' s₁', c' s' out' s₁' o ∧ out'.filter keep = out.filter keep

theorem covers (h : SameTraces keep c c') : Covers keep c c' := by
  intro s s' out o s₁ hc
  exact (h s s' _ o).mp ⟨out, s₁, hc, rfl⟩

theorem of_covers (h : Covers keep c c') (h' : Covers keep c' c) : SameTraces keep c c' := by
  intro s s' out o
  constructor
  · rintro ⟨out₁, s₁, hc, rfl⟩
    exact h s s' out₁ o s₁ hc
  · rintro ⟨out₁, s₁, hc, rfl⟩
    exact h' s' s out₁ o s₁ hc

theorem leave (o : Outcome) : SameTraces keep (leave o : Command σ α) (Command.leave o) := by
  apply of_covers
  all_goals
    rintro s s' out o' s₁ ⟨rfl, rfl, rfl⟩
    exact ⟨[], s', ⟨rfl, rfl, rfl⟩, rfl⟩

/-- A label that does not depend on the state. -/
theorem emit (label : α) (next next' : σ → σ) :
    SameTraces keep (emit (fun _ => label) next) (Command.emit (fun _ => label) next') := by
  apply of_covers
  all_goals
    rintro s s' out o s₁ ⟨rfl, rfl, rfl⟩
    exact ⟨[label], _, ⟨rfl, rfl, rfl⟩, rfl⟩

/-- A label that is not kept. -/
theorem emit_skip {label : σ → α} {next : σ → σ} (h : ∀ s, keep (label s) = false) :
    SameTraces keep (Command.emit label next) skip := by
  apply of_covers
  · rintro s s' out o s₁ ⟨rfl, rfl, rfl⟩
    exact ⟨[], s', ⟨rfl, rfl, rfl⟩, by simp [h s]⟩
  · rintro s s' out o s₁ ⟨rfl, rfl, rfl⟩
    exact ⟨[label s'], next s', ⟨rfl, rfl, rfl⟩, by simp [h s']⟩

theorem either (h₁ : SameTraces keep c₁ c₁') (h₂ : SameTraces keep c₂ c₂') :
    SameTraces keep (either c₁ c₂) (Command.either c₁' c₂') := by
  have hhalf : ∀ {c₁ c₂ c₁' c₂' : Command σ α}, Covers keep c₁ c₁' → Covers keep c₂ c₂' →
      Covers keep (Command.either c₁ c₂) (Command.either c₁' c₂') := by
    rintro c₁ c₂ c₁' c₂' h₁ h₂ s s' out o s₁ (hc | hc)
    · obtain ⟨out', s₁', hc', hout⟩ := h₁ s s' out o s₁ hc
      exact ⟨out', s₁', .inl hc', hout⟩
    · obtain ⟨out', s₁', hc', hout⟩ := h₂ s s' out o s₁ hc
      exact ⟨out', s₁', .inr hc', hout⟩
  exact of_covers (hhalf h₁.covers h₂.covers) (hhalf h₁.symm.covers h₂.symm.covers)

theorem stoppable (h : SameTraces keep c c') :
    SameTraces keep (stoppable c) (Command.stoppable c') :=
  .either (.leave .stopped) h

theorem seq (h₁ : SameTraces keep c₁ c₁') (h₂ : SameTraces keep c₂ c₂') :
    SameTraces keep (seq c₁ c₂) (Command.seq c₁' c₂') := by
  have hhalf : ∀ {c₁ c₂ c₁' c₂' : Command σ α}, Covers keep c₁ c₁' → Covers keep c₂ c₂' →
      Covers keep (Command.seq c₁ c₂) (Command.seq c₁' c₂') := by
    rintro c₁ c₂ c₁' c₂' h₁ h₂ s s' out o s₂ (⟨ho, hc⟩ | ⟨out₁, s₁, out₂, hc₁, hc₂, rfl⟩)
    · obtain ⟨out', s₁', hc', hout⟩ := h₁ s s' out o s₂ hc
      exact ⟨out', s₁', .inl ⟨ho, hc'⟩, hout⟩
    · obtain ⟨out₁', s₁', hc₁', hout₁⟩ := h₁ s s' out₁ .done s₁ hc₁
      obtain ⟨out₂', s₂', hc₂', hout₂⟩ := h₂ s₁ s₁' out₂ o s₂ hc₂
      refine ⟨out₁' ++ out₂', s₂', .inr ⟨out₁', s₁', out₂', hc₁', hc₂', rfl⟩, ?_⟩
      rw [List.filter_append, List.filter_append, hout₁, hout₂]
  exact of_covers (hhalf h₁.covers h₂.covers) (hhalf h₁.symm.covers h₂.symm.covers)

theorem loop (h : SameTraces keep c c') : SameTraces keep (Loop c) (Loop c') := by
  have hhalf : ∀ {c c' : Command σ α}, Covers keep c c' → Covers keep (Loop c) (Loop c') := by
    intro c c' h s s' out o s₁ hloop
    induction hloop generalizing s' with
    | exit => exact ⟨[], s', .exit, rfl⟩
    | again hbody hgoes _ ih =>
      obtain ⟨out₁, s₂, hc', hout₁⟩ := h _ s' _ _ _ hbody
      obtain ⟨out₂, s₃, hrest, hout₂⟩ := ih s₂
      refine ⟨out₁ ++ out₂, s₃, .again hc' hgoes hrest, ?_⟩
      rw [List.filter_append, List.filter_append, hout₁, hout₂]
    | breaks hbody =>
      obtain ⟨out₁, s₂, hc', hout₁⟩ := h _ s' _ _ _ hbody
      exact ⟨out₁, s₂, .breaks hc', hout₁⟩
    | leaves hbody hleaves =>
      obtain ⟨out₁, s₂, hc', hout₁⟩ := h _ s' _ _ _ hbody
      exact ⟨out₁, s₂, .leaves hc' hleaves, hout₁⟩
  exact of_covers (hhalf h.covers) (hhalf h.symm.covers)

theorem call {enter : σ → σ} {back : σ → σ → σ} (h : SameTraces keep c c') :
    SameTraces keep (call enter back c) (Command.call enter back c') := by
  have hhalf : ∀ {c c' : Command σ α}, Covers keep c c' →
      Covers keep (Command.call enter back c) (Command.call enter back c') := by
    rintro c c' h s s' out o s₂ ⟨s₁, o₁, hbody, rfl, ho⟩
    obtain ⟨out', s₁', hc', hout⟩ := h _ (enter s') out o₁ s₁ hbody
    exact ⟨out', back s' s₁', ⟨s₁', o₁, hc', rfl, ho⟩, hout⟩
  exact of_covers (hhalf h.covers) (hhalf h.symm.covers)

/-- A command in front that emits nothing. -/
theorem hidden_seq (h₁ : SameTraces keep c₁ skip) (h : SameTraces keep c c') :
    SameTraces keep (Command.seq c₁ c) c' := by
  have hboth := h₁.seq h
  rwa [Command.skip_seq] at hboth

/-- A stop that the command has anyway. -/
theorem stop_of_front (h : SameTraces keep c c') (hfront : ∀ s, c' s [] s .stopped) :
    SameTraces keep (Command.stoppable c) c' := by
  apply of_covers
  · rintro s s' out o s₁ (⟨rfl, rfl, rfl⟩ | hc)
    · exact ⟨[], s', hfront s', rfl⟩
    · exact h.covers s s' out o s₁ hc
  · intro s s' out o s₁ hc
    obtain ⟨out', s₁', hc', hout⟩ := h.symm.covers s s' out o s₁ hc
    exact ⟨out', s₁', .inr hc', hout⟩

/-- A stop behind a command that may stop there anyway. -/
theorem seq_stop (h : SameTraces keep c c') (hback : Interruptible c') :
    SameTraces keep (Command.seq c (Command.stoppable skip)) c' := by
  apply of_covers
  · rintro s s' out o s₂ (⟨-, hc⟩ | ⟨out₁, s₁, _, hc, ⟨rfl, rfl, rfl⟩ | ⟨rfl, rfl, rfl⟩, rfl⟩)
    · exact h.covers s s' out o s₂ hc
    · obtain ⟨out', s₁', hc', hout⟩ := h.covers s s' out₁ .done _ hc
      exact ⟨out', s₁', hback.back s' out' s₁' hc', by simp [hout]⟩
    · obtain ⟨out', s₁', hc', hout⟩ := h.covers s s' out₁ .done _ hc
      exact ⟨out', s₁', hc', by simp [hout]⟩
  · intro s s' out o s₂ hc
    obtain ⟨out', s₂', hc', hout⟩ := h.symm.covers s s' out o s₂ hc
    by_cases ho : o = .done
    · subst ho
      exact ⟨out', s₂', .inr ⟨out', s₂', [], hc', .inr ⟨rfl, rfl, rfl⟩, by simp⟩, hout⟩
    · exact ⟨out', s₂', .inl ⟨ho, hc'⟩, hout⟩

end SameTraces

end Command
