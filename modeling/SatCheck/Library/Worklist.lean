import Mathlib.Logic.Function.Iterate
import Mathlib.Logic.Relation
import Mathlib.Order.WellFounded
/-!
# A depth-first worklist

The first entry of a list is visited and replaced by its successors.  Nothing remembers what
has been visited, so an entry is visited once for every way to it.
-/

namespace SatCheck.Worklist

structure State (A : Type*) where
  pending : List A
  visited : List A

variable {A : Type*} (succs : A → List A)

def step (w : State A) : State A :=
  match w.pending with
  | [] => w
  | a :: pending => ⟨succs a ++ pending, w.visited ++ [a]⟩

def run (n : Nat) (w : State A) : State A := (step succs)^[n] w

def start (a : A) : State A := ⟨[a], []⟩

variable {succs}

theorem run_succ (n : Nat) (w : State A) : run succs (n + 1) w = step succs (run succs n w) :=
  Function.iterate_succ_apply' _ _ _

theorem run_add (m n : Nat) (w : State A) :
    run succs (m + n) w = run succs m (run succs n w) :=
  Function.iterate_add_apply _ _ _ _

/-! ## Coverage -/

/-- An entry that is only followed by finitely many is left behind with all that can be
reached from it. -/
theorem exists_run_acc {a : A} (hacc : Acc (fun b a => b ∈ succs a) a) (pending visited : List A) :
    ∃ n added, run succs n ⟨a :: pending, visited⟩ = ⟨pending, visited ++ added⟩ ∧
      ∀ x, Relation.ReflTransGen (fun a b => b ∈ succs a) a x → x ∈ added := by
  induction hacc generalizing pending visited with
  | intro a _ ih =>
    have hall : ∀ (children pending visited : List A), (∀ b ∈ children, b ∈ succs a) →
        ∃ n added, run succs n ⟨children ++ pending, visited⟩ = ⟨pending, visited ++ added⟩ ∧
          ∀ b ∈ children, ∀ x, Relation.ReflTransGen (fun a b => b ∈ succs a) b x → x ∈ added := by
      intro children
      induction children with
      | nil => exact fun pending visited _ => ⟨0, [], by simp [run], by simp⟩
      | cons b children ihc =>
        intro pending visited hsub
        obtain ⟨n, added, hrun, hadded⟩ :=
          ih b (hsub b List.mem_cons_self) (children ++ pending) visited
        obtain ⟨n', added', hrun', hadded'⟩ := ihc pending (visited ++ added)
          fun c hc => hsub c (List.mem_cons_of_mem _ hc)
        refine ⟨n' + n, added ++ added', ?_, ?_⟩
        · rw [run_add, List.cons_append, hrun, hrun', List.append_assoc]
        · intro c hc x hx
          rcases List.mem_cons.mp hc with rfl | hc
          · exact List.mem_append_left _ (hadded x hx)
          · exact List.mem_append_right _ (hadded' c hc x hx)
    obtain ⟨n, added, hrun, hadded⟩ := hall (succs a) pending (visited ++ [a]) fun b hb => hb
    refine ⟨n + 1, a :: added, ?_, ?_⟩
    · rw [run_add]
      simpa [run, step] using hrun
    · intro x hx
      rcases Relation.ReflTransGen.cases_head hx with rfl | ⟨b, hb, hx⟩
      · exact List.mem_cons_self
      · exact List.mem_cons_of_mem _ (hadded b hb x hx)

/-- The list runs empty, and then all that can be reached has been visited. -/
theorem exists_run_nil {a : A} (hacc : Acc (fun b a => b ∈ succs a) a) :
    ∃ n, (run succs n (start a)).pending = [] ∧
      ∀ x, Relation.ReflTransGen (fun a b => b ∈ succs a) a x →
        x ∈ (run succs n (start a)).visited := by
  obtain ⟨n, added, hrun, hadded⟩ := exists_run_acc hacc [] []
  refine ⟨n, ?_, ?_⟩
  · rw [start, hrun]
  · rw [start, hrun, List.nil_append]
    exact hadded

/-- What the list has and has visited is what it started with, or follows on something visited. -/
theorem reachable_run (a : A) (n : Nat) : ∀ x, x ∈ (run succs n (start a)).visited ∨
    x ∈ (run succs n (start a)).pending → Relation.ReflTransGen (fun a b => b ∈ succs a) a x := by
  induction n with
  | zero =>
    intro x hx
    obtain rfl : x = a := by simpa [run, start] using hx
    exact .refl
  | succ n ih =>
    rw [run_succ]
    cases hpending : (run succs n (start a)).pending with
    | nil => simpa [step, hpending] using ih
    | cons b pending =>
      have hb := ih b (.inr (by simp [hpending]))
      intro x hx
      simp only [step, hpending, List.mem_append, List.mem_singleton] at hx
      rcases hx with (hx | rfl) | hx | hx
      · exact ih x (.inl hx)
      · exact hb
      · exact hb.tail hx
      · exact ih x (.inr (by simp [hpending, hx]))

theorem closed_run (succs : A → List A) (a : A) (n : Nat) :
    (a ∈ (run succs n (start a)).visited ∨ a ∈ (run succs n (start a)).pending) ∧
      ∀ x ∈ (run succs n (start a)).visited, ∀ y ∈ succs x,
        y ∈ (run succs n (start a)).visited ∨ y ∈ (run succs n (start a)).pending := by
  induction n with
  | zero => simp [run, start]
  | succ n ih =>
    rw [run_succ]
    cases hpending : (run succs n (start a)).pending with
    | nil => simpa [step, hpending] using ih
    | cons b pending =>
      have hkept : ∀ y, y ∈ (run succs n (start a)).visited ∨
          y ∈ (run succs n (start a)).pending →
          y ∈ (run succs n (start a)).visited ++ [b] ∨ y ∈ succs b ++ pending := by
        intro y hy
        rw [hpending, List.mem_cons] at hy
        rcases hy with hy | rfl | hy
        · exact .inl (List.mem_append_left _ hy)
        · exact .inl (List.mem_append_right _ (List.mem_singleton_self y))
        · exact .inr (List.mem_append_right _ hy)
      simp only [step, hpending]
      refine ⟨hkept a ih.1, fun x hx y hy => ?_⟩
      rcases List.mem_append.mp hx with hx | hx
      · exact hkept y (ih.2 x hx y hy)
      · obtain rfl := List.mem_singleton.mp hx
        exact .inr (List.mem_append_left _ hy)

/-- When the list is empty, exactly what can be reached has been visited. -/
theorem visited_iff {a : A} {n : Nat} (h : (run succs n (start a)).pending = []) {x : A} :
    x ∈ (run succs n (start a)).visited ↔
      Relation.ReflTransGen (fun a b => b ∈ succs a) a x := by
  obtain ⟨hstart, hclosed⟩ := closed_run succs a n
  simp only [h, List.not_mem_nil, or_false] at hstart hclosed
  constructor
  · exact fun hx => reachable_run a n x (.inl hx)
  · intro hx
    induction hx with
    | refl => exact hstart
    | tail _ hy ih => exact hclosed _ ih _ hy

/-- Every visit of an entry comes from the start or from a visit that it follows on. -/
theorem perm_run (succs : A → List A) (a : A) (n : Nat) :
    ((run succs n (start a)).visited ++ (run succs n (start a)).pending).Perm
      (a :: (run succs n (start a)).visited.flatMap succs) := by
  induction n with
  | zero => exact List.Perm.refl _
  | succ n ih =>
    rw [run_succ]
    cases hpending : (run succs n (start a)).pending with
    | nil => simpa [step, hpending] using ih
    | cons b pending =>
      rw [hpending] at ih
      simp only [step, hpending, List.flatMap_append, List.flatMap_cons, List.flatMap_nil,
        List.append_nil]
      have hswap : ((run succs n (start a)).visited ++ [b] ++ (succs b ++ pending)).Perm
          ((run succs n (start a)).visited ++ b :: pending ++ succs b) := by
        simpa using List.Perm.append_left ((run succs n (start a)).visited ++ [b])
          List.perm_append_comm
      exact hswap.trans (List.Perm.append_right _ ih)

/-! ## The order of the visits -/

variable {valid : A → Prop} {region rel : A → A → Prop}

/-- The region of an entry is what may be visited from it: it has the regions of the
successors, they lie behind the entry and one behind the other. -/
structure Regions (succs : A → List A) (valid : A → Prop) (region rel : A → A → Prop) : Prop where
  kept : ∀ a, valid a → ∀ b ∈ succs a, valid b
  self : ∀ a, valid a → region a a
  sub : ∀ a, valid a → ∀ b ∈ succs a, ∀ y, region b y → region a y
  behind : ∀ a, valid a → ∀ b ∈ succs a, ∀ y, region b y → rel a y
  apart : ∀ a, valid a → (succs a).Pairwise fun b c => ∀ x y, region b x → region c y → rel x y

/-- The entries have been visited in order, and their order with all that may still come. -/
structure Ordered (valid : A → Prop) (region rel : A → A → Prop) (w : State A) : Prop where
  validPending : ∀ a ∈ w.pending, valid a
  validVisited : ∀ a ∈ w.visited, valid a
  visited : w.visited.Pairwise rel
  later : ∀ x ∈ w.visited, ∀ a ∈ w.pending, ∀ y, region a y → rel x y
  pending : w.pending.Pairwise fun a b => ∀ x y, region a x → region b y → rel x y

theorem Ordered.step {w : State A} (h : Ordered valid region rel w)
    (hregions : Regions succs valid region rel) : Ordered valid region rel (step succs w) := by
  obtain ⟨pending, visited⟩ := w
  cases pending with
  | nil => exact h
  | cons a pending =>
    have ha : valid a := h.validPending a List.mem_cons_self
    obtain ⟨hfirst, hpending⟩ := List.pairwise_cons.mp h.pending
    constructor
    · intro b hb
      rcases List.mem_append.mp hb with hb | hb
      · exact hregions.kept a ha b hb
      · exact h.validPending b (List.mem_cons_of_mem _ hb)
    · intro x hx
      rcases List.mem_append.mp hx with hx | hx
      · exact h.validVisited x hx
      · obtain rfl := List.mem_singleton.mp hx
        exact ha
    · refine List.pairwise_append.mpr ⟨h.visited, List.pairwise_singleton _ _, ?_⟩
      intro x hx y hy
      obtain rfl := List.mem_singleton.mp hy
      exact h.later x hx y List.mem_cons_self y (hregions.self y ha)
    · intro x hx b hb y hy
      rcases List.mem_append.mp hx with hx | hx
      · rcases List.mem_append.mp hb with hb | hb
        · exact h.later x hx a List.mem_cons_self y (hregions.sub a ha b hb y hy)
        · exact h.later x hx b (List.mem_cons_of_mem _ hb) y hy
      · obtain rfl := List.mem_singleton.mp hx
        rcases List.mem_append.mp hb with hb | hb
        · exact hregions.behind x ha b hb y hy
        · exact hfirst b hb x y (hregions.self x ha) hy
    · refine List.pairwise_append.mpr ⟨hregions.apart a ha, hpending, ?_⟩
      intro b hb c hc x y hx hy
      exact hfirst c hc x y (hregions.sub a ha b hb x hx) hy

theorem ordered_run (hregions : Regions succs valid region rel) {a : A} (ha : valid a) (n : Nat) :
    Ordered valid region rel (run succs n (start a)) := by
  induction n with
  | zero => exact ⟨by simpa [run, start], by simp [run, start], by simp [run, start],
      by simp [run, start], by simp [run, start]⟩
  | succ n ih =>
    rw [run_succ]
    exact ih.step hregions

/-! ## Entries taken in any order -/

/-- Entries are taken from a state in any order.  An entry stays, or it has been seen, if it is due,
and all that follows on it is there. -/
structure Advances {S A M : Type*} [LT M] (step : S → S) (valid : S → Prop)
    (holds seen : S → A → Prop) (follows : A → A → Prop) (due : A → Prop) (measure : S → M) :
    Prop where
  kept : ∀ s, valid s → valid (step s)
  stays : ∀ s, valid s → ∀ a, holds s a → holds (step s) a ∨
    (due a → seen (step s) a) ∧ ∀ b, follows a b → holds (step s) b
  lt : ∀ s, valid s → ∀ a, holds s a → measure (step s) < measure s

/-- What follows on an entry, directly or not, is seen at some time. -/
theorem Advances.exists_seen {S A M : Type*} [LT M] [WellFoundedLT M] {step : S → S}
    {valid : S → Prop} {holds seen : S → A → Prop} {follows : A → A → Prop} {due : A → Prop}
    {measure : S → M} (h : Advances step valid holds seen follows due measure) {s : S}
    (hs : valid s) {a b : A} (ha : holds s a) (hb : Relation.ReflTransGen follows a b)
    (hdue : due b) : ∃ n, seen (step^[n] s) b := by
  induction hm : measure s using WellFoundedLT.induction generalizing s a with
  | ind m ih =>
    subst hm
    have hgo : ∀ c, holds (step s) c → Relation.ReflTransGen follows c b →
        ∃ n, seen (step^[n] s) b := by
      intro c hc hcb
      obtain ⟨n, hn⟩ := ih _ (h.lt s hs a ha) (h.kept s hs) hc hcb rfl
      exact ⟨n + 1, hn⟩
    rcases h.stays s hs a ha with hstays | ⟨hseen, hfollows⟩
    · exact hgo a hstays hb
    · rcases Relation.ReflTransGen.cases_head hb with rfl | ⟨c, hc, hcb⟩
      · exact ⟨1, hseen hdue⟩
      · exact hgo c (hfollows c hc) hcb

/-- Nothing comes into a state but what follows on its entries, and nothing else is seen. -/
structure ComesFrom {S A : Type*} (step : S → S) (valid : S → Prop) (holds seen : S → A → Prop)
    (follows : A → A → Prop) : Prop where
  kept : ∀ s, valid s → valid (step s)
  comes : ∀ s, valid s → ∀ b, holds (step s) b → holds s b ∨ ∃ a, holds s a ∧ follows a b
  sees : ∀ s, valid s → ∀ b, seen (step s) b → seen s b ∨ holds s b

/-- What is seen at some time follows on the entry that was there first. -/
theorem ComesFrom.reaches {S A : Type*} {step : S → S} {valid : S → Prop}
    {holds seen : S → A → Prop} {follows : A → A → Prop}
    (h : ComesFrom step valid holds seen follows) {s : S} (hs : valid s) {a : A}
    (hfirst : ∀ b, holds s b ∨ seen s b → b = a) (n : Nat) :
    ∀ b, holds (step^[n] s) b ∨ seen (step^[n] s) b → Relation.ReflTransGen follows a b := by
  have hrun : valid (step^[n] s) ∧
      ∀ b, holds (step^[n] s) b ∨ seen (step^[n] s) b → Relation.ReflTransGen follows a b := by
    induction n with
    | zero =>
      refine ⟨hs, fun b hb => ?_⟩
      rw [hfirst b hb]
    | succ n ih =>
      obtain ⟨hvalid, hreach⟩ := ih
      rw [Function.iterate_succ_apply']
      refine ⟨h.kept _ hvalid, fun b hb => ?_⟩
      rcases hb with hb | hb
      · rcases h.comes _ hvalid b hb with hb | ⟨c, hc, hcb⟩
        · exact hreach b (.inl hb)
        · exact (hreach c (.inl hc)).tail hcb
      · exact hreach b (h.sees _ hvalid b hb).symm
  exact hrun.2

end SatCheck.Worklist
