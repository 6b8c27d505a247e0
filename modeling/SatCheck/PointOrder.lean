import SatCheck.RunOrder
import SatCheck.ThreadCoverage
/-!
# The order of execution points

Points whose entries have the same types as long as the pairs below are equal are ordered by
`compare`.  The points of a recorded graph are such points.
-/

namespace SatCheck

def CompareResult.swap : CompareResult → CompareResult
  | .before => .after
  | .after => .before
  | .equals => .equals
  | .incomparable => .incomparable

namespace ExecPoint

theorem compareAsserts_cons {type type' : ExecPointType} {value value' : Nat}
    {ps qs : List (ExecPointType × Nat)} :
    compareAsserts ((type, value) :: ps) ((type', value') :: qs) = true ↔
      type = type' ∧ (value = value' → compareAsserts ps qs = true) := by
  by_cases hvalue : value = value' <;> simp [compareAsserts, hvalue]

theorem compareAsserts_nil_left (qs : List (ExecPointType × Nat)) :
    compareAsserts [] qs = true := by
  simp [compareAsserts]

theorem compareAsserts_nil_right (ps : List (ExecPointType × Nat)) :
    compareAsserts ps [] = true := by
  cases ps <;> rfl

private theorem comparePairs_cons_eq_before {type type' : ExecPointType} {value value' : Nat}
    {ps qs : List (ExecPointType × Nat)} :
    comparePairs ((type, value) :: ps) ((type', value') :: qs) = .before ↔
      (value = value' ∧ comparePairs ps qs = .before) ∨ (type ≠ .branch ∧ value' < value) := by
  by_cases heq : value = value'
  · subst heq
    simp [comparePairs]
  · rw [comparePairs_cons_of_ne heq]
    split_ifs with hbranch hlt
    · simp [heq, hbranch]
    · simp [heq, show ¬ value' < value by omega]
    · simp [heq, hbranch, show value' < value by omega]

theorem comparePairs_before_trans {as bs cs : List (ExecPointType × Nat)}
    (htypes : compareAsserts as bs = true) (hab : comparePairs as bs = .before)
    (hbc : comparePairs bs cs = .before) :
    comparePairs as cs = .before := by
  induction as generalizing bs cs with
  | nil => cases bs <;> simp [comparePairs] at hab
  | cons a as ih =>
    cases cs with
    | nil => rfl
    | cons c cs =>
      cases bs with
      | nil => simp [comparePairs] at hbc
      | cons b bs =>
        obtain ⟨type, value⟩ := a
        obtain ⟨type', value'⟩ := b
        obtain ⟨type'', value''⟩ := c
        rw [compareAsserts_cons] at htypes
        cases htypes.1
        rw [comparePairs_cons_eq_before] at hab hbc ⊢
        rcases hab with ⟨rfl, hab⟩ | ⟨hbranch, hlt⟩
        · cases hbc with
          | inl hbc => exact Or.inl ⟨hbc.1, ih (htypes.2 rfl) hab hbc.2⟩
          | inr hbc => exact Or.inr hbc
        · right
          refine ⟨hbranch, ?_⟩
          rcases hbc with ⟨rfl, -⟩ | ⟨-, hlt'⟩
          · exact hlt
          · omega

theorem comparePairs_swap {ps qs : List (ExecPointType × Nat)}
    (h : compareAsserts ps qs = true) : comparePairs qs ps = (comparePairs ps qs).swap := by
  induction ps generalizing qs with
  | nil => cases qs <;> rfl
  | cons p ps ih =>
    cases qs with
    | nil => rfl
    | cons q qs =>
      obtain ⟨type, value⟩ := p
      obtain ⟨type', value'⟩ := q
      obtain ⟨rfl, hrest⟩ := compareAsserts_cons.mp h
      by_cases heq : value = value'
      · subst heq
        simpa [comparePairs] using ih (hrest rfl)
      · rw [comparePairs_cons_of_ne heq, comparePairs_cons_of_ne (Ne.symm heq)]
        split_ifs with hbranch hlt hlt'
        · rfl
        · omega
        · rfl
        · rfl
        · omega

theorem comparePairs_eq_equals_iff {ps qs : List (ExecPointType × Nat)}
    (h : compareAsserts ps qs = true) : comparePairs ps qs = .equals ↔ ps = qs := by
  induction ps generalizing qs with
  | nil => cases qs <;> simp [comparePairs]
  | cons p ps ih =>
    cases qs with
    | nil => simp [comparePairs]
    | cons q qs =>
      obtain ⟨type, value⟩ := p
      obtain ⟨type', value'⟩ := q
      obtain ⟨rfl, hrest⟩ := compareAsserts_cons.mp h
      by_cases heq : value = value'
      · subst heq
        simp [comparePairs, ih (hrest rfl)]
      · rw [comparePairs_cons_of_ne heq]
        split_ifs <;> simp [heq]

/-- The first pairs in which two stacks differ are entries of a branch. -/
def PartAtBranch (ps qs : List (ExecPointType × Nat)) : Prop :=
  ∃ i v v', ps.take i = qs.take i ∧ ps[i]? = some (.branch, v) ∧ qs[i]? = some (.branch, v') ∧
    v ≠ v'

private theorem partAtBranch_cons {p q : ExecPointType × Nat} {ps qs : List (ExecPointType × Nat)} :
    PartAtBranch (p :: ps) (q :: qs) ↔
      (∃ v v', p = (.branch, v) ∧ q = (.branch, v') ∧ v ≠ v') ∨ (p = q ∧ PartAtBranch ps qs) := by
  constructor
  · rintro ⟨i, v, v', htake, hp, hq, hne⟩
    cases i with
    | zero => exact .inl ⟨v, v', Option.some_inj.mp hp, Option.some_inj.mp hq, hne⟩
    | succ i =>
      obtain ⟨heq, htake⟩ := List.cons_eq_cons.mp htake
      exact .inr ⟨heq, i, v, v', htake, hp, hq, hne⟩
  · rintro (⟨v, v', rfl, rfl, hne⟩ | ⟨rfl, i, v, v', htake, hp, hq, hne⟩)
    · exact ⟨0, v, v', rfl, rfl, rfl, hne⟩
    · exact ⟨i + 1, v, v', by rw [List.take_succ_cons, List.take_succ_cons, htake], hp, hq, hne⟩

theorem comparePairs_eq_incomparable_iff {ps qs : List (ExecPointType × Nat)}
    (h : compareAsserts ps qs = true) :
    comparePairs ps qs = .incomparable ↔ PartAtBranch ps qs := by
  induction ps generalizing qs with
  | nil => cases qs <;> simp [comparePairs, PartAtBranch]
  | cons p ps ih =>
    cases qs with
    | nil => simp [comparePairs, PartAtBranch]
    | cons q qs =>
      obtain ⟨type, value⟩ := p
      obtain ⟨type', value'⟩ := q
      obtain ⟨rfl, hrest⟩ := compareAsserts_cons.mp h
      rw [partAtBranch_cons]
      by_cases heq : value = value'
      · subst heq
        simp [comparePairs, ih (hrest rfl)]
      · rw [comparePairs_cons_of_ne heq]
        split_ifs <;> simp_all

/-- Points with equal pairs before a position have the same type at that position. -/
def SameTypes (points : Set ExecPoint) : Prop :=
  ∀ a ∈ points, ∀ b ∈ points, ∀ i p q, a.pairs.take i = b.pairs.take i →
    a.pairs[i]? = some p → b.pairs[i]? = some q → p.1 = q.1

private theorem compareAsserts_iff {ps qs : List (ExecPointType × Nat)} :
    compareAsserts ps qs = true ↔ ∀ i p q, ps.take i = qs.take i →
      ps[i]? = some p → qs[i]? = some q → p.1 = q.1 := by
  induction ps generalizing qs with
  | nil => simp [compareAsserts_nil_left]
  | cons p ps ih =>
    cases qs with
    | nil => simp [compareAsserts_nil_right]
    | cons q qs =>
      obtain ⟨type, value⟩ := p
      obtain ⟨type', value'⟩ := q
      rw [compareAsserts_cons]
      constructor
      · rintro ⟨rfl, hrest⟩ i p q htake hp hq
        cases i with
        | zero =>
          rw [← Option.some_inj.mp hp, ← Option.some_inj.mp hq]
        | succ i =>
          obtain ⟨heq, htake⟩ := List.cons_eq_cons.mp htake
          exact ih.mp (hrest (Prod.mk.inj heq).2) i p q htake hp hq
      · intro h
        obtain rfl : type = type' := h 0 (type, value) (type', value') rfl rfl rfl
        refine ⟨rfl, fun heq => ih.mpr fun i p q htake hp hq => ?_⟩
        subst heq
        exact h (i + 1) p q (by rw [List.take_succ_cons, List.take_succ_cons, htake]) hp hq

theorem sameTypes_iff {points : Set ExecPoint} :
    SameTypes points ↔ ∀ a ∈ points, ∀ b ∈ points, compareAsserts a.pairs b.pairs = true := by
  simp only [SameTypes, compareAsserts_iff]

/-- `compare` is a strict partial order. -/
theorem compare_order {points : Set ExecPoint} (h : SameTypes points) :
    (∀ a ∈ points, ∀ b ∈ points, compareAsserts a.pairs b.pairs = true ∧
      (a.compare b = .after ↔ b.compare a = .before) ∧
      (a.compare b = .equals ↔ a.pairs = b.pairs) ∧
      (a.compare b = .incomparable ↔ b.compare a = .incomparable) ∧
      (a.compare b = .incomparable ↔ PartAtBranch a.pairs b.pairs)) ∧
    (∀ a ∈ points, a.compare a ≠ .after) ∧
    ∀ a ∈ points, ∀ b ∈ points, ∀ c ∈ points,
      a.compare b = .after → b.compare c = .after → a.compare c = .after := by
  have hasserts := sameTypes_iff.mp h
  have hswap : ∀ a ∈ points, ∀ b ∈ points, b.compare a = (a.compare b).swap :=
    fun a ha b hb => comparePairs_swap (hasserts a ha b hb)
  have hdual : ∀ a ∈ points, ∀ b ∈ points, a.compare b = .after ↔ b.compare a = .before := by
    intro a ha b hb
    rw [hswap a ha b hb]
    cases a.compare b <;> simp [CompareResult.swap]
  refine ⟨fun a ha b hb => ⟨hasserts a ha b hb, hdual a ha b hb, ?_, ?_, ?_⟩, ?_, ?_⟩
  · exact comparePairs_eq_equals_iff (hasserts a ha b hb)
  · rw [hswap a ha b hb]
    cases a.compare b <;> simp [CompareResult.swap]
  · exact comparePairs_eq_incomparable_iff (hasserts a ha b hb)
  · simp
  · intro a ha b hb c hc hab hbc
    rw [hdual a ha b hb] at hab
    rw [hdual b hb c hc] at hbc
    rw [hdual a ha c hc]
    exact comparePairs_before_trans (hasserts c hc b hb) hbc hab

/-- A branch after the first event, an event in each of its arms, and the next event. -/
def branchAndArms : List ExecPoint :=
  [⟨0, [(.counter, 1)]⟩, ⟨0, [(.counter, 1), (.branch, 0), (.counter, 0)]⟩,
    ⟨0, [(.counter, 1), (.branch, 1), (.counter, 0)]⟩, ⟨0, [(.counter, 2)]⟩]

private theorem sameTypes_branchAndArms : SameTypes {ep | ep ∈ branchAndArms} := by
  rw [sameTypes_iff]
  change ∀ a ∈ branchAndArms, ∀ b ∈ branchAndArms, compareAsserts a.pairs b.pairs = true
  decide

theorem compare_order_branchAndArms :
    (∀ a ∈ branchAndArms, ∀ b ∈ branchAndArms,
      a.compare b = .incomparable ↔ PartAtBranch a.pairs b.pairs) ∧
    ∀ a ∈ branchAndArms, ∀ b ∈ branchAndArms, ∀ c ∈ branchAndArms,
      a.compare b = .after → b.compare c = .after → a.compare c = .after :=
  ⟨fun a ha b hb => ((compare_order sameTypes_branchAndArms).1 a ha b hb).2.2.2.2,
    (compare_order sameTypes_branchAndArms).2.2⟩

end ExecPoint

/-! ## Points of a recorded graph -/

namespace Path

open ExecPoint

variable {code : Code}

theorem entries_eq_flatMap (path : Path) : path.entries = path.reverse.flatMap Frame.entries := by
  induction path with
  | nil => rfl
  | cons f path ih => simp [ih]

/-- Above a common path the frames of two typed paths have the same types. -/
theorem sameTypes_above {outer outer' under : List Frame}
    (h : Typed code (outer.reverse ++ under)) (h' : Typed code (outer'.reverse ++ under))
    (n n' : Nat) :
    compareAsserts (outer.flatMap Frame.entries ++ [(.counter, n)])
      (outer'.flatMap Frame.entries ++ [(.counter, n')]) = true := by
  induction outer generalizing outer' under with
  | nil =>
    cases outer' with
    | nil => simp [compareAsserts_cons, compareAsserts_nil_left]
    | cons f' outer' =>
      cases f' <;> simp [Frame.entries, compareAsserts_cons, compareAsserts_nil_left]
  | cons f outer ih =>
    rw [List.reverse_cons, List.append_assoc, List.singleton_append] at h
    cases outer' with
    | nil => cases f <;> simp [Frame.entries, compareAsserts_cons, compareAsserts_nil_right]
    | cons f' outer' =>
      rw [List.reverse_cons, List.append_assoc, List.singleton_append] at h'
      have hframe := h.of_append
      have hframe' := h'.of_append
      have hkind : ∀ k d i, Typed code (.arm k d :: under) → ¬ Typed code (.loop k i :: under) := by
        intro k d i harm hloop
        have hbranch := harm.1 ⟨under, k⟩ List.mem_cons_self
        have hloop := hloop.2 ⟨under, k⟩ List.mem_cons_self
        simp [hbranch] at hloop
      cases f with
      | arm k d =>
        cases f' with
        | arm k' d' =>
          simp only [List.flatMap_cons, Frame.entries, List.cons_append, List.nil_append,
            compareAsserts_cons, true_and]
          rintro rfl rfl
          exact ih h h'
        | loop k' i =>
          have hne : k ≠ k' := by
            rintro rfl
            exact absurd hframe' (hkind k d i hframe)
          simp [Frame.entries, compareAsserts_cons, hne]
      | loop k i =>
        cases f' with
        | arm k' d' =>
          have hne : k ≠ k' := by
            rintro rfl
            exact absurd hframe (hkind k d' i hframe')
          simp [Frame.entries, compareAsserts_cons, hne]
        | loop k' i' =>
          simp only [List.flatMap_cons, Frame.entries, List.cons_append, List.nil_append,
            compareAsserts_cons, true_and]
          rintro rfl rfl
          exact ih h h'

end Path

namespace Site

private theorem sameTypes {code : Code} {x y : Site} (hx : Path.Typed code x.path)
    (hy : Path.Typed code y.path) : ExecPoint.compareAsserts x.pairs y.pairs = true := by
  have h : Path.Typed code (x.path.reverse.reverse ++ []) := by simpa using hx
  have h' : Path.Typed code (y.path.reverse.reverse ++ []) := by simpa using hy
  have hall := Path.sameTypes_above h h' x.n y.n
  rwa [← Path.entries_eq_flatMap, ← Path.entries_eq_flatMap] at hall

end Site

/-- The `ASSERT` of `compare` holds for the records of a thread whose runs follow one code. -/
theorem Recorded.sameTypes {executions : List (List (Nat × Annotation))} {tid : Nat} {code : Code}
    {g : EventGraph} (h : Recorded executions tid code)
    (hg : g.Logged (Recorder.runsLog executions)) {a b : ExecPoint} (ha : g.getType a ≠ none)
    (hb : g.getType b ≠ none) (hatid : a.tid = tid) (hbtid : b.tid = tid) :
    ExecPoint.compareAsserts a.pairs b.pairs = true := by
  have hsite : ∀ record, g.getType record ≠ none → record.tid = tid →
      ∃ s : Site, record = s.ep tid := by
    rintro record hrecord rfl
    obtain ⟨s, et, hs, -⟩ := hg.exists_trace hrecord
    exact ⟨s, hs⟩
  obtain ⟨x, rfl⟩ := hsite a ha hatid
  obtain ⟨y, rfl⟩ := hsite b hb hbtid
  exact Site.sameTypes (h.typed hg ha) (h.typed hg hb)

end SatCheck
