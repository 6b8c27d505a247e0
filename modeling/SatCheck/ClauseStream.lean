import SatCheck.ConstraintVars
/-!
# The clauses on the pipe

What `addConstraint` sends to the solver: the literals of each clause, and 0 behind them.  The
solver takes a clause without literals for the end of the clauses.
-/

namespace SatCheck

namespace Constraint

/-! ## Sending -/

/-- `int val=-value` and the conversion of a `uint` to an `int`. -/
def printLiteral : Constraint → Option Int
  | var v => some (Int.bmod v (2 ^ 32))
  | notvar v => some (Int.bmod (-v) (2 ^ 32))
  | _ => none

def printDIMACS : Constraint → Option (List Int)
  | var v => (printLiteral (var v)).map fun literal => [literal, 0]
  | notvar v => (printLiteral (notvar v)).map fun literal => [literal, 0]
  | or operands => (operands.mapM printLiteral).map (· ++ [0])
  | _ => none

/-- The numbers that `addConstraint` writes. -/
def sent (c : Constraint) : Option (List Int) :=
  ((addConstraint c).mapM printDIMACS).map List.flatten

/-- Every element is `TRUE`, a literal or an OR of literals, or there is only `FALSE`. -/
def Shaped (vec : List Constraint) : Prop :=
  (∀ d ∈ vec, d = ctrue ∨ d.isLiteral = true ∨
    ∃ operands, operands ≠ [] ∧ (∀ l ∈ operands, l.isLiteral = true) ∧ d = or operands) ∨
  vec = [cfalse]

/-- Each element other than `TRUE` is sent as one clause with literals. -/
def SendsClauses (c : Constraint) : Prop :=
  ∃ clauses : List (List Int),
    List.Forall₂ (fun d clause => printDIMACS d = some (clause ++ [0])) (addConstraint c) clauses ∧
    sent c = some (clauses.flatMap (· ++ [0])) ∧
    ∀ clause ∈ clauses, clause ≠ [] ∧ ∀ literal ∈ clause, literal ≠ 0

/-- The assertion of `addConstraint` stops the vector of `FALSE`. -/
def MeetsProtocol (c : Constraint) : Prop :=
  Shaped c.simplify ∧ (SendsClauses c ∨ c.simplify = [cfalse] ∧ sent c = none)

/-- `getNewVar` numbers variables from 1, and a number is a `uint`. -/
def numbered (v : Nat) : Bool := 0 < v && v < 2 ^ 32

/-! ## The shape of the elements -/

/-- A constant, a literal, or an OR of literals that may have none. -/
def Clausal (p : Nat → Bool) (c : Constraint) : Prop :=
  varsAll p c = true ∧
    (c = ctrue ∨ c = cfalse ∨ c.isLiteral = true ∨
      ∃ operands, (∀ l ∈ operands, l.isLiteral = true) ∧ c = or operands)

variable {p : Nat → Bool}

private theorem mem_mergeandfree {dst src : List Constraint} {c : Constraint}
    (h : c ∈ (mergeandfree dst src).2) : c = ctrue ∨ c ∈ dst ∨ c ∈ src := by
  rw [mergeandfree_eq] at h
  split_ifs at h
  · exact .inl (by simpa using h)
  · rcases List.mem_append.mp h with h | h
    · exact .inr (.inl h)
    · exact .inr (.inr (List.mem_of_mem_filter h))

theorem clausal_mergeandfree {dst src vec : List Constraint} {stop : Bool}
    (h : mergeandfree dst src = (stop, vec)) (hdst : ∀ c ∈ dst, Clausal p c)
    (hsrc : ∀ c ∈ src, Clausal p c) : ∀ c ∈ vec, Clausal p c := by
  intro c hc
  have hmem : c ∈ (mergeandfree dst src).2 := by rwa [h]
  rcases mem_mergeandfree hmem with rfl | hc | hc
  · exact ⟨rfl, .inl rfl⟩
  · exact hdst c hc
  · exact hsrc c hc

theorem simplifyRule_clausal (p : Nat → Bool) :
    SimplifyRule (fun c out => varsAll p c = true → ∀ d ∈ out, Clausal p d)
      (fun pre post vec cs out => (pre ++ cs ++ post).all (varsAll p) = true →
        (∀ d ∈ vec, Clausal p d) → ∀ d ∈ out, Clausal p d)
      (fun vec cs out => cs.all (varsAll p) = true →
        (∀ d ∈ vec, Clausal p d) → ∀ d ∈ out, Clausal p d) where
  ctrue _ d hd := ⟨List.mem_singleton.mp hd ▸ rfl, .inl (List.mem_singleton.mp hd)⟩
  cfalse _ d hd := ⟨List.mem_singleton.mp hd ▸ rfl, .inr (.inl (List.mem_singleton.mp hd))⟩
  literal c hc h d hd := by
    obtain rfl := List.mem_singleton.mp hd
    exact ⟨h, .inr (.inr (.inl hc))⟩
  and cs out ih h := ih (by simpa using h) (by simp)
  orSingle c hc h d hd := by
    obtain rfl := List.mem_singleton.mp hd
    exact ⟨by simpa using h, .inr (.inr (.inl hc))⟩
  orLiterals cs hlit h d hd := by
    obtain rfl := List.mem_singleton.mp hd
    exact ⟨h, .inr (.inr (.inr ⟨cs, hlit, rfl⟩))⟩
  orTrue pre post _ d hd := ⟨List.mem_singleton.mp hd ▸ rfl, .inl (List.mem_singleton.mp hd)⟩
  orFalse pre post out ih h := ih (by simp_all)
  orOr pre ds post out ih h := ih (by simp_all)
  orImplies pre l r post out ih h := ih (by simp_all [varsAll_negate])
  orAnd pre ds post out ih h := ih (by simp_all) (by simp)
  implies l r out ih h := ih (by simp_all [varsAll_negate])
  distNil pre post vec _ hvec := hvec
  distStop pre post vec c cs out vec' ih hmerge h hvec :=
    clausal_mergeandfree hmerge hvec (ih (by simp_all))
  distCons pre post vec c cs out vec' result ih hmerge ihcs h hvec := by
    apply ihcs
    · simp_all
    · exact clausal_mergeandfree hmerge hvec (ih (by simp_all))
  andNil vec _ hvec := hvec
  andStop vec c cs out vec' ih hmerge h hvec :=
    clausal_mergeandfree hmerge hvec (ih (by simp_all))
  andCons vec c cs out vec' result ih hmerge ihcs h hvec := by
    apply ihcs
    · simp_all
    · exact clausal_mergeandfree hmerge hvec (ih (by simp_all))

/-- What `simplify` leaves to the solver is a constant or a clause. -/
theorem clausal_simplify (c : Constraint) (h : varsAll p c = true) :
    ∀ d ∈ c.simplify, Clausal p d :=
  (simplifyRule_clausal p).simplify c h

/-! ## The clauses that reach the solver -/

/-- The tree is false whatever the literals are, even if both signs of a variable hold. -/
def bare (c : Constraint) : Bool := refutesBy (fun _ _ => true) c

private theorem bmod_ne_zero {n : Int} (hpos : 0 < n) (hlt : n < 2 ^ 32) :
    Int.bmod n (2 ^ 32) ≠ 0 ∧ Int.bmod (-n) (2 ^ 32) ≠ 0 := by
  constructor
  · intro hzero
    rw [Int.bmod] at hzero
    split at hzero <;> omega
  · intro hzero
    rw [Int.bmod] at hzero
    split at hzero <;> omega

theorem printLiteral_numbered {l : Constraint} (hlit : l.isLiteral = true)
    (hvars : varsAll numbered l = true) :
    ∃ literal, printLiteral l = some literal ∧ literal ≠ 0 := by
  cases l with
  | var v =>
    simp only [varsAll, numbered, Bool.and_eq_true, decide_eq_true_eq] at hvars
    exact ⟨_, rfl, (bmod_ne_zero (by omega) (by omega)).1⟩
  | notvar v =>
    simp only [varsAll, numbered, Bool.and_eq_true, decide_eq_true_eq] at hvars
    exact ⟨_, rfl, (bmod_ne_zero (by omega) (by omega)).2⟩
  | _ => simp [isLiteral] at hlit

private theorem mapM_printLiteral {operands : List Constraint}
    (hlit : ∀ l ∈ operands, l.isLiteral = true)
    (hvars : ∀ l ∈ operands, varsAll numbered l = true) :
    ∃ clause, operands.mapM printLiteral = some clause ∧ clause.length = operands.length ∧
      ∀ literal ∈ clause, literal ≠ 0 := by
  induction operands with
  | nil => exact ⟨[], rfl, rfl, by simp⟩
  | cons l ls ih =>
    rw [List.forall_mem_cons] at hlit hvars
    obtain ⟨literal, hprint, hne⟩ := printLiteral_numbered hlit.1 hvars.1
    obtain ⟨clause, hclause, hlen, hnonzero⟩ := ih hlit.2 hvars.2
    refine ⟨literal :: clause, ?_, by simp [hlen], ?_⟩
    · simp [List.mapM_cons, hprint, hclause]
    · simpa [hne] using hnonzero

def Printed (d : Constraint) (clause : List Int) : Prop :=
  printDIMACS d = some (clause ++ [0]) ∧ clause ≠ [] ∧ ∀ literal ∈ clause, literal ≠ 0

private theorem printed_of_literal {d : Constraint} (hlit : d.isLiteral = true)
    (hvars : varsAll numbered d = true) : ∃ clause, Printed d clause := by
  obtain ⟨literal, hprint, hne⟩ := printLiteral_numbered hlit hvars
  refine ⟨[literal], ?_, by simp, by simpa using hne⟩
  cases d with
  | var v => simp [printDIMACS, hprint]
  | notvar v => simp [printDIMACS, hprint]
  | _ => simp [isLiteral] at hlit

private theorem printed_of_clausal {d : Constraint} (h : Clausal numbered d) (htrue : d ≠ ctrue)
    (hfalse : d ≠ cfalse) (hempty : d ≠ or []) : ∃ clause, Printed d clause := by
  obtain ⟨hvars, rfl | rfl | hlit | ⟨operands, hlit, rfl⟩⟩ := h
  · exact absurd rfl htrue
  · exact absurd rfl hfalse
  · exact printed_of_literal hlit hvars
  · rw [varsAll_or, List.all_eq_true] at hvars
    obtain ⟨clause, hprint, hlen, hnonzero⟩ := mapM_printLiteral hlit hvars
    refine ⟨clause, by simp [printDIMACS, hprint], ?_, hnonzero⟩
    intro hnil
    apply hempty
    rw [hnil, List.length_nil] at hlen
    rw [List.eq_nil_of_length_eq_zero hlen.symm]

private theorem mapM_printed {cs : List Constraint} (h : ∀ d ∈ cs, ∃ clause, Printed d clause) :
    ∃ clauses, List.Forall₂ (fun d clause => printDIMACS d = some (clause ++ [0])) cs clauses ∧
      cs.mapM printDIMACS = some (clauses.map (· ++ [0])) ∧
      ∀ clause ∈ clauses, clause ≠ [] ∧ ∀ literal ∈ clause, literal ≠ 0 := by
  induction cs with
  | nil => exact ⟨[], .nil, rfl, by simp⟩
  | cons d cs ih =>
    rw [List.forall_mem_cons] at h
    obtain ⟨clause, hprint, hclause⟩ := h.1
    obtain ⟨clauses, hall, hmap, hclauses⟩ := ih h.2
    refine ⟨clause :: clauses, .cons hprint hall, ?_, ?_⟩
    · simp [List.mapM_cons, hprint, hmap]
    · rw [List.forall_mem_cons]
      exact ⟨hclause, hclauses⟩

theorem sendsClauses_of_clausal {c : Constraint} (h : ∀ d ∈ c.simplify, Clausal numbered d)
    (hfalse : cfalse ∉ c.simplify) (hempty : or [] ∉ c.simplify) : SendsClauses c := by
  have hmem : ∀ d ∈ addConstraint c, ∃ clause, Printed d clause := by
    intro d hd
    obtain ⟨hd, htrue⟩ := List.mem_filter.mp hd
    apply printed_of_clausal (h d hd)
    · rintro rfl
      simp [isTrue] at htrue
    · rintro rfl
      exact hfalse hd
    · rintro rfl
      exact hempty hd
  obtain ⟨clauses, hall, hmap, hclauses⟩ := mapM_printed hmem
  refine ⟨clauses, hall, ?_, hclauses⟩
  rw [sent, hmap, Option.map_some, List.flatMap_def]

theorem shaped_of_clausal {c : Constraint} (h : ∀ d ∈ c.simplify, Clausal numbered d)
    (hfalse : cfalse ∉ c.simplify) (hempty : or [] ∉ c.simplify) : Shaped c.simplify := by
  left
  intro d hd
  obtain ⟨-, rfl | rfl | hlit | ⟨operands, hlit, rfl⟩⟩ := h d hd
  · exact .inl rfl
  · exact absurd hd hfalse
  · exact .inr (.inl hlit)
  · exact .inr (.inr ⟨operands, fun hnil => hempty (hnil ▸ hd), hlit, rfl⟩)

private theorem not_bare_of_shaped {c : Constraint} (h : Shaped c.simplify) :
    c = cfalse ∨ c.bare = false := by
  obtain ⟨hfalse, hall⟩ := simplify_specBy (fun _ _ => true) c
  rcases h with h | h
  · right
    have htrue : c.simplify.all (evalBy fun _ _ => true) = true := by
      rw [List.all_eq_true]
      intro d hd
      rcases h d hd with rfl | hlit | ⟨operands, hne, hlit, rfl⟩
      · simp
      · cases d <;> simp_all [isLiteral, evalBy]
      · obtain ⟨l, hl⟩ := List.exists_mem_of_ne_nil operands hne
        rw [evalBy_or, List.any_eq_true]
        refine ⟨l, hl, ?_⟩
        have := hlit l hl
        cases l <;> simp_all [isLiteral, evalBy]
    rw [hall] at htrue
    simpa [bare] using htrue
  · left
    apply eq_cfalse_of_isFalse
    rw [← hfalse, h]
    rfl

/-- The clauses are well formed exactly for a tree that its constants alone do not refute,
and for `FALSE`, where the assertion fails. -/
theorem meetsProtocol_iff (c : Constraint) (hvars : varsAll numbered c = true) :
    MeetsProtocol c ↔ c = cfalse ∨ c.bare = false := by
  constructor
  · intro h
    exact not_bare_of_shaped h.1
  · rintro (rfl | hbare)
    · have hvec : simplify cfalse = [cfalse] := by rw [simplify]
      refine ⟨.inr hvec, .inr ⟨hvec, ?_⟩⟩
      rw [sent, addConstraint, hvec]
      rfl
    · have hclausal := clausal_simplify c hvars
      obtain ⟨hfalse, hall⟩ := simplify_specBy (fun _ _ => true) c
      rw [show refutesBy (fun _ _ => true) c = false from hbare] at hall
      rw [Bool.not_false, List.all_eq_true] at hall
      have hnofalse : cfalse ∉ c.simplify := fun hmem => by simpa using hall _ hmem
      have hnoempty : or [] ∉ c.simplify := fun hmem => by simpa using hall _ hmem
      exact ⟨shaped_of_clausal hclausal hnofalse hnoempty,
        .inl (sendsClauses_of_clausal hclausal hnofalse hnoempty)⟩

/-- A unit clause keeps the protocol: the tree is not refuted by constants. -/
theorem meetsProtocol_implies_var : MeetsProtocol (implies (var 1) cfalse) :=
  (meetsProtocol_iff (implies (var 1) cfalse) rfl).mpr (.inr rfl)

private theorem simplify_implies_ctrue_cfalse : simplify (implies ctrue cfalse) = [or []] := by
  have hfirst : firstNonLiteral [cfalse, cfalse] = some ([], cfalse, [cfalse]) := rfl
  have hsecond : firstNonLiteral [cfalse] = some ([], cfalse, []) := rfl
  calc simplify (implies ctrue cfalse) = simplify (or [ctrue.negate, cfalse]) :=
        simplify_implies ctrue cfalse
    _ = simplify (or [cfalse, cfalse]) := rfl
    _ = simplify (or [cfalse]) := simplify_or_cfalse hfirst
    _ = simplify (or []) := simplify_or_cfalse hsecond
    _ = [or []] := simplify_or_literals rfl

theorem not_always_meetsProtocol :
    ¬ ∀ c : Constraint, varsAll numbered c = true → MeetsProtocol c := by
  intro h
  obtain ⟨-, hsends | ⟨hvec, -⟩⟩ := h (implies ctrue cfalse) rfl
  · obtain ⟨clauses, hall, hsent, hclauses⟩ := hsends
    rw [addConstraint, simplify_implies_ctrue_cfalse] at hall
    cases hall with
    | cons hprint _ =>
      apply (hclauses _ List.mem_cons_self).1
      simpa [printDIMACS] using hprint
  · rw [simplify_implies_ctrue_cfalse] at hvec
    simp at hvec

end Constraint

end SatCheck
