import SatCheck.ThreadRuns
import Mathlib.Logic.Function.Iterate
/-!
# Code at sites

What a thread does at a site is given by its code.  Only the directions of the branches are
left open, so all runs of the code note records of one kind at a site and agree on what
follows.
-/

namespace SatCheck

inductive Instruction where
  | event (event : EventType) (numinputs : Nat)
  | branch
  | merge (b : Site)
  | enterLoop
  | exitLoop
  | loopIterate
  | threadCreate
  | threadStart
  deriving DecidableEq, Repr

/-- What a thread does at a site; `none` is its end. -/
abbrev Code := Site → Option Instruction

namespace Instruction

/-- The call is one that the instruction makes.  An MCID names the record of its branch. -/
def Allows (k : Control) : Instruction → Annotation → Prop
  | event et numinputs, .event et' numinputs' => et = et' ∧ numinputs = numinputs'
  | branch, .branchDir _ => True
  | merge b, .merge mcid => k.values[mcid]? = some b
  | enterLoop, .enterLoop => True
  | exitLoop, .exitLoop => True
  | loopIterate, .loopIterate => True
  | threadCreate, .threadCreate => True
  | threadStart, .threadStart _ => True
  | _, _ => False

def type (s : Site) : Instruction → Option EventType
  | event et _ => if Control.IsPlain et then some et else none
  | branch => some .branchdir
  | enterLoop => some .loopenter
  | exitLoop => some s.exitType
  | threadCreate => some .threadcreate
  | threadStart => some .threadbegin
  | merge _ | loopIterate => none

theorem type_eq_branchdir {s : Site} {i : Instruction} :
    i.type s = some .branchdir ↔ i = branch := by
  cases i <;> simp [type, Site.exitType]
  · rintro hplain rfl
    exact hplain
  · split <;> simp

theorem type_eq_loopenter {s : Site} {i : Instruction} :
    i.type s = some .loopenter ↔ i = enterLoop := by
  cases i <;> simp [type, Site.exitType]
  · rintro hplain rfl
    exact hplain
  · split <;> simp

end Instruction

namespace Code

variable (code : Code)

/-- The calls are a run of the code to its end. -/
def Runs : Control → List Annotation → Prop
  | k, [] => code k.site = none
  | k, call :: calls =>
    (∃ i, code k.site = some i ∧ i.Allows k call) ∧ k.Legal call ∧ Runs (k.move call) calls

/-- The kind of the record at the `n`-th place of a path, where it is not noted by the
instruction there: the LOOPSTART of the first iteration, the MERGE behind a branch and the
LABEL behind a loop. -/
def slot (path : Path) : Nat → Option EventType
  | 0 =>
    match path with
    | .loop _ 0 :: _ => some .loopstart
    | _ => none
  | n + 1 =>
    match slot path n with
    | some _ => none
    | none =>
      match code ⟨path, n⟩ with
      | some .branch => some .merge
      | some .enterLoop => some .label
      | _ => none

def type (s : Site) : Option EventType :=
  match code.slot s.path s.n with
  | some et => some et
  | none => (code s).bind (Instruction.type s)

/-- The instruction at the site is the next one behind a record, up to iterations. -/
def Leads (p s : Site) : Prop :=
  ∃ i, s = Site.iterate^[i] p.next ∧
    ∀ j < i, code (Site.iterate^[j] p.next) = some .loopIterate

def Passes : EventType → Prop
  | .branchdir | .loopenter | .loopexit | .nonlocaltrans => False
  | _ => True

inductive Next : Site → Site → Prop
  | behind {p s : Site} {et et' : EventType} (htype : code.type p = some et) (hpasses : Passes et)
      (hleads : code.Leads p s) (hnotes : (code s).bind (Instruction.type s) = some et') : Next p s
  | merge {b : Site} (htype : code.type b = some .branchdir) : Next b b.next
  | label {l : Site} (htype : code.type l = some .loopenter) : Next l l.next
  | exit {s l : Site} {loops : List Site} (htype : code.type s = some s.exitType)
      (hloops : s.path.loops = l :: loops) : Next s l.next

/-- What the runs of the code leave in the graph.  A thread start also links its parent. -/
inductive Leaves (tid : Nat) : GraphEntry → Prop
  | record {s : Site} {et : EventType} (htype : code.type s = some et) :
      Leaves tid (.record (s.ep tid) et)
  | next {s s' : Site} (hnext : code.Next s s') : Leaves tid (.next (s.ep tid) (s'.ep tid))
  | child {s : Site} (htype : code.type s = some .loopenter) :
      Leaves tid (.child (s.ep tid) (s.body.ep tid))
  | started {s : Site} {parent : ExecPoint} : Leaves tid (.child parent (s.ep tid))
  | first {b : Site} {direction : Nat} {et : EventType} (htype : code.type b = some .branchdir)
      (hnotes : (code (Site.arm b direction)).bind (Instruction.type (Site.arm b direction)) =
        some et) :
      Leaves tid (.first ⟨b.ep tid, direction⟩ (Site.ep tid (Site.arm b direction)))
  | value {b : Site} {direction : Nat} (htype : code.type b = some .branchdir) :
      Leaves tid (.value (b.ep tid) direction)

/-- A control that the code can come to. -/
structure Reaches (k : Control) : Prop where
  free : code.slot k.site.path k.site.n = none
  branches : ∀ b ∈ k.site.path.branches, code.type b = some .branchdir
  loops : ∀ l ∈ k.site.path.loops, code.type l = some .loopenter
  prev : ∀ p, k.prev = some p → ∃ et, code.type p = some et ∧ Passes et ∧ code.Leads p k.site
  begin : k.prev = none →
    k.site = Site.start ∨ ∃ (b : Site) (direction : Nat), k.site = b.arm direction

/-! ## Kinds of records -/

variable {code} {s : Site}

private theorem slot_ne (path : Path) (n : Nat) {et : EventType} (h : code.slot path n = some et) :
    et = .loopstart ∨ et = .merge ∨ et = .label := by
  unfold slot at h
  split at h
  · split at h <;> simp_all
  · split at h
    · simp at h
    · split at h <;> simp_all

theorem type_of_free (h : code.slot s.path s.n = none) :
    code.type s = (code s).bind (Instruction.type s) := by
  simp [type, h]

theorem exists_of_type {et : EventType} (h : code.type s = some et)
    (het : ¬ (et = .loopstart ∨ et = .merge ∨ et = .label)) :
    code.slot s.path s.n = none ∧ ∃ i, code s = some i ∧ i.type s = some et := by
  cases hslot : code.slot s.path s.n with
  | some et' =>
    simp only [type, hslot, Option.some.injEq] at h
    exact absurd (h ▸ slot_ne s.path s.n hslot) het
  | none =>
    rw [type_of_free hslot] at h
    exact ⟨rfl, Option.bind_eq_some_iff.mp h⟩

theorem type_eq_branchdir : code.type s = some .branchdir ↔
    code.slot s.path s.n = none ∧ code s = some .branch := by
  constructor
  · intro h
    obtain ⟨hslot, i, hi, htype⟩ := exists_of_type h (by decide)
    obtain rfl := Instruction.type_eq_branchdir.mp htype
    exact ⟨hslot, hi⟩
  · rintro ⟨hslot, hcode⟩
    simp [type_of_free hslot, hcode, Instruction.type]

theorem type_eq_loopenter : code.type s = some .loopenter ↔
    code.slot s.path s.n = none ∧ code s = some .enterLoop := by
  constructor
  · intro h
    obtain ⟨hslot, i, hi, htype⟩ := exists_of_type h (by decide)
    obtain rfl := Instruction.type_eq_loopenter.mp htype
    exact ⟨hslot, hi⟩
  · rintro ⟨hslot, hcode⟩
    simp [type_of_free hslot, hcode, Instruction.type]

theorem type_next_of_branchdir (h : code.type s = some .branchdir) :
    code.type s.next = some .merge ∧ code.slot s.next.next.path s.next.next.n = none := by
  obtain ⟨hslot, hcode⟩ := type_eq_branchdir.mp h
  have hmerge : code.slot s.path (s.n + 1) = some .merge := by
    rw [slot, hslot]
    simp only
    rw [show (⟨s.path, s.n⟩ : Site) = s from rfl, hcode]
  constructor
  · simp [type, Site.next, hmerge]
  · simp only [Site.next]
    rw [slot, hmerge]

theorem type_next_of_loopenter (h : code.type s = some .loopenter) :
    code.type s.next = some .label ∧ code.slot s.next.next.path s.next.next.n = none := by
  obtain ⟨hslot, hcode⟩ := type_eq_loopenter.mp h
  have hlabel : code.slot s.path (s.n + 1) = some .label := by
    rw [slot, hslot]
    simp only
    rw [show (⟨s.path, s.n⟩ : Site) = s from rfl, hcode]
  constructor
  · simp [type, Site.next, hlabel]
  · simp only [Site.next]
    rw [slot, hlabel]

theorem type_body (s : Site) : code.type s.body = some .loopstart ∧
    code.slot s.body.next.path s.body.next.n = none := by
  constructor
  · simp [type, Site.body, slot]
  · simp [Site.body, Site.next, slot]

/-! ## What is next -/

theorem Leads.unique {p s s' : Site} (h : code.Leads p s) (h' : code.Leads p s')
    (hs : code s ≠ some .loopIterate) (hs' : code s' ≠ some .loopIterate) : s = s' := by
  obtain ⟨i, rfl, hi⟩ := h
  obtain ⟨i', rfl, hi'⟩ := h'
  rcases Nat.lt_trichotomy i i' with hlt | rfl | hlt
  · exact absurd (hi' i hlt) hs
  · rfl
  · exact absurd (hi i' hlt) hs'

theorem Leads.iterate {p s : Site} (h : code.Leads p s) (hs : code s = some .loopIterate) :
    code.Leads p s.iterate := by
  obtain ⟨i, rfl, hi⟩ := h
  refine ⟨i + 1, (Function.iterate_succ_apply' Site.iterate i p.next).symm, ?_⟩
  intro j hj
  rcases Nat.lt_succ_iff_lt_or_eq.mp hj with hj | rfl
  · exact hi j hj
  · exact hs

theorem leads_next (p : Site) : code.Leads p p.next := ⟨0, rfl, by simp⟩

theorem Leads.branchOf {p s : Site} (h : code.Leads p s) (tid : Nat) :
    branchOf tid s.path = SatCheck.branchOf tid p.path := by
  obtain ⟨i, rfl, -⟩ := h
  induction i with
  | zero => rfl
  | succ i ih => rw [Function.iterate_succ_apply', Site.branchOf_iterate, ih]

theorem not_loopIterate {s : Site} {et : EventType}
    (h : (code s).bind (Instruction.type s) = some et) : code s ≠ some .loopIterate := by
  intro hs
  simp [hs, Instruction.type] at h

theorem exitType_cases (s : Site) : s.exitType = .loopexit ∨ s.exitType = .nonlocaltrans := by
  unfold Site.exitType
  split <;> simp

theorem Passes.ne {et : EventType} (h : Passes et) (htype : code.type s = some et) :
    code.type s ≠ some .branchdir ∧ code.type s ≠ some .loopenter ∧
      code.type s ≠ some s.exitType := by
  rw [htype]
  rcases exitType_cases s with hexit | hexit <;> rw [hexit] <;>
    refine ⟨?_, ?_, ?_⟩ <;> rintro ⟨⟩ <;> exact h

theorem exitType_ne (s : Site) : s.exitType ≠ .branchdir ∧ s.exitType ≠ .loopenter := by
  rcases exitType_cases s with h | h <;> rw [h] <;> decide

theorem Next.unique {a b c : Site} (h : code.Next a b) (h' : code.Next a c) : b = c := by
  cases h with
  | behind htype hpasses hleads hnotes =>
    have hne := hpasses.ne htype
    cases h' with
    | behind _ _ hleads' hnotes' =>
      exact hleads.unique hleads' (not_loopIterate hnotes) (not_loopIterate hnotes')
    | merge htype' => exact absurd htype' hne.1
    | label htype' => exact absurd htype' hne.2.1
    | exit htype' _ => exact absurd htype' hne.2.2
  | merge htype =>
    cases h' with
    | behind htype' hpasses _ _ => exact absurd htype (hpasses.ne htype').1
    | merge _ => rfl
    | label _ => rfl
    | exit htype' _ =>
      rw [htype, Option.some_inj] at htype'
      exact absurd htype'.symm (exitType_ne a).1
  | label htype =>
    cases h' with
    | behind htype' hpasses _ _ => exact absurd htype (hpasses.ne htype').2.1
    | merge _ => rfl
    | label _ => rfl
    | exit htype' _ =>
      rw [htype, Option.some_inj] at htype'
      exact absurd htype'.symm (exitType_ne a).2
  | exit htype hloops =>
    cases h' with
    | behind htype' hpasses _ _ => exact absurd htype (hpasses.ne htype').2.2
    | merge htype' =>
      rw [htype, Option.some_inj] at htype'
      exact absurd htype' (exitType_ne a).1
    | label htype' =>
      rw [htype, Option.some_inj] at htype'
      exact absurd htype' (exitType_ne a).2
    | exit _ hloops' =>
      rw [hloops] at hloops'
      rw [(List.cons_eq_cons.mp hloops').1]

/-- Behind a record from which the thread comes to a site where it records nothing, there is
no next record. -/
theorem Leads.not_next {p s x : Site} {et : EventType} (h : code.Leads p s)
    (htype : code.type p = some et) (hpasses : Passes et) (hs : code s ≠ some .loopIterate)
    (hnone : (code s).bind (Instruction.type s) = none) : ¬ code.Next p x := by
  intro hnext
  have hne := hpasses.ne htype
  cases hnext with
  | behind _ _ hleads hnotes =>
    obtain rfl := h.unique hleads hs (not_loopIterate hnotes)
    simp [hnone] at hnotes
  | merge htype' => exact hne.1 htype'
  | label htype' => exact hne.2.1 htype'
  | exit htype' _ => exact hne.2.2 htype'

/-! ## Runs of the code -/

variable {k : Control} {tid : Nat}

theorem Reaches.arrive (h : code.Reaches k) {et : EventType}
    (hnotes : (code k.site).bind (Instruction.type k.site) = some et) :
    ∀ e ∈ k.arrive tid, code.Leaves tid e := by
  intro e he
  unfold Control.arrive at he
  cases hprev : k.prev with
  | some p =>
    obtain ⟨et', htype, hpasses, hleads⟩ := h.prev p hprev
    simp only [hprev, List.mem_singleton] at he
    subst he
    exact .next (.behind htype hpasses hleads hnotes)
  | none =>
    simp only [hprev, List.mem_map, Option.mem_toList] at he
    obtain ⟨branch, hbranch, rfl⟩ := he
    rcases h.begin hprev with hstart | ⟨b, direction, hb⟩
    · simp [hstart, Site.start, branchOf] at hbranch
    · have hmem : b ∈ k.site.path.branches := by
        rw [hb]
        exact List.mem_cons_self
      rw [hb, Site.branchOf_arm] at hbranch
      obtain rfl := Option.some_inj.mp hbranch
      rw [hb] at hnotes ⊢
      exact .first (h.branches b hmem) hnotes

theorem Reaches.behind {p : Site} {et : EventType} (htype : code.type p = some et)
    (hpasses : Passes et) (hfree : code.slot p.next.path p.next.n = none)
    (hbranches : ∀ b ∈ p.path.branches, code.type b = some .branchdir)
    (hloops : ∀ l ∈ p.path.loops, code.type l = some .loopenter) : code.Reaches (k.behind p) where
  free := hfree
  branches := hbranches
  loops := hloops
  prev q hq := by
    obtain rfl := Option.some_inj.mp hq
    exact ⟨et, htype, hpasses, leads_next p⟩
  begin hnone := by simp [Control.behind] at hnone

private theorem slot_next (hfree : code.slot s.path s.n = none) (hbranch : code s ≠ some .branch)
    (hloop : code s ≠ some .enterLoop) : code.slot s.next.path s.next.n = none := by
  simp only [Site.next]
  rw [slot, hfree]
  simp only

private theorem passes_plain {et : EventType} (h : Control.IsPlain et) : Passes et := by
  cases et <;> trivial

theorem Reaches.move (h : code.Reaches k) {i : Instruction} {call : Annotation}
    (hi : code k.site = some i) (hallows : i.Allows k call) (hlegal : k.Legal call) :
    code.Reaches (k.move call) := by
  have htype : code.type k.site = i.type k.site := by
    simp [type_of_free h.free, hi]
  have hrecord : ∀ et, i.type k.site = some et → Passes et → i ≠ .branch → i ≠ .enterLoop →
      code.Reaches (k.behind k.site) := by
    intro et het hpasses hbranch hloop
    apply Reaches.behind (htype.trans het) hpasses _ h.branches h.loops
    exact slot_next h.free (by simp [hi, hbranch]) (by simp [hi, hloop])
  cases i <;> cases call <;> simp only [Instruction.Allows] at hallows
  case event.event et numinputs et' numinputs' =>
    have hplain : Control.IsPlain et := by
      rw [hallows.1]
      exact hlegal
    exact hrecord et (by simp [Instruction.type, hplain]) (passes_plain hplain) (by simp) (by simp)
  case branch.branchDir direction =>
    constructor
    · simp [Control.move, Site.arm, slot]
    · intro b hb
      rcases List.mem_cons.mp hb with rfl | hb
      · exact htype
      · exact h.branches b hb
    · exact h.loops
    · simp [Control.move]
    · exact fun _ => Or.inr ⟨k.site, direction, rfl⟩
  case merge.merge b mcid =>
    obtain ⟨b', hb', hmem⟩ := hlegal
    obtain rfl := Option.some_inj.mp (hb'.symm.trans hallows)
    have hbranch := Path.mergeable_subset hmem
    obtain ⟨hmerge, hfree⟩ := type_next_of_branchdir (h.branches b' hbranch)
    simp only [Control.move, hb']
    apply Reaches.behind hmerge trivial hfree
    · exact fun c hc => h.branches c (Path.branches_subset hbranch hc)
    · exact fun l hl => h.loops l (Path.loops_subset hbranch hl)
  case enterLoop.enterLoop =>
    obtain ⟨hbody, hfree⟩ : code.type k.site.body = some .loopstart ∧ _ := type_body k.site
    apply Reaches.behind hbody trivial hfree h.branches
    intro l hl
    rcases List.mem_cons.mp hl with rfl | hl
    · exact htype
    · exact h.loops l hl
  case exitLoop.exitLoop =>
    obtain ⟨l, loops, hloops, hmem⟩ := hlegal.exists_loop
    obtain ⟨hlabel, hfree⟩ := type_next_of_loopenter (h.loops l hmem)
    simp only [Control.move, hloops, List.head?_cons]
    apply Reaches.behind hlabel trivial hfree
    · exact fun c hc => h.branches c (Path.branches_of_loops hmem hc)
    · exact fun m hm => h.loops m (Path.loops_of_loops hmem hm)
  case loopIterate.loopIterate =>
    obtain ⟨n, j, path, hpath⟩ := hlegal
    have hiterate : k.site.iterate = ⟨.loop n (j + 1) :: path, 0⟩ := by
      simp [Site.iterate, hpath]
    constructor
    · simp [Control.move, hiterate, slot]
    · intro b hb
      apply h.branches b
      simpa [Control.move, hiterate, hpath, Path.branches] using hb
    · intro l hl
      apply h.loops l
      simpa [Control.move, hiterate, hpath, Path.loops] using hl
    · intro p hp
      obtain ⟨et, hp', hpasses, hleads⟩ := h.prev p hp
      exact ⟨et, hp', hpasses, hleads.iterate hi⟩
    · intro hnone
      rcases h.begin hnone with hstart | ⟨b, direction, hb⟩
      · simp [hstart, Site.start] at hpath
      · simp [hb, Site.arm] at hpath
  case threadCreate.threadCreate =>
    exact hrecord .threadcreate rfl trivial (by simp) (by simp)
  case threadStart.threadStart parent =>
    exact hrecord .threadbegin rfl trivial (by simp) (by simp)

theorem Reaches.leaves (h : code.Reaches k) {i : Instruction} {call : Annotation}
    (hi : code k.site = some i) (hallows : i.Allows k call) (hlegal : k.Legal call) :
    ∀ e ∈ k.entries tid call, code.Leaves tid e := by
  have htype : code.type k.site = i.type k.site := by
    simp [type_of_free h.free, hi]
  have harrive : ∀ et, i.type k.site = some et →
      ∀ e ∈ .record (k.site.ep tid) et :: k.arrive tid, code.Leaves tid e := by
    intro et het e he
    rcases List.mem_cons.mp he with rfl | he
    · exact .record (htype.trans het)
    · exact h.arrive (by simpa [hi] using het) e he
  cases i <;> cases call <;> simp only [Instruction.Allows] at hallows
  case event.event et numinputs et' numinputs' =>
    obtain ⟨rfl, -⟩ := hallows
    have hplain : Control.IsPlain et := hlegal
    exact harrive et (by simp [Instruction.type, hplain])
  case branch.branchDir direction =>
    intro e he
    simp only [Control.entries, Control.notes, Control.links, List.map_cons, List.map_nil,
      List.singleton_append, ← List.cons_append, List.mem_append, List.mem_singleton] at he
    rcases he with he | rfl
    · exact harrive .branchdir rfl e he
    · exact .value htype
  case merge.merge b mcid =>
    obtain ⟨b', hb', hmem⟩ := hlegal
    obtain rfl := Option.some_inj.mp (hb'.symm.trans hallows)
    have hbranch := h.branches b' (Path.mergeable_subset hmem)
    intro e he
    simp only [Control.entries, Control.notes, Control.links, hb', Option.toList_some,
      List.map_cons, List.map_nil, List.singleton_append, List.mem_cons, List.not_mem_nil,
      or_false] at he
    rcases he with rfl | rfl
    · exact .record (type_next_of_branchdir hbranch).1
    · exact .next (.merge hbranch)
  case enterLoop.enterLoop =>
    intro e he
    simp only [Control.entries, Control.notes, Control.links, List.map_cons, List.map_nil,
      List.cons_append, List.nil_append, List.mem_cons, List.mem_append, List.not_mem_nil,
      or_false] at he
    rcases he with rfl | rfl | he | rfl
    · exact .record htype
    · exact .record (type_body k.site).1
    · exact harrive .loopenter rfl e (List.mem_cons_of_mem _ he)
    · exact .child htype
  case exitLoop.exitLoop =>
    obtain ⟨l, loops, hloops, hmem⟩ := hlegal.exists_loop
    have hl := h.loops l hmem
    intro e he
    simp only [Control.entries, Control.notes, Control.links, hloops, List.head?_cons,
      Option.toList_some, List.flatMap_cons, List.flatMap_nil, List.append_nil, List.map_cons,
      List.map_nil, List.cons_append, List.nil_append, List.mem_cons, List.mem_append,
      List.not_mem_nil, or_false] at he
    rcases he with rfl | rfl | he | rfl | rfl
    · exact .record htype
    · exact .record (type_next_of_loopenter hl).1
    · exact harrive k.site.exitType rfl e (List.mem_cons_of_mem _ he)
    · exact .next (.label hl)
    · exact .next (.exit htype hloops)
  case loopIterate.loopIterate =>
    simp [Control.entries, Control.notes, Control.links]
  case threadCreate.threadCreate =>
    exact harrive .threadcreate rfl
  case threadStart.threadStart parent =>
    intro e he
    simp only [Control.entries, Control.notes, Control.links, List.map_cons, List.map_nil,
      List.singleton_append, ← List.cons_append, List.mem_append, List.mem_map,
      Option.mem_toList] at he
    rcases he with he | ⟨p, -, rfl⟩
    · exact harrive .threadbegin rfl e he
    · exact .started

/-! ## Entries of the code -/

theorem Leaves.type {et : EventType} (h : code.Leaves tid (.record (s.ep tid) et)) :
    code.type s = some et := by
  generalize he : GraphEntry.record (s.ep tid) et = e at h
  cases h with
  | record htype =>
    simp only [GraphEntry.record.injEq, Site.ep_inj, true_and] at he
    obtain ⟨rfl, rfl⟩ := he
    exact htype
  | _ => simp at he

theorem Leaves.next_site {x : ExecPoint} (h : code.Leaves tid (.next (s.ep tid) x)) :
    ∃ s' : Site, x = s'.ep tid ∧ code.Next s s' := by
  generalize he : GraphEntry.next (s.ep tid) x = e at h
  cases h with
  | next hnext =>
    simp only [GraphEntry.next.injEq, Site.ep_inj, true_and] at he
    obtain ⟨rfl, rfl⟩ := he
    exact ⟨_, rfl, hnext⟩
  | _ => simp at he

theorem Leaves.first_site {direction : Nat} {x : ExecPoint}
    (h : code.Leaves tid (.first ⟨s.ep tid, direction⟩ x)) : x = (s.arm direction).ep tid ∧
      ∃ et, (code (s.arm direction)).bind (Instruction.type (s.arm direction)) = some et := by
  generalize he : GraphEntry.first ⟨s.ep tid, direction⟩ x = e at h
  cases h with
  | first htype hnotes =>
    simp only [GraphEntry.first.injEq, EPValue.mk.injEq, Site.ep_inj, true_and] at he
    obtain ⟨⟨rfl, rfl⟩, rfl⟩ := he
    exact ⟨rfl, _, hnotes⟩
  | _ => simp at he

theorem reaches_start : code.Reaches Control.start where
  free := rfl
  branches := by simp [Control.start, Site.start, Path.branches]
  loops := by simp [Control.start, Site.start, Path.loops]
  prev := by simp [Control.start]
  begin _ := Or.inl rfl

theorem Reaches.log {calls : List Annotation} (h : code.Reaches k) (hruns : code.Runs k calls) :
    ∀ e ∈ k.log tid calls, code.Leaves tid e := by
  induction calls generalizing k with
  | nil => simp [Control.log]
  | cons call calls ih =>
    obtain ⟨⟨i, hi, hallows⟩, hlegal, hrest⟩ := hruns
    intro e he
    rcases List.mem_append.mp he with he | he
    · exact h.leaves hi hallows hlegal e he
    · exact ih (h.move hi hallows hlegal) hrest e he

end Code

end SatCheck
