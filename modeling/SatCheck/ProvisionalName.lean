import Mathlib.Data.List.Chain
import Mathlib.Algebra.Group.Nat.Defs
import Mathlib.Algebra.Group.Int.Defs
/-!
# Placeholders of deferred updates

`updateProvisionalName` of `add_mc2_annotations.cpp`: when the name of a declaration becomes
known, it takes the place of the declaration's placeholders in the texts that are still to be
inserted, and the positions of the later placeholders move.
-/

namespace SatCheck

/-- `decl` is what `pname->getDecl()` gives. -/
structure ProvisionalName (D : Type) where
  index : Int
  length : Nat
  decl : D
  enabled : Bool

structure Update (D : Type) where
  update : List Char
  pnames : List (ProvisionalName D)

variable {D : Type}

namespace ProvisionalName

/-- The conversion of an integer to `int`. -/
def toInt32 (x : Int) : Int := Int.bmod x (2 ^ 32)

/-- The conversion of an integer to `size_t`. -/
def toSize (x : Int) : Int := x % 2 ^ 64

/-- `std::string::replace`.  `none`: it throws, the position is behind the end.  As a `size_t` a
negative position is behind the end of every string. -/
def replace (text : List Char) (pos : Int) (len : Nat) (str : List Char) : Option (List Char) :=
  if 0 ≤ pos ∧ pos ≤ text.length then
    some (text.take pos.toNat ++ str ++ text.drop (pos.toNat + len))
  else none

/-- The body of the inner loop, for a later placeholder `vv`. -/
def shift (v : ProvisionalName D) (mcVar : List Char) (vv : ProvisionalName D) :
    ProvisionalName D :=
  if vv.index > v.index then
    { vv with index := toInt32 (toSize (vv.index - toSize (v.length - mcVar.length))) }
  else vv

variable [DecidableEq D]

/-- The loop over the placeholders of one update, from some placeholder on. -/
def nameLoop (now_known : D) (mcVar : List Char) :
    List (ProvisionalName D) → List Char → Option (List Char × List (ProvisionalName D))
  | [], update => some (update, [])
  | v :: rest, update =>
    if v.enabled ∧ now_known = v.decl then do
      let update ← replace update v.index v.length mcVar
      let (update, rest) ← nameLoop now_known mcVar (rest.map (v.shift mcVar)) update
      return (update, { v with enabled := false } :: rest)
    else do
      let (update, rest) ← nameLoop now_known mcVar rest update
      return (update, v :: rest)
  termination_by pnames => pnames.length

end ProvisionalName

open ProvisionalName

section

variable [DecidableEq D]

def Update.nameOne (u : Update D) (now_known : D) (mcVar : List Char) : Option (Update D) := do
  let (update, pnames) ← nameLoop now_known mcVar u.pnames u.update
  return { update, pnames }

def updateProvisionalName (DeferredUpdates : List (Update D)) (now_known : D)
    (mcVar : List Char) : Option (List (Update D)) :=
  DeferredUpdates.mapM fun u => u.nameOne now_known mcVar

def updateProvisionalNames (DeferredUpdates : List (Update D)) (calls : List (D × List Char)) :
    Option (List (Update D)) :=
  calls.foldlM (fun updates call => updateProvisionalName updates call.1 call.2) DeferredUpdates

/-! ## What the texts should become -/

def firstName (calls : List (D × List Char)) (decl : D) : Option (List Char) :=
  (calls.find? fun call => call.1 = decl).map Prod.snd

/-- The text from `pos` on, the span of each named placeholder replaced by its first name. -/
def expectedFrom (calls : List (D × List Char)) (text : List Char) :
    Nat → List (ProvisionalName D) → List Char
  | pos, [] => text.drop pos
  | pos, v :: rest =>
    let gap := (text.drop pos).take (v.index.toNat - pos)
    let span := (text.drop v.index.toNat).take v.length
    gap ++ (firstName calls v.decl).getD span ++
      expectedFrom calls text (v.index.toNat + v.length) rest

def Update.expected (calls : List (D × List Char)) (u : Update D) : List Char :=
  expectedFrom calls u.update 0 u.pnames

end

/-- Placeholders by increasing position that do not overlap, none of them named yet. -/
structure Update.Listed (u : Update D) : Prop where
  enabled : ∀ v ∈ u.pnames, v.enabled = true
  int : ∀ v ∈ u.pnames, 0 ≤ v.index ∧ v.index < 2 ^ 31
  inText : ∀ v ∈ u.pnames, v.index + v.length ≤ u.update.length
  increasing : u.pnames.Pairwise fun v w => v.index < w.index ∧
    v.index + (v.length : Int) ≤ w.index

/-! ## Texts in pieces -/

/-- A placeholder with the text in front of it.  `span` is the placeholder's text as long as it
is live, then its name. -/
structure Piece (D : Type) where
  gap : List Char
  span : List Char
  decl : D
  live : Bool

namespace Piece

def text (pieces : List (Piece D)) : List Char := pieces.flatMap fun s => s.gap ++ s.span

def name [DecidableEq D] (decl : D) (str : List Char) (s : Piece D) : Piece D :=
  if s.live ∧ decl = s.decl then { s with span := str, live := false } else s

/-- Each placeholder that is still to be named is at a position that fits an `int`. -/
def Below (due : D → Prop) : Nat → List (Piece D) → Prop
  | _, [] => True
  | pos, s :: pieces =>
    (s.live → due s.decl → pos + s.gap.length < 2 ^ 31) ∧
      Below due (pos + s.gap.length + s.span.length) pieces

/-- So it is after each replacement of a call. -/
def FitsCall [DecidableEq D] (due : D → Prop) (decl : D) (str : List Char) :
    Nat → List (Piece D) → Prop
  | _, [] => True
  | pos, s :: pieces =>
    if s.live ∧ decl = s.decl then
      Below due (pos + s.gap.length + str.length) pieces ∧
        FitsCall due decl str (pos + s.gap.length + str.length) pieces
    else FitsCall due decl str (pos + s.gap.length + s.span.length) pieces

/-- So it is throughout the calls, for the placeholders that the call or a later one names. -/
def FitsCalls [DecidableEq D] : List (D × List Char) → List (Piece D) → Prop
  | [], _ => True
  | call :: calls, pieces =>
    FitsCall (fun decl => decl ∈ (call :: calls).map Prod.fst) call.1 call.2 0 pieces ∧
      FitsCalls calls (pieces.map (name call.1 call.2))

end Piece

/-- A placeholder with the text from `pos` on in front of it. -/
def Piece.cut (text : List Char) (pos : Nat) (v : ProvisionalName D) : Piece D where
  gap := (text.drop pos).take (v.index.toNat - pos)
  span := (text.drop v.index.toNat).take v.length
  decl := v.decl
  live := v.enabled

/-- The pieces of a text from `pos` on, as far as the end of the last placeholder. -/
def piecesFrom (text : List Char) : Nat → List (ProvisionalName D) → List (Piece D)
  | _, [] => []
  | pos, v :: rest => .cut text pos v :: piecesFrom text (v.index.toNat + v.length) rest

/-- Through all replacements that the calls make, every placeholder that the current or a later
call names stays at a position below `2 ^ 31`. -/
def Update.Fits [DecidableEq D] (calls : List (D × List Char)) (u : Update D) : Prop :=
  Piece.FitsCalls calls (piecesFrom u.update 0 u.pnames)

/-! ## One call on one update -/

namespace Piece

theorem Below.mono {due due' : D → Prop} (hdue : ∀ decl, due' decl → due decl) {pos : Nat}
    {pieces : List (Piece D)} (h : Below due pos pieces) : Below due' pos pieces := by
  induction pieces generalizing pos with
  | nil => trivial
  | cons s pieces ih => exact ⟨fun hlive hs => h.1 hlive (hdue _ hs), ih h.2⟩

/-- The placeholders of a text in pieces that starts at `pos`.  The positions are right for the
ones that are still to be named. -/
inductive Holds (due : D → Prop) : Nat → List (Piece D) → List (ProvisionalName D) → Prop
  | nil (pos : Nat) : Holds due pos [] []
  | cons {pos : Nat} {s : Piece D} {v : ProvisionalName D} {pieces : List (Piece D)}
      {pnames : List (ProvisionalName D)} (hdecl : v.decl = s.decl) (henabled : v.enabled = s.live)
      (hlength : s.live → v.length = s.span.length)
      (hindex : s.live → due s.decl → v.index = pos + s.gap.length)
      (hrest : Holds due (pos + s.gap.length + s.span.length) pieces pnames) :
      Holds due pos (s :: pieces) (v :: pnames)

/-- Live placeholders are at increasing positions. -/
def Strict : List (Piece D) → Prop :=
  List.IsChain fun s s' => s.live → 0 < s.span.length + s'.gap.length

variable {due : D → Prop} {pos : Nat} {pieces : List (Piece D)}
  {pnames : List (ProvisionalName D)} {decl : D} {str : List Char}

theorem Holds.mono {due' : D → Prop} (hdue : ∀ decl, due' decl → due decl)
    (h : Holds due pos pieces pnames) : Holds due' pos pieces pnames := by
  induction h with
  | nil pos => exact .nil pos
  | cons hdecl henabled hlength hindex hrest ih =>
    exact .cons hdecl henabled hlength (fun hlive hs => hindex hlive (hdue _ hs)) ih

private theorem toInt32_of_lt {x : Int} (hpos : 0 ≤ x) (hlt : x < 2 ^ 31) : toInt32 x = x := by
  simp only [toInt32, Int.bmod]
  omega

@[simp] theorem shift_decl (v vv : ProvisionalName D) : (v.shift str vv).decl = vv.decl := by
  unfold shift
  split_ifs <;> rfl

@[simp] theorem shift_enabled (v vv : ProvisionalName D) :
    (v.shift str vv).enabled = vv.enabled := by
  unfold shift
  split_ifs <;> rfl

@[simp] theorem shift_length (v vv : ProvisionalName D) :
    (v.shift str vv).length = vv.length := by
  unfold shift
  split_ifs <;> rfl

theorem shift_index {v vv : ProvisionalName D} (h : v.index < vv.index) :
    (v.shift str vv).index = toInt32 (vv.index - v.length + str.length) := by
  simp only [shift, gt_iff_lt, if_pos h, toInt32, toSize, Int.bmod]
  omega

/-- After a replacement the later placeholders are shifted to their new positions. -/
theorem Holds.shift {v : ProvisionalName D} {pos' : Nat}
    (h : Holds due pos pieces pnames) (hbelow : Below due pos' pieces)
    (hpos : (pos' : Int) = pos - v.length + str.length)
    (hfirst : ∀ s ∈ pieces.head?, v.index < pos + s.gap.length) :
    Holds due pos' pieces (pnames.map (v.shift str)) := by
  induction h generalizing pos' with
  | nil pos => exact .nil pos'
  | @cons pos s vv pieces pnames hdecl henabled hlength hindex hrest ih =>
    have hs := hfirst s rfl
    refine .cons (by simpa using hdecl) (by simpa using henabled) (by simpa using hlength) ?_ ?_
    · intro hlive hdue
      have hfits := hbelow.1 hlive hdue
      have hvv := hindex hlive hdue
      rw [shift_index (by omega), hvv]
      rw [show (pos + s.gap.length : Int) - v.length + str.length = pos' + s.gap.length by omega]
      exact toInt32_of_lt (by omega) (by omega)
    · refine ih hbelow.2 (by push_cast; omega) ?_
      intro s' hs'
      push_cast
      omega

/-- Where the pieces behind a named placeholder start, and that they are behind it. -/
theorem shift_start {s : Piece D} {v : ProvisionalName D} (hindex : v.index = pos + s.gap.length)
    (hlength : v.length = s.span.length)
    (hfirst : ∀ s' ∈ pieces.head?, 0 < s.span.length + s'.gap.length) :
    ((pos + s.gap.length + str.length : Nat) : Int) =
        (pos + s.gap.length + s.span.length : Nat) - v.length + str.length ∧
      ∀ s' ∈ pieces.head?,
        v.index < (pos + s.gap.length + s.span.length : Nat) + s'.gap.length := by
  refine ⟨by push_cast; omega, ?_⟩
  intro s' hs'
  have := hfirst s' hs'
  push_cast
  omega

/-- A placeholder that is still to be named has lost its position. -/
def Dead (due : D → Prop) (pnames : List (ProvisionalName D)) : Prop :=
  ∃ v ∈ pnames, v.enabled = true ∧ due v.decl ∧ v.index < 0

private theorem toInt32_neg {x : Int} (hge : 2 ^ 31 ≤ x) (hlt : x < 2 ^ 32) : toInt32 x < 0 := by
  simp only [toInt32, Int.bmod]
  omega

/-- A placeholder that a replacement moves out of the range of `int` gets a negative position. -/
theorem Holds.shift_dead {v : ProvisionalName D} {pos' : Nat}
    (h : Holds due pos pieces pnames) (hbelow : Below due pos pieces)
    (habove : ¬ Below due pos' pieces) (hstr : str.length < 2 ^ 31)
    (hpos : (pos' : Int) = pos - v.length + str.length)
    (hfirst : ∀ s ∈ pieces.head?, v.index < pos + s.gap.length) :
    Dead due (pnames.map (v.shift str)) := by
  induction h generalizing pos' with
  | nil pos => exact absurd trivial habove
  | @cons pos s vv pieces pnames hdecl henabled hlength hindex hrest ih =>
    have hs := hfirst s rfl
    by_cases hfits : s.live → due s.decl → pos' + s.gap.length < 2 ^ 31
    · obtain ⟨w, hw, hdead⟩ := ih hbelow.2 (fun hrest => habove ⟨hfits, hrest⟩)
        (by push_cast; omega) (by intro s' hs'; push_cast; omega)
      exact ⟨w, List.mem_cons_of_mem _ hw, hdead⟩
    · obtain ⟨hlive, hdue, hover⟩ : s.live ∧ due s.decl ∧ ¬ pos' + s.gap.length < 2 ^ 31 := by
        simpa only [Classical.not_imp] using hfits
      have hold := hbelow.1 hlive hdue
      have hvv := hindex hlive hdue
      refine ⟨v.shift str vv, List.mem_cons_self, ?_, ?_, ?_⟩
      · rw [shift_enabled, henabled, hlive]
      · rwa [shift_decl, hdecl]
      · rw [shift_index (by omega), hvv]
        exact toInt32_neg (by omega) (by omega)

theorem replace_span (before span after : List Char) :
    replace (before ++ span ++ after) before.length span.length str =
      some (before ++ str ++ after) := by
  have hle : (before.length : Int) ≤ (before ++ span ++ after).length := by
    simp only [List.length_append]
    omega
  have htake : (before ++ span ++ after).take before.length = before := by simp
  have hdrop : (before ++ span ++ after).drop (before.length + span.length) = after :=
    List.drop_left' (by simp)
  rw [replace, if_pos ⟨by omega, hle⟩, Int.toNat_natCast, htake, hdrop]

@[simp] theorem text_cons (s : Piece D) (pieces : List (Piece D)) :
    text (s :: pieces) = s.gap ++ s.span ++ text pieces := by
  simp [text]

theorem Strict.cons {s : Piece D} (h : Strict (s :: pieces)) :
    (s.live → ∀ s' ∈ pieces.head?, 0 < s.span.length + s'.gap.length) ∧ Strict pieces := by
  obtain ⟨hfirst, hrest⟩ := List.isChain_cons.mp h
  exact ⟨fun hlive s' hs' => hfirst s' hs' hlive, hrest⟩

section

variable [DecidableEq D]

theorem name_named {s : Piece D} (h : s.live ∧ decl = s.decl) :
    s.name decl str = { s with span := str, live := false } :=
  if_pos h

theorem name_other {s : Piece D} (h : ¬ (s.live ∧ decl = s.decl)) : s.name decl str = s :=
  if_neg h

@[simp] theorem name_gap (s : Piece D) : (s.name decl str).gap = s.gap := by
  unfold name
  split_ifs <;> rfl

theorem Strict.name (h : Strict pieces) : Strict (pieces.map (name decl str)) := by
  refine List.isChain_map_of_isChain _ ?_ h
  intro s s' hs hlive
  by_cases hnamed : s.live ∧ decl = s.decl
  · simp [name_named hnamed] at hlive
  · rw [name_other hnamed] at hlive ⊢
    rw [name_gap]
    exact hs hlive

theorem fitsCall_named {s : Piece D} (h : s.live ∧ decl = s.decl) :
    FitsCall due decl str pos (s :: pieces) ↔
      Below due (pos + s.gap.length + str.length) pieces ∧
        FitsCall due decl str (pos + s.gap.length + str.length) pieces := by
  rw [FitsCall, if_pos h]

theorem fitsCall_other {s : Piece D} (h : ¬ (s.live ∧ decl = s.decl)) :
    FitsCall due decl str pos (s :: pieces) ↔
      FitsCall due decl str (pos + s.gap.length + s.span.length) pieces := by
  rw [FitsCall, if_neg h]

theorem nameLoop_named {v : ProvisionalName D} {update update' : List Char}
    {pnames' : List (ProvisionalName D)} (hnamed : v.enabled ∧ decl = v.decl) :
    nameLoop decl str (v :: pnames) update = some (update', pnames') ↔
      ∃ replaced rest, replace update v.index v.length str = some replaced ∧
        nameLoop decl str (pnames.map (v.shift str)) replaced = some (update', rest) ∧
        pnames' = { v with enabled := false } :: rest := by
  rw [nameLoop, if_pos hnamed]
  simp only [Option.bind_eq_bind, Option.bind_eq_some_iff, Option.pure_def, Option.some_inj,
    Prod.mk.injEq, Prod.exists]
  constructor
  · rintro ⟨replaced, hreplace, _, rest, hloop, rfl, rfl⟩
    exact ⟨replaced, rest, hreplace, hloop, rfl⟩
  · rintro ⟨replaced, rest, hreplace, hloop, rfl⟩
    exact ⟨replaced, hreplace, _, rest, hloop, rfl, rfl⟩

theorem nameLoop_other {v : ProvisionalName D} {update update' : List Char}
    {pnames' : List (ProvisionalName D)} (hother : ¬ (v.enabled ∧ decl = v.decl)) :
    nameLoop decl str (v :: pnames) update = some (update', pnames') ↔
      ∃ rest, nameLoop decl str pnames update = some (update', rest) ∧ pnames' = v :: rest := by
  rw [nameLoop, if_neg hother]
  simp only [Option.bind_eq_bind, Option.bind_eq_some_iff, Option.pure_def, Option.some_inj,
    Prod.mk.injEq, Prod.exists]
  constructor
  · rintro ⟨_, rest, hloop, rfl, rfl⟩
    exact ⟨rest, hloop, rfl⟩
  · rintro ⟨rest, hloop, rfl⟩
    exact ⟨_, rest, hloop, rfl, rfl⟩

/-- The loop names the placeholders of the declaration and keeps the positions right. -/
theorem nameLoop_eq (hdue : due decl) (h : Holds due pos pieces pnames) (hstrict : Strict pieces)
    (hfits : FitsCall due decl str pos pieces) {before : List Char} (hbefore : before.length = pos)
    (tail : List Char) :
    ∃ pnames', nameLoop decl str pnames (before ++ text pieces ++ tail) =
        some (before ++ text (pieces.map (name decl str)) ++ tail, pnames') ∧
      Holds due pos (pieces.map (name decl str)) pnames' := by
  induction pieces generalizing pos pnames before with
  | nil =>
    cases h
    exact ⟨[], by simp [nameLoop, text], .nil pos⟩
  | cons s pieces ih =>
    cases h with
    | @cons _ _ v _ rest hdecl henabled hlength hindex hrest =>
      obtain ⟨hfirst, hstrict⟩ := hstrict.cons
      by_cases hnamed : s.live ∧ decl = s.decl
      · have hv := hindex hnamed.1 (hnamed.2 ▸ hdue)
        have hlength := hlength hnamed.1
        rw [fitsCall_named hnamed] at hfits
        obtain ⟨hpos, hfirst⟩ := shift_start hv hlength (hfirst hnamed.1)
        have hbefore' : (before ++ s.gap ++ str).length = pos + s.gap.length + str.length := by
          simp only [List.length_append, hbefore]
        obtain ⟨pnames', hloop, hholds⟩ :=
          ih (hrest.shift hfits.1 hpos hfirst) hstrict hfits.2 hbefore'
        have hreplace : replace (before ++ s.gap ++ s.span ++ (text pieces ++ tail)) v.index
            v.length str = some (before ++ s.gap ++ str ++ (text pieces ++ tail)) := by
          have hplace : v.index = (before ++ s.gap).length := by simp [hbefore, hv]
          rw [hplace, hlength]
          exact replace_span ..
        rw [List.map_cons, name_named hnamed]
        refine ⟨{ v with enabled := false } :: pnames', ?_, ?_⟩
        · rw [nameLoop_named (by rwa [henabled, hdecl])]
          simp only [text_cons, List.append_assoc] at hloop hreplace ⊢
          exact ⟨_, pnames', hreplace, hloop, rfl⟩
        · exact .cons hdecl rfl (by simp) (by simp) hholds
      · rw [fitsCall_other hnamed] at hfits
        have hbefore' : (before ++ s.gap ++ s.span).length =
            pos + s.gap.length + s.span.length := by
          simp only [List.length_append, hbefore]
        obtain ⟨pnames', hloop, hholds⟩ := ih hrest hstrict hfits hbefore'
        rw [List.map_cons, name_other hnamed]
        refine ⟨v :: pnames', ?_, .cons hdecl henabled hlength hindex hholds⟩
        rw [nameLoop_other (by rwa [henabled, hdecl])]
        simp only [text_cons, List.append_assoc] at hloop ⊢
        exact ⟨pnames', hloop, rfl⟩

private theorem replace_index {before after : List Char} {index : Int} {length : Nat}
    (h : replace before index length str = some after) : 0 ≤ index := by
  unfold replace at h
  split_ifs at h with hindex
  exact hindex.1

theorem nameLoop_dead {update update' : List Char} {pnames' : List (ProvisionalName D)}
    (hdead : Dead due pnames) (hloop : nameLoop decl str pnames update = some (update', pnames')) :
    Dead (fun d => due d ∧ d ≠ decl) pnames' := by
  induction pnames, update using nameLoop.induct decl str generalizing update' pnames' with
  | case1 update =>
    obtain ⟨v, hv, -⟩ := hdead
    simp at hv
  | case2 v rest update hnamed ih =>
    simp only [List.map_subtype, List.unattach_attach] at ih
    obtain ⟨replaced, rest', hreplace, hrest, rfl⟩ := (nameLoop_named hnamed).mp hloop
    have hindex := replace_index hreplace
    obtain ⟨w, hw, henabled, hdue, hneg⟩ := hdead
    rcases List.mem_cons.mp hw with rfl | hw
    · omega
    have hkept : v.shift str w = w := if_neg (by omega)
    obtain ⟨w', hw', hstill⟩ :=
      ih replaced ⟨w, List.mem_map.mpr ⟨w, hw, hkept⟩, henabled, hdue, hneg⟩ hrest
    exact ⟨w', List.mem_cons_of_mem _ hw', hstill⟩
  | case3 v rest update hother ih =>
    obtain ⟨rest', hrest, rfl⟩ := (nameLoop_other hother).mp hloop
    obtain ⟨w, hw, henabled, hdue, hneg⟩ := hdead
    rcases List.mem_cons.mp hw with rfl | hw
    · have hne : w.decl ≠ decl := fun heq => hother ⟨henabled, heq.symm⟩
      exact ⟨w, List.mem_cons_self, henabled, ⟨hdue, hne⟩, hneg⟩
    · obtain ⟨w', hw', hstill⟩ := ih ⟨w, hw, henabled, hdue, hneg⟩ hrest
      exact ⟨w', List.mem_cons_of_mem _ hw', hstill⟩

/-- A call that moves such a placeholder too far leaves it without its position. -/
theorem nameLoop_not_fits {update update' : List Char} {pnames' : List (ProvisionalName D)}
    (hdue : due decl) (hstr : str.length < 2 ^ 31) (h : Holds due pos pieces pnames)
    (hbelow : Below due pos pieces) (hstrict : Strict pieces)
    (hfits : ¬ FitsCall due decl str pos pieces)
    (hloop : nameLoop decl str pnames update = some (update', pnames')) :
    Dead (fun d => due d ∧ d ≠ decl) pnames' := by
  induction pieces generalizing pos pnames update update' pnames' with
  | nil => exact absurd trivial hfits
  | cons s pieces ih =>
    cases h with
    | @cons _ _ v _ rest hdecl henabled hlength hindex hrest =>
      obtain ⟨hfirst, hstrict⟩ := hstrict.cons
      by_cases hnamed : s.live ∧ decl = s.decl
      · rw [fitsCall_named hnamed] at hfits
        rw [nameLoop_named (by rwa [henabled, hdecl])] at hloop
        obtain ⟨replaced, rest', -, hloop, rfl⟩ := hloop
        obtain ⟨hpos, hfirst⟩ := shift_start (hindex hnamed.1 (hnamed.2 ▸ hdue))
          (hlength hnamed.1) (hfirst hnamed.1)
        have hdead : Dead (fun d => due d ∧ d ≠ decl) rest' := by
          by_cases hnew : Below due (pos + s.gap.length + str.length) pieces
          · exact ih (hrest.shift hnew hpos hfirst) hnew hstrict (fun hcall => hfits ⟨hnew, hcall⟩)
              hloop
          · exact nameLoop_dead (hrest.shift_dead hbelow.2 hnew hstr hpos hfirst) hloop
        obtain ⟨w, hw, hdead⟩ := hdead
        exact ⟨w, List.mem_cons_of_mem _ hw, hdead⟩
      · rw [fitsCall_other hnamed] at hfits
        rw [nameLoop_other (by rwa [henabled, hdecl])] at hloop
        obtain ⟨rest', hloop, rfl⟩ := hloop
        obtain ⟨w, hw, hdead⟩ := ih hrest hbelow.2 hstrict hfits hloop
        exact ⟨w, List.mem_cons_of_mem _ hw, hdead⟩

theorem Below.name (h : Below due pos pieces) (hfits : FitsCall due decl str pos pieces) :
    Below due pos (pieces.map (name decl str)) := by
  induction pieces generalizing pos with
  | nil => trivial
  | cons s pieces ih =>
    by_cases hnamed : s.live ∧ decl = s.decl
    · rw [fitsCall_named hnamed] at hfits
      rw [List.map_cons, name_named hnamed]
      exact ⟨by simp, ih hfits.1 hfits.2⟩
    · rw [fitsCall_other hnamed] at hfits
      rw [List.map_cons, name_other hnamed]
      exact ⟨h.1, ih h.2 hfits⟩

end

end Piece

end SatCheck
