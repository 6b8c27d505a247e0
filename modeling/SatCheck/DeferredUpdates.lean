import SatCheck.ProvisionalName
/-!
# Naming the placeholders of all deferred updates

Any sequence of calls of `updateProvisionalName`.  The positions are kept in an `int`: they are
right as long as they stay below `2 ^ 31`, and one that leaves this range is lost.
-/

namespace SatCheck

open ProvisionalName Piece

variable {D : Type}

/-! ## All calls on one update -/

namespace Piece

variable [DecidableEq D]

def nameBy (calls : List (D × List Char)) (s : Piece D) : Piece D :=
  calls.foldl (fun s call => s.name call.1 call.2) s

theorem nameBy_cons (call : D × List Char) (calls : List (D × List Char)) (s : Piece D) :
    s.nameBy (call :: calls) = (s.name call.1 call.2).nameBy calls := rfl

private theorem nameBy_of_not_live (calls : List (D × List Char)) {s : Piece D}
    (h : s.live = false) :
    s.nameBy calls = s := by
  induction calls with
  | nil => rfl
  | cons call calls ih =>
    rw [nameBy_cons, name_other (by simp [h]), ih]

theorem nameBy_span (calls : List (D × List Char)) {s : Piece D} (h : s.live = true) :
    (s.nameBy calls).gap = s.gap ∧
      (s.nameBy calls).span = (firstName calls s.decl).getD s.span := by
  induction calls with
  | nil => exact ⟨rfl, rfl⟩
  | cons call calls ih =>
    rw [nameBy_cons]
    by_cases hdecl : call.1 = s.decl
    · rw [name_named ⟨h, hdecl⟩, nameBy_of_not_live _ rfl]
      simp [firstName, hdecl]
    · rw [name_other (by simp [hdecl]), firstName, List.find?_cons_of_neg (by simpa using hdecl)]
      exact ih

end Piece

def Update.nameAll [DecidableEq D] (u : Update D) (calls : List (D × List Char)) :
    Option (Update D) :=
  calls.foldlM (fun u call => u.nameOne call.1 call.2) u

namespace Update

variable [DecidableEq D] {u u' : Update D} {calls : List (D × List Char)}
  {pieces : List (Piece D)} {tail : List Char}

theorem nameAll_cons (call : D × List Char) :
    u.nameAll (call :: calls) = (u.nameOne call.1 call.2).bind fun u => u.nameAll calls := rfl

theorem nameOne_eq_some_iff {decl : D} {str : List Char} :
    u.nameOne decl str = some u' ↔
      nameLoop decl str u.pnames u.update = some (u'.update, u'.pnames) := by
  simp only [nameOne, Option.bind_eq_bind, Option.bind_eq_some_iff, Option.pure_def,
    Option.some_inj]
  constructor
  · rintro ⟨result, hloop, rfl⟩
    exact hloop
  · intro hloop
    exact ⟨_, hloop, rfl⟩

theorem nameOne_eq {due : D → Prop} {decl : D} {str : List Char} (hdue : due decl)
    (h : Holds due 0 pieces u.pnames) (hstrict : Strict pieces)
    (hfits : FitsCall due decl str 0 pieces) (htext : u.update = text pieces ++ tail) :
    ∃ u', u.nameOne decl str = some u' ∧ Holds due 0 (pieces.map (name decl str)) u'.pnames ∧
      u'.update = text (pieces.map (name decl str)) ++ tail := by
  obtain ⟨pnames', hloop, hholds⟩ :=
    nameLoop_eq hdue h hstrict hfits (List.length_nil : ([] : List Char).length = 0) tail
  rw [List.nil_append, List.nil_append, ← htext] at hloop
  exact ⟨⟨_, pnames'⟩, nameOne_eq_some_iff.mpr hloop, hholds, rfl⟩

theorem nameAll_eq (h : Holds (fun decl => decl ∈ calls.map Prod.fst) 0 pieces u.pnames)
    (hstrict : Strict pieces) (hfits : FitsCalls calls pieces)
    (htext : u.update = text pieces ++ tail) :
    ∃ u', u.nameAll calls = some u' ∧ u'.update = text (pieces.map (nameBy calls)) ++ tail := by
  induction calls generalizing u pieces with
  | nil =>
    have hid : pieces.map (nameBy []) = pieces := List.map_id'' (fun _ => rfl) pieces
    exact ⟨u, rfl, by rw [hid, htext]⟩
  | cons call calls ih =>
    obtain ⟨u₁, hone, hholds, htext⟩ := nameOne_eq (by simp) h hstrict hfits.1 htext
    have hrest : Holds (fun decl => decl ∈ calls.map Prod.fst) 0
        (pieces.map (name call.1 call.2)) u₁.pnames :=
      hholds.mono fun decl hdecl => List.mem_cons_of_mem _ hdecl
    obtain ⟨u', hall, htext⟩ := ih hrest hstrict.name hfits.2 htext
    refine ⟨u', ?_, ?_⟩
    · rw [nameAll_cons, hone, Option.bind_some, hall]
    · rw [htext, List.map_map]
      rfl

private theorem nameAll_dead (hdead : Dead (fun decl => decl ∈ calls.map Prod.fst) u.pnames) :
    u.nameAll calls = none := by
  induction calls generalizing u with
  | nil =>
    obtain ⟨v, -, -, hdue, -⟩ := hdead
    simp at hdue
  | cons call calls ih =>
    rw [nameAll_cons, Option.bind_eq_none_iff]
    intro u₁ hone
    obtain ⟨v, hv, henabled, ⟨hdue, hne⟩, hneg⟩ :=
      nameLoop_dead hdead (nameOne_eq_some_iff.mp hone)
    exact ih ⟨v, hv, henabled, (List.mem_cons.mp hdue).resolve_left hne, hneg⟩

/-- With names shorter than `2 ^ 31` the calls come to an end only with positions below `2 ^ 31`. -/
theorem fitsCalls_of_nameAll (hnames : ∀ call ∈ calls, call.2.length < 2 ^ 31)
    (h : Holds (fun decl => decl ∈ calls.map Prod.fst) 0 pieces u.pnames)
    (hbelow : Below (fun decl => decl ∈ calls.map Prod.fst) 0 pieces) (hstrict : Strict pieces)
    (htext : u.update = text pieces ++ tail) (hall : u.nameAll calls = some u') :
    FitsCalls calls pieces := by
  induction calls generalizing u pieces with
  | nil => trivial
  | cons call calls ih =>
    rw [nameAll_cons, Option.bind_eq_some_iff] at hall
    obtain ⟨u₁, hone, hall⟩ := hall
    have hlater : ∀ decl, decl ∈ calls.map Prod.fst → decl ∈ (call :: calls).map Prod.fst :=
      fun decl hdecl => List.mem_cons_of_mem _ hdecl
    have hfits : FitsCall (fun decl => decl ∈ (call :: calls).map Prod.fst) call.1 call.2 0
        pieces := by
      by_contra hfits
      obtain ⟨v, hv, henabled, ⟨hdue, hne⟩, hneg⟩ := nameLoop_not_fits (by simp)
        (hnames call List.mem_cons_self) h hbelow hstrict hfits (nameOne_eq_some_iff.mp hone)
      have hnone : u₁.nameAll calls = none := nameAll_dead
        ⟨v, hv, henabled, (List.mem_cons.mp hdue).resolve_left hne, hneg⟩
      simp [hnone] at hall
    obtain ⟨u₂, hone', hholds, htext⟩ := nameOne_eq (by simp) h hstrict hfits htext
    cases hone.symm.trans hone'
    exact ⟨hfits, ih (fun call hcall => hnames call (List.mem_cons_of_mem _ hcall))
      (hholds.mono hlater) ((hbelow.name hfits).mono hlater) hstrict.name htext hall⟩

end Update

/-! ## The pieces of a listed update -/

def endFrom : Nat → List (ProvisionalName D) → Nat
  | pos, [] => pos
  | _, v :: rest => endFrom (v.index.toNat + v.length) rest

/-- `Listed` for the placeholders from a position on. -/
structure ListedFrom (text : List Char) (pos : Nat) (pnames : List (ProvisionalName D)) : Prop where
  enabled : ∀ v ∈ pnames, v.enabled = true
  int : ∀ v ∈ pnames, (pos : Int) ≤ v.index ∧ v.index < 2 ^ 31
  inText : ∀ v ∈ pnames, v.index + v.length ≤ text.length
  increasing : pnames.Pairwise fun v w => v.index < w.index ∧
    v.index + (v.length : Int) ≤ w.index

section

variable {text : List Char} {pos : Nat} {pnames : List (ProvisionalName D)}
  {v : ProvisionalName D}

theorem ListedFrom.cons (h : ListedFrom text pos (v :: pnames)) :
    ∃ index : Nat, v.index = index ∧ pos ≤ index ∧ index < 2 ^ 31 ∧
      index + v.length ≤ text.length ∧ v.enabled = true ∧
      (∀ w ∈ pnames.head?, v.index < w.index) ∧ ListedFrom text (index + v.length) pnames := by
  have hv := List.mem_cons_self (a := v) (l := pnames)
  obtain ⟨hpos, hlt⟩ := h.int v hv
  have htext := h.inText v hv
  obtain ⟨hhead, htail⟩ := List.pairwise_cons.mp h.increasing
  refine ⟨v.index.toNat, by omega, by omega, by omega, by omega, h.enabled v hv, ?_, ?_⟩
  · intro w hw
    exact (hhead w (List.mem_of_mem_head? hw)).1
  · constructor
    · exact fun w hw => h.enabled w (List.mem_cons_of_mem _ hw)
    · intro w hw
      have := (hhead w hw).2
      have := (h.int w (List.mem_cons_of_mem _ hw)).2
      omega
    · exact fun w hw => h.inText w (List.mem_cons_of_mem _ hw)
    · exact htail

theorem Update.Listed.from {u : Update D} (h : u.Listed) : ListedFrom u.update 0 u.pnames where
  enabled := h.enabled
  int := h.int
  inText := h.inText
  increasing := h.increasing

private theorem drop_eq_cut {index : Nat} (hindex : v.index = index) (hpos : pos ≤ index) :
    text.drop pos = (Piece.cut text pos v).gap ++ (Piece.cut text pos v).span ++
      text.drop (index + v.length) := by
  have hgap := List.take_append_drop (index - pos) (text.drop pos)
  have hspan := List.take_append_drop v.length (text.drop index)
  rw [List.drop_drop, show pos + (index - pos) = index by omega] at hgap
  rw [List.drop_drop] at hspan
  rw [Piece.cut, hindex, Int.toNat_natCast, List.append_assoc, hspan, hgap]

theorem length_cut {index : Nat} (hindex : v.index = index)
    (htext : index + v.length ≤ text.length) :
    (Piece.cut text pos v).gap.length = index - pos ∧
      (Piece.cut text pos v).span.length = v.length := by
  simp only [Piece.cut, hindex, Int.toNat_natCast, List.length_take, List.length_drop]
  omega

theorem text_piecesFrom (h : ListedFrom text pos pnames) :
    Piece.text (piecesFrom text pos pnames) ++ text.drop (endFrom pos pnames) = text.drop pos := by
  induction pnames generalizing pos with
  | nil => simp [piecesFrom, endFrom, Piece.text]
  | cons v rest ih =>
    obtain ⟨index, hindex, hpos, -, -, -, -, hrest⟩ := h.cons
    rw [piecesFrom, endFrom, text_cons, hindex, Int.toNat_natCast, List.append_assoc, ih hrest]
    exact (drop_eq_cut hindex hpos).symm

theorem strict_piecesFrom (h : ListedFrom text pos pnames) :
    Strict (piecesFrom text pos pnames) := by
  induction pnames generalizing pos with
  | nil => exact .nil
  | cons v rest ih =>
    obtain ⟨index, hindex, -, -, htext, -, hnext, hrest⟩ := h.cons
    rw [piecesFrom, hindex, Int.toNat_natCast]
    refine List.isChain_cons.mpr ⟨?_, ih hrest⟩
    intro s hs _
    cases rest with
    | nil => simp [piecesFrom] at hs
    | cons w rest =>
      obtain ⟨index', hindex', hpos', -, htext', -⟩ := hrest.cons
      cases hs
      have := hnext w rfl
      rw [(length_cut hindex htext).2, (length_cut hindex' htext').1]
      omega

theorem holds_piecesFrom (due : D → Prop) (h : ListedFrom text pos pnames) :
    Holds due pos (piecesFrom text pos pnames) pnames := by
  induction pnames generalizing pos with
  | nil => exact .nil pos
  | cons v rest ih =>
    obtain ⟨index, hindex, hpos, -, htext, -, -, hrest⟩ := h.cons
    obtain ⟨hgap, hspan⟩ : (Piece.cut text pos v).gap.length = index - pos ∧
        (Piece.cut text pos v).span.length = v.length := length_cut hindex htext
    rw [piecesFrom, hindex, Int.toNat_natCast]
    refine .cons rfl rfl (fun _ => hspan.symm) ?_ ?_
    · intro _ _
      omega
    · rw [hgap, hspan, show pos + (index - pos) + v.length = index + v.length by omega]
      exact ih hrest

theorem below_piecesFrom (due : D → Prop) (h : ListedFrom text pos pnames) :
    Below due pos (piecesFrom text pos pnames) := by
  induction pnames generalizing pos with
  | nil => trivial
  | cons v rest ih =>
    obtain ⟨index, hindex, hpos, hlt, htext, -, -, hrest⟩ := h.cons
    obtain ⟨hgap, hspan⟩ : (Piece.cut text pos v).gap.length = index - pos ∧
        (Piece.cut text pos v).span.length = v.length := length_cut hindex htext
    rw [piecesFrom, hindex, Int.toNat_natCast]
    refine ⟨fun _ _ => by omega, ?_⟩
    rw [hgap, hspan, show pos + (index - pos) + v.length = index + v.length by omega]
    exact ih hrest

private theorem expectedFrom_eq [DecidableEq D] (calls : List (D × List Char))
    (h : ListedFrom text pos pnames) :
    expectedFrom calls text pos pnames =
      Piece.text ((piecesFrom text pos pnames).map (nameBy calls)) ++
        text.drop (endFrom pos pnames) := by
  induction pnames generalizing pos with
  | nil => simp [expectedFrom, piecesFrom, endFrom, Piece.text]
  | cons v rest ih =>
    obtain ⟨index, hindex, -, -, -, henabled, -, hrest⟩ := h.cons
    rw [← Int.toNat_natCast index, ← hindex] at hrest
    obtain ⟨hgap, hspan⟩ := nameBy_span calls (s := .cut text pos v) henabled
    rw [expectedFrom, piecesFrom, endFrom, List.map_cons, text_cons, ih hrest, hgap, hspan,
      ← List.append_assoc]
    rfl

end

/-! ## All calls on all updates -/

section

variable [DecidableEq D]

theorem Update.Listed.nameAll_eq {u : Update D} {calls : List (D × List Char)} (h : u.Listed)
    (hfits : u.Fits calls) :
    ∃ u', u.nameAll calls = some u' ∧ u'.update = u.expected calls := by
  have htext := text_piecesFrom h.from
  rw [List.drop_zero] at htext
  obtain ⟨u', hall, htext'⟩ := Update.nameAll_eq (holds_piecesFrom _ h.from)
    (strict_piecesFrom h.from) hfits htext.symm
  exact ⟨u', hall, by rw [htext', Update.expected, expectedFrom_eq calls h.from]⟩

theorem Update.Listed.fits {u u' : Update D} {calls : List (D × List Char)} (h : u.Listed)
    (hnames : ∀ call ∈ calls, call.2.length < 2 ^ 31) (hall : u.nameAll calls = some u') :
    u.Fits calls := by
  have htext := text_piecesFrom h.from
  rw [List.drop_zero] at htext
  exact Update.fitsCalls_of_nameAll hnames (holds_piecesFrom _ h.from) (below_piecesFrom _ h.from)
    (strict_piecesFrom h.from) htext.symm hall

theorem mapM_bind_mapM {α β γ : Type} (f : α → Option β) (g : β → Option γ) (l : List α) :
    (l.mapM f).bind (fun bs => bs.mapM g) = l.mapM fun a => (f a).bind g := by
  induction l with
  | nil => rfl
  | cons a l ih =>
    rw [List.mapM_cons, List.mapM_cons, ← ih]
    cases f a with
    | none => rfl
    | some b =>
      cases l.mapM f with
      | none => cases g b <;> simp
      | some bs => simp

theorem mapM_eq_some {α β γ : Type} {f : α → Option β} {view : β → γ} {spec : α → γ}
    {l : List α} (h : ∀ a ∈ l, ∃ b, f a = some b ∧ view b = spec a) :
    ∃ bs, l.mapM f = some bs ∧ bs.map view = l.map spec := by
  induction l with
  | nil => exact ⟨[], rfl, rfl⟩
  | cons a l ih =>
    obtain ⟨b, hb, hview⟩ := h a List.mem_cons_self
    obtain ⟨bs, hbs, hmap⟩ := ih fun a ha => h a (List.mem_cons_of_mem _ ha)
    exact ⟨b :: bs, by simp [List.mapM_cons, hb, hbs], by simp [hview, hmap]⟩

private theorem exists_of_mapM_eq_some {α β : Type} {f : α → Option β} {l : List α} {bs : List β}
    (h : l.mapM f = some bs) {a : α} (ha : a ∈ l) : ∃ b, f a = some b := by
  induction l generalizing bs with
  | nil => simp at ha
  | cons a' l ih =>
    simp only [List.mapM_cons, Option.bind_eq_bind, Option.bind_eq_some_iff] at h
    obtain ⟨b, hb, bs', hbs, -⟩ := h
    cases ha with
    | head => exact ⟨b, hb⟩
    | tail _ ha => exact ih hbs ha

theorem updateProvisionalNames_eq_mapM (updates : List (Update D))
    (calls : List (D × List Char)) :
    updateProvisionalNames updates calls = updates.mapM fun u => u.nameAll calls := by
  induction calls generalizing updates with
  | nil =>
    have hpure : (fun u : Update D => u.nameAll []) = fun u => pure u := rfl
    rw [hpure, List.mapM_pure, List.map_id']
    rfl
  | cons call calls ih =>
    calc
      updateProvisionalNames updates (call :: calls)
      _ = (updateProvisionalName updates call.1 call.2).bind fun us =>
            updateProvisionalNames us calls := rfl
      _ = (updates.mapM fun u : Update D => u.nameOne call.1 call.2).bind fun us =>
            us.mapM fun u => u.nameAll calls := by simp only [ih, updateProvisionalName]
      _ = updates.mapM fun u => u.nameAll (call :: calls) := by
          rw [mapM_bind_mapM]
          rfl

/-- All calls return, and each text has become what it should. -/
def TextsNamed (updates : List (Update D)) (calls : List (D × List Char)) : Prop :=
  ∃ updates', updateProvisionalNames updates calls = some updates' ∧
    updates'.map Update.update = updates.map (Update.expected calls)

theorem TextsNamed.exists_nameAll {updates : List (Update D)} {calls : List (D × List Char)}
    (h : TextsNamed updates calls) {u : Update D} (hu : u ∈ updates) :
    ∃ u', u.nameAll calls = some u' := by
  obtain ⟨updates', hall, -⟩ := h
  rw [updateProvisionalNames_eq_mapM] at hall
  exact exists_of_mapM_eq_some hall hu

/-- Each text gets the names of its placeholders as long as the positions fit an `int`.  With
names shorter than `2 ^ 31` this is the only case. -/
theorem textsNamed_iff {updates : List (Update D)} (h : ∀ u ∈ updates, u.Listed)
    (calls : List (D × List Char)) :
    ((∀ u ∈ updates, u.Fits calls) → TextsNamed updates calls) ∧
    ((∀ call ∈ calls, call.2.length < 2 ^ 31) →
      (TextsNamed updates calls ↔ ∀ u ∈ updates, u.Fits calls)) := by
  have hsound : (∀ u ∈ updates, u.Fits calls) → TextsNamed updates calls := by
    intro hfits
    rw [TextsNamed, updateProvisionalNames_eq_mapM]
    exact mapM_eq_some fun u hu => (h u hu).nameAll_eq (hfits u hu)
  refine ⟨hsound, fun hnames => ⟨?_, hsound⟩⟩
  intro hnamed u hu
  obtain ⟨u', hall⟩ := hnamed.exists_nameAll hu
  exact (h u hu).fits hnames hall

end

/-- `f(_x,_y,_x)`. -/
def shortUpdate : Update Nat where
  update := ['f', '(', '_', 'x', ',', '_', 'y', ',', '_', 'x', ')']
  pnames := [⟨2, 2, 0, true⟩, ⟨5, 2, 1, true⟩, ⟨8, 2, 0, true⟩]

theorem textsNamed_short :
    TextsNamed [shortUpdate] [(0, ['l', 'o', 'n', 'g']), (1, []), (0, ['s'])] ∧
      shortUpdate.expected [(0, ['l', 'o', 'n', 'g']), (1, []), (0, ['s'])] =
        ['f', '(', 'l', 'o', 'n', 'g', ',', ',', 'l', 'o', 'n', 'g', ')'] := by
  have hlisted : ∀ u ∈ [shortUpdate], u.Listed := by
    simp only [List.mem_singleton, forall_eq]
    constructor <;> decide
  refine ⟨(textsNamed_iff hlisted _).1 ?_, by decide⟩
  simp [Update.Fits, shortUpdate, piecesFrom, FitsCalls, FitsCall, Below, Piece.cut, name]

/-- `x`, `y` and `z`, the first two for one declaration. -/
def longUpdate : Update Bool where
  update := ['x', 'y', 'z']
  pnames := [⟨0, 1, false, true⟩, ⟨1, 1, false, true⟩, ⟨2, 1, true, true⟩]

private theorem not_fits_long {str : List Char} (hstr : str.length = 2 ^ 30) :
    ¬ longUpdate.Fits [(false, str), (true, ['b'])] := by
  simp [Update.Fits, longUpdate, piecesFrom, FitsCalls, FitsCall, Below, Piece.cut, hstr]

theorem not_textsNamed_long :
    longUpdate.Listed ∧
      ¬ TextsNamed [longUpdate] [(false, List.replicate (2 ^ 30) 'a'), (true, ['b'])] := by
  have hlisted : longUpdate.Listed := by
    constructor <;> decide
  refine ⟨hlisted, fun hnamed => ?_⟩
  generalize hstr : List.replicate (2 ^ 30) 'a' = str at hnamed
  have hlength : str.length = 2 ^ 30 := by rw [← hstr, List.length_replicate]
  obtain ⟨u', hall⟩ := hnamed.exists_nameAll List.mem_cons_self
  have hnames : ∀ call ∈ [(false, str), (true, ['b'])], call.2.length < 2 ^ 31 := by
    simp [hlength]
  exact not_fits_long hlength (hlisted.fits hnames hall)

end SatCheck
