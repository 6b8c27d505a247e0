import Mathlib.Data.List.Basic
import Mathlib.Data.List.Pairwise
import Mathlib.Tactic.Push
import Mathlib.Tactic.SplitIfs
/-!
# Finite maps as association lists

Keys are compared by a Boolean equivalence.  An entry keeps the key it was made with, and
new entries go to the end.
-/

namespace AssocMap

/-- A Boolean test that is an equivalence. -/
structure IsEquivalence {K : Type*} (same : K → K → Bool) : Prop where
  refl : ∀ a, same a a = true
  symm : ∀ a b, same a b = true → same b a = true
  trans : ∀ a b c, same a b = true → same b c = true → same a c = true

variable {K V : Type*} (same : K → K → Bool)

def get (m : List (K × V)) (key : K) : Option V :=
  (m.find? fun e => same e.1 key).map Prod.snd

def put (m : List (K × V)) (key : K) (val : V) : List (K × V) :=
  if m.any fun e => same e.1 key then m.map fun e => if same e.1 key then (e.1, val) else e
  else m ++ [(key, val)]

def remove (m : List (K × V)) (key : K) : List (K × V) :=
  m.filter fun e => !same e.1 key

/-- No two entries have the same key. -/
def Distinct (m : List (K × V)) : Prop :=
  m.Pairwise fun a b => same a.1 b.1 = false

variable {same} {m : List (K × V)} {key : K} {val : V}

theorem get_eq_none : get same m key = none ↔ ∀ e ∈ m, same e.1 key = false := by
  simp [get]

theorem Distinct.eq_of_same (hsame : IsEquivalence same) (h : Distinct same m) {a b : K × V}
    (ha : a ∈ m) (hb : b ∈ m) (hak : same a.1 key = true) (hbk : same b.1 key = true) : a = b := by
  by_contra hne
  have hab := hsame.trans a.1 key b.1 hak (hsame.symm b.1 key hbk)
  have : Std.Symm fun x y : K × V => same x.1 y.1 = false := by
    constructor
    intro x y hxy
    by_contra hyx
    rw [hsame.symm y.1 x.1 (by simpa using hyx)] at hxy
    exact absurd hxy (by simp)
  rw [List.Pairwise.forall h ha hb hne] at hab
  exact absurd hab (by simp)

theorem get_eq_some (hsame : IsEquivalence same) (h : Distinct same m) :
    get same m key = some val ↔ ∃ e ∈ m, same e.1 key = true ∧ e.2 = val := by
  unfold get
  constructor
  · intro hget
    obtain ⟨e, he, hval⟩ := Option.map_eq_some_iff.mp hget
    exact ⟨e, List.mem_of_find?_eq_some he, by simpa using List.find?_some he, hval⟩
  · rintro ⟨e, he, hkey, rfl⟩
    cases hfind : m.find? fun e => same e.1 key with
    | none => exact absurd hkey (by simpa using List.find?_eq_none.mp hfind e he)
    | some e' =>
      have hkey' : same e'.1 key = true := by simpa using List.find?_some hfind
      rw [h.eq_of_same hsame (List.mem_of_find?_eq_some hfind) he hkey' hkey]
      rfl

theorem mem_remove {e : K × V} : e ∈ remove same m key ↔ e ∈ m ∧ same e.1 key = false := by
  simp [remove]

theorem Distinct.remove (h : Distinct same m) (key : K) : Distinct same (remove same m key) :=
  h.filter _

theorem put_of_absent (h : ∀ e ∈ m, same e.1 key = false) :
    put same m key val = m ++ [(key, val)] := by
  unfold put
  rw [if_neg]
  simpa using h

theorem put_of_present (h : ∃ e ∈ m, same e.1 key = true) :
    put same m key val = m.map fun e => if same e.1 key then (e.1, val) else e := by
  unfold put
  rw [if_pos]
  simpa using h

theorem mem_put_of_absent (h : ∀ e ∈ m, same e.1 key = false) {e : K × V} :
    e ∈ put same m key val ↔ e ∈ m ∨ e = (key, val) := by
  rw [put_of_absent h, List.mem_append, List.mem_singleton]

theorem mem_put_of_present (h : ∃ e ∈ m, same e.1 key = true) {e : K × V} :
    e ∈ put same m key val ↔ (e ∈ m ∧ same e.1 key = false) ∨
      (same e.1 key = true ∧ e.2 = val ∧ ∃ old, (e.1, old) ∈ m) := by
  rw [put_of_present h, List.mem_map]
  constructor
  · rintro ⟨a, ha, rfl⟩
    split_ifs with hkey
    · exact Or.inr ⟨hkey, rfl, a.2, ha⟩
    · exact Or.inl ⟨ha, by simpa using hkey⟩
  · rintro (⟨he, hkey⟩ | ⟨hkey, hval, old, he⟩)
    · exact ⟨e, he, by simp [hkey]⟩
    · refine ⟨(e.1, old), he, ?_⟩
      rw [if_pos hkey, ← hval]

/-- Putting does not change the keys of present entries. -/
theorem Distinct.put (h : Distinct same m) (key : K) (val : V) :
    Distinct same (put same m key val) := by
  by_cases hpresent : ∃ e ∈ m, same e.1 key = true
  · rw [put_of_present hpresent]
    apply List.Pairwise.map _ _ h
    intro a b hab
    split_ifs <;> exact hab
  · push Not at hpresent
    have habsent : ∀ e ∈ m, same e.1 key = false := by simpa using hpresent
    rw [put_of_absent habsent]
    apply List.pairwise_append.mpr
    refine ⟨h, List.pairwise_singleton _ _, ?_⟩
    intro a ha b hb
    obtain rfl := List.mem_singleton.mp hb
    exact habsent a ha

/-- A key leads to the value that was put last. -/
theorem get_put (hsame : IsEquivalence same) (m : List (K × V)) (key a : K) (val : V) :
    get same (put same m key val) a = if same key a then some val else get same m a := by
  by_cases hpresent : ∃ e ∈ m, same e.1 key = true
  · have hkeys : ((fun e : K × V => same e.1 a) ∘
        fun e => if same e.1 key then (e.1, val) else e) = fun e => same e.1 a := by
      ext e
      simp only [Function.comp_apply]
      split_ifs <;> rfl
    unfold get
    rw [put_of_present hpresent, List.find?_map, hkeys, Option.map_map]
    cases hfind : m.find? fun e => same e.1 a with
    | none =>
      obtain ⟨e, he, hkey⟩ := hpresent
      have hea := List.find?_eq_none.mp hfind e he
      rw [if_neg]
      · rfl
      · intro hka
        exact hea (hsame.trans _ _ _ hkey hka)
    | some e =>
      have hea : same e.1 a = true := by simpa using List.find?_some hfind
      have hiff : same e.1 key = same key a := by
        rw [Bool.eq_iff_iff]
        exact ⟨fun h => hsame.trans _ _ _ (hsame.symm _ _ h) hea,
          fun h => hsame.trans _ _ _ hea (hsame.symm _ _ h)⟩
      simp only [Option.map_some, Function.comp_apply, hiff]
      split_ifs <;> rfl
  · have habsent : ∀ e ∈ m, same e.1 key = false := by simpa using hpresent
    unfold get
    rw [put_of_absent habsent, List.find?_append]
    split_ifs with hka
    · have hnone : (m.find? fun e => same e.1 a) = none := by
        apply List.find?_eq_none.mpr
        intro e he hea
        have hkey := hsame.trans _ _ _ hea (hsame.symm _ _ hka)
        simp [habsent e he] at hkey
      simp [hnone, hka]
    · simp [hka]

theorem length_put_of_present (h : ∃ e ∈ m, same e.1 key = true) :
    (put same m key val).length = m.length := by
  rw [put_of_present h, List.length_map]

theorem length_put_of_absent (h : ∀ e ∈ m, same e.1 key = false) :
    (put same m key val).length = m.length + 1 := by
  rw [put_of_absent h, List.length_append, List.length_singleton]

theorem remove_of_absent (h : ∀ e ∈ m, same e.1 key = false) :
    remove same m key = m := by
  unfold remove
  apply List.filter_eq_self.mpr
  simpa using h

/-- Removing a present key takes out its one entry. -/
theorem remove_split (hsame : IsEquivalence same) {pre post : List (K × V)} {e : K × V}
    (hd : Distinct same (pre ++ e :: post)) (he : same e.1 key = true) :
    remove same (pre ++ e :: post) key = pre ++ post := by
  have hother : ∀ a ∈ pre ++ e :: post, same a.1 key = true → a = e := fun a ha hak =>
    hd.eq_of_same hsame ha (by simp) hak he
  obtain ⟨_, hpost, hcross⟩ := List.pairwise_append.mp hd
  obtain ⟨hfirst, _⟩ := List.pairwise_cons.mp hpost
  have hirrefl : same e.1 e.1 = true := hsame.refl _
  have hpre' : ∀ a ∈ pre, same a.1 key = false := by
    intro a ha
    by_contra hak
    obtain rfl := hother a (by simp [ha]) (by simpa using hak)
    rw [hcross a ha a List.mem_cons_self] at hirrefl
    exact absurd hirrefl (by simp)
  have hpost' : ∀ a ∈ post, same a.1 key = false := by
    intro a ha
    by_contra hak
    obtain rfl := hother a (by simp [ha]) (by simpa using hak)
    rw [hfirst a ha] at hirrefl
    exact absurd hirrefl (by simp)
  have hpre := remove_of_absent hpre'
  have hrest := remove_of_absent hpost'
  unfold remove at hpre hrest ⊢
  rw [List.filter_append, List.filter_cons_of_neg (by simp [he]), hpre, hrest]

theorem length_remove_of_present (hsame : IsEquivalence same) (hd : Distinct same m)
    (h : ∃ e ∈ m, same e.1 key = true) :
    (remove same m key).length + 1 = m.length := by
  induction m with
  | nil => simp at h
  | cons a m ih =>
    obtain ⟨ha, hm⟩ := List.pairwise_cons.mp hd
    by_cases hak : same a.1 key = true
    · have habsent : ∀ e ∈ m, same e.1 key = false := by
        intro e he
        by_contra hek
        have := hsame.trans a.1 key e.1 hak (hsame.symm e.1 key (by simpa using hek))
        rw [ha e he] at this
        exact absurd this (by simp)
      have hrest := remove_of_absent habsent
      unfold remove at hrest ⊢
      rw [List.filter_cons_of_neg (by simp [hak]), hrest, List.length_cons]
    · have hpresent : ∃ e ∈ m, same e.1 key = true := by
        obtain ⟨e, he, hek⟩ := h
        rcases List.mem_cons.mp he with rfl | he
        · exact absurd hek hak
        · exact ⟨e, he, hek⟩
      have hrest := ih hm hpresent
      unfold remove at hrest ⊢
      rw [List.filter_cons_of_pos (by simp [hak]), List.length_cons, List.length_cons, ← hrest]

end AssocMap
