import SatCheck.ExecPoint
import Mathlib.Data.Nat.Bitwise
import Mathlib.Order.Interval.Set.Basic
import Mathlib.Order.CompletePartialOrder
import Mathlib.Data.Set.BooleanAlgebra
/-!
# Allocation sites

`MCExecution::alloc` over the bump allocator `real_user_malloc`.  The records of the sites
and the allocation pointer outlive a run.  A site gets the same address in every run; it may
ask for up to twice its first size, while only that size was reserved.
-/

namespace SatCheck

/-- The fields of an `ALLOC` record. -/
structure AllocRecord where
  size : UInt64
  ptr : UInt64

/-- `asserts` when the program is built with `CONFIG_ASSERT`. -/
structure Allocator where
  allocation_ptr : UInt64
  top_ptr : UInt64
  asserts : Bool
  records : ExecPoint → Option AllocRecord

/-- A call of `alloc`: the execution point and the size. -/
structure AllocRequest where
  site : ExecPoint
  size : UInt64
  deriving DecidableEq

namespace Allocator

/-- `(size+7)&~7`. -/
def aligned (size : UInt64) : UInt64 := (size + 7) &&& ~~~7

def real_user_malloc (s : Allocator) (size : UInt64) : Option (Allocator × UInt64) :=
  let s' := { s with allocation_ptr := s.allocation_ptr + aligned size }
  if s.asserts ∧ ¬ s'.allocation_ptr ≤ s'.top_ptr then none else some (s', s.allocation_ptr)

/-- `none` is the exit at a size that is not accepted. -/
def alloc (s : Allocator) (r : AllocRequest) : Option (Allocator × UInt64) :=
  match s.records r.site with
  | none => do
      let allocsize := aligned (r.size <<< 1)
      let (s, ptr) ← s.real_user_malloc r.size
      some ({ s with records := fun site =>
        if site = r.site then some ⟨allocsize, ptr⟩ else s.records site }, ptr)
  | some record =>
      if r.size > record.size then none else some (s, record.ptr)

def run (s : Allocator) (handed : List (AllocRequest × UInt64)) :
    List AllocRequest → Option (Allocator × List (AllocRequest × UInt64))
  | [] => some (s, handed)
  | r :: rs => do
      let (s, ptr) ← s.alloc r
      s.run ((r, ptr) :: handed) rs

def runs (s : Allocator) : List (List AllocRequest) → Option Allocator
  | [] => some s
  | r :: rs => do
      let (s, _) ← s.run [] r
      s.runs rs

def bytes (h : AllocRequest × UInt64) : Set Nat := Set.Ico h.2.toNat (h.2.toNat + h.1.size.toNat)

/-- What was handed out lies below the allocation pointer, and different sites share no byte. -/
structure Separate (s : Allocator) (handed : List (AllocRequest × UInt64)) : Prop where
  below : ∀ h ∈ handed, h.2.toNat + h.1.size.toNat ≤ s.allocation_ptr.toNat
  disjoint : ∀ h ∈ handed, ∀ h' ∈ handed, h.1.site ≠ h'.1.site → Disjoint (bytes h) (bytes h')

/-! ## When the sites stay apart -/

def firstSize (earlier : List AllocRequest) (site : ExecPoint) : Option UInt64 :=
  (earlier.find? fun r => r.site = site).map AllocRequest.size

/-- A first request does not wrap around, a later one asks for no more than was reserved. -/
def Fits (s : Allocator) (earlier : List AllocRequest) (r : AllocRequest) : Prop :=
  match firstSize earlier r.site with
  | none => r.size.toNat + 7 < 2 ^ 64 ∧
      s.allocation_ptr.toNat + (aligned r.size).toNat < 2 ^ 64
  | some size => r.size ≤ aligned size

instance (s : Allocator) (earlier : List AllocRequest) (r : AllocRequest) :
    Decidable (s.Fits earlier r) :=
  match h : firstSize earlier r.site with
  | none => decidable_of_iff (r.size.toNat + 7 < 2 ^ 64 ∧
      s.allocation_ptr.toNat + (aligned r.size).toNat < 2 ^ 64) (by simp [Fits, h])
  | some size => decidable_of_iff (r.size ≤ aligned size) (by simp [Fits, h])

/-- Every request of the run fits, where `earlier` are the ones before it. -/
def AllFit (s : Allocator) (earlier : List AllocRequest) : List AllocRequest → Prop
  | [] => True
  | r :: rs => s.Fits earlier r ∧ ∀ r' ∈ s.alloc r, r'.1.AllFit (earlier ++ [r]) rs

def RunsFit (s : Allocator) (earlier : List AllocRequest) : List (List AllocRequest) → Prop
  | [] => True
  | r :: rs => s.AllFit earlier r ∧ ∀ r' ∈ s.run [] r, r'.1.RunsFit (earlier ++ r) rs

instance decidableAllFit :
    ∀ (s : Allocator) (earlier rs : List AllocRequest), Decidable (s.AllFit earlier rs)
  | _, _, [] => isTrue trivial
  | s, earlier, r :: rs =>
      have (r' : Allocator × UInt64) := decidableAllFit r'.1 (earlier ++ [r]) rs
      inferInstanceAs (Decidable (s.Fits earlier r ∧
        ∀ r' ∈ s.alloc r, r'.1.AllFit (earlier ++ [r]) rs))

instance decidableRunsFit :
    ∀ (s : Allocator) (earlier : List AllocRequest) (rs : List (List AllocRequest)),
      Decidable (s.RunsFit earlier rs)
  | _, _, [] => isTrue trivial
  | s, earlier, r :: rs =>
      have (r' : Allocator × List (AllocRequest × UInt64)) :=
        decidableRunsFit r'.1 (earlier ++ r) rs
      inferInstanceAs (Decidable (s.AllFit earlier r ∧
        ∀ r' ∈ s.run [] r, r'.1.RunsFit (earlier ++ r) rs))

/-! ## Reserved bytes -/

private theorem land_clear_three {x : Nat} (h : x < 2 ^ 64) : x &&& (2 ^ 64 - 8) = x / 8 * 8 := by
  have hmask : 2 ^ 64 - 8 = (2 ^ 61 - 1) <<< 3 := by decide
  have hshift : x / 8 * 8 = (x >>> 3) <<< 3 := by
    rw [Nat.shiftLeft_eq, Nat.shiftRight_eq_div_pow]
  rw [hmask, hshift]
  apply Nat.eq_of_testBit_eq
  intro i
  rw [Nat.testBit_and, Nat.testBit_shiftLeft, Nat.testBit_two_pow_sub_one, Nat.testBit_shiftLeft,
    Nat.testBit_shiftRight]
  by_cases hlow : 3 ≤ i
  · rw [show 3 + (i - 3) = i by omega]
    by_cases hhigh : i < 64
    · simp [hlow, show i - 3 < 61 by omega]
    · have hzero : x.testBit i = false :=
        Nat.testBit_lt_two_pow (h.trans_le (Nat.pow_le_pow_right (by omega) (by omega)))
      simp [hzero]
  · simp [hlow]

private theorem aligned_toNat {size : UInt64} (h : size.toNat + 7 < 2 ^ 64) :
    (aligned size).toNat = (size.toNat + 7) / 8 * 8 := by
  unfold aligned
  rw [UInt64.toNat_and, UInt64.toNat_add]
  show (size.toNat + 7) % 2 ^ 64 &&& (2 ^ 64 - 8) = _
  rw [Nat.mod_eq_of_lt h, land_clear_three h]

theorem le_aligned {size : UInt64} (h : size.toNat + 7 < 2 ^ 64) :
    size.toNat ≤ (aligned size).toNat := by
  rw [aligned_toNat h]
  omega

theorem firstSize_append (earlier : List AllocRequest) (r : AllocRequest) (site : ExecPoint) :
    firstSize (earlier ++ [r]) site =
      (firstSize earlier site).or (if r.site = site then some r.size else none) := by
  unfold firstSize
  rw [List.find?_append]
  cases earlier.find? fun r => r.site = site with
  | some r' => rfl
  | none => by_cases h : r.site = site <;> simp [h]

/-- The bytes from `a` to `b` were reserved by the first request of the site. -/
def Region (s : Allocator) (earlier : List AllocRequest) (site : ExecPoint) (a b : Nat) : Prop :=
  ∃ record size, s.records site = some record ∧ firstSize earlier site = some size ∧
    a = record.ptr.toNat ∧ b = a + (aligned size).toNat

variable {s s' : Allocator} {earlier : List AllocRequest} {r : AllocRequest} {ptr : UInt64}
variable {handed : List (AllocRequest × UInt64)} {site : ExecPoint} {a b : Nat}

structure Inv (s : Allocator) (earlier : List AllocRequest) : Prop where
  known : ∀ site, s.records site = none ↔ firstSize earlier site = none
  below : ∀ site a b, s.Region earlier site a b → b ≤ s.allocation_ptr.toNat
  apart : ∀ site site' a b a' b', site ≠ site' → s.Region earlier site a b →
    s.Region earlier site' a' b' → b ≤ a' ∨ b' ≤ a

def Within (s : Allocator) (earlier : List AllocRequest)
    (handed : List (AllocRequest × UInt64)) : Prop :=
  ∀ h ∈ handed, ∃ b, s.Region earlier h.1.site h.2.toNat b ∧ h.2.toNat + h.1.size.toNat ≤ b

theorem Inv.separate (hs : Inv s earlier) (h : s.Within earlier handed) :
    Separate s handed where
  below := by
    intro x hx
    obtain ⟨b, hregion, hle⟩ := h x hx
    exact hle.trans (hs.below _ _ _ hregion)
  disjoint := by
    intro x hx y hy hne
    obtain ⟨b, hregion, hle⟩ := h x hx
    obtain ⟨b', hregion', hle'⟩ := h y hy
    apply Set.disjoint_left.mpr
    intro byte hbx hby
    obtain ⟨hx₁, hx₂⟩ := Set.mem_Ico.mp hbx
    obtain ⟨hy₁, hy₂⟩ := Set.mem_Ico.mp hby
    have := hs.apart _ _ _ _ _ _ hne hregion hregion'
    omega

theorem Inv.alloc_known (hs : Inv s earlier) {record : AllocRecord} {size : UInt64}
    (hrecord : s.records r.site = some record) (hsize : firstSize earlier r.site = some size)
    (hfits : r.size ≤ aligned size) (halloc : s.alloc r = some (s', ptr)) :
    Inv s' (earlier ++ [r]) ∧
      (∀ site a b, s.Region earlier site a b → s'.Region (earlier ++ [r]) site a b) ∧
      ∃ b, s'.Region (earlier ++ [r]) r.site ptr.toNat b ∧ ptr.toNat + r.size.toNat ≤ b := by
  unfold alloc at halloc
  rw [hrecord] at halloc
  simp only [Option.ite_none_left_eq_some, Option.some.injEq, Prod.mk.injEq] at halloc
  obtain ⟨_, rfl, rfl⟩ := halloc
  have hsame : ∀ site, firstSize (earlier ++ [r]) site = firstSize earlier site := by
    intro site
    rw [firstSize_append]
    by_cases h : r.site = site
    · rw [← h, hsize]
      rfl
    · simp [h]
  have hregion : ∀ site a b, s.Region (earlier ++ [r]) site a b ↔ s.Region earlier site a b := by
    intro site a b
    unfold Region
    rw [hsame]
  refine ⟨⟨?_, ?_, ?_⟩, fun site a b h => (hregion site a b).mpr h, ?_⟩
  · intro site
    rw [hsame]
    exact hs.known site
  · intro site a b h
    exact hs.below site a b ((hregion site a b).mp h)
  · intro site site' a b a' b' hne h h'
    exact hs.apart site site' a b a' b' hne ((hregion site a b).mp h) ((hregion site' a' b').mp h')
  · refine ⟨_, (hregion _ _ _).mpr ⟨record, size, hrecord, hsize, rfl, rfl⟩, ?_⟩
    have := UInt64.le_iff_toNat_le.mp hfits
    omega

/-- A new site: its region starts at the allocation pointer, behind all others. -/
theorem Inv.alloc_new (hs : Inv s earlier) (hrecord : s.records r.site = none)
    (hsize : r.size.toNat + 7 < 2 ^ 64)
    (hbump : s.allocation_ptr.toNat + (aligned r.size).toNat < 2 ^ 64)
    (halloc : s.alloc r = some (s', ptr)) :
    Inv s' (earlier ++ [r]) ∧
      (∀ site a b, s.Region earlier site a b → s'.Region (earlier ++ [r]) site a b) ∧
      ∃ b, s'.Region (earlier ++ [r]) r.site ptr.toNat b ∧ ptr.toNat + r.size.toNat ≤ b := by
  unfold alloc at halloc
  rw [hrecord] at halloc
  obtain ⟨⟨s₁, ptr₁⟩, hmalloc, heq⟩ := Option.bind_eq_some_iff.mp halloc
  obtain ⟨rfl, rfl⟩ := Prod.mk.inj (Option.some_inj.mp heq)
  unfold real_user_malloc at hmalloc
  simp only [Option.ite_none_left_eq_some, Option.some.injEq, Prod.mk.injEq] at hmalloc
  obtain ⟨_, rfl, rfl⟩ := hmalloc
  have hend : (s.allocation_ptr + aligned r.size).toNat =
      s.allocation_ptr.toNat + (aligned r.size).toNat := by
    rw [UInt64.toNat_add, Nat.mod_eq_of_lt hbump]
  have hfirst := (hs.known r.site).mp hrecord
  have hold : ∀ site ≠ r.site, firstSize (earlier ++ [r]) site = firstSize earlier site := by
    intro site hne
    rw [firstSize_append, if_neg (Ne.symm hne), Option.or_none]
  have hnew : firstSize (earlier ++ [r]) r.site = some r.size := by
    rw [firstSize_append, hfirst, if_pos rfl]
    rfl
  set s' : Allocator := { s with
    allocation_ptr := s.allocation_ptr + aligned r.size
    records := fun site =>
      if site = r.site then some ⟨aligned (r.size <<< 1), s.allocation_ptr⟩
      else s.records site } with hs'
  have hregion : ∀ site ≠ r.site, ∀ a b, s'.Region (earlier ++ [r]) site a b ↔
      s.Region earlier site a b := by
    intro site hne a b
    unfold Region
    rw [hold site hne, show s'.records site = s.records site from if_neg hne]
  have hself : ∀ a b, s'.Region (earlier ++ [r]) r.site a b ↔
      a = s.allocation_ptr.toNat ∧ b = a + (aligned r.size).toNat := by
    intro a b
    unfold Region
    rw [hnew, show s'.records r.site = some ⟨aligned (r.size <<< 1), s.allocation_ptr⟩ from
      if_pos rfl]
    constructor
    · rintro ⟨record, size, h, h', ha, hb⟩
      obtain rfl := Option.some_inj.mp h
      obtain rfl := Option.some_inj.mp h'
      exact ⟨ha, hb⟩
    · rintro ⟨ha, hb⟩
      exact ⟨_, _, rfl, rfl, ha, hb⟩
  refine ⟨⟨?_, ?_, ?_⟩, ?_, ?_⟩
  · intro site
    by_cases hne : site = r.site
    · rw [hne, hnew, show s'.records r.site = some ⟨_, _⟩ from if_pos rfl]
      simp
    · rw [hold site hne, show s'.records site = s.records site from if_neg hne]
      exact hs.known site
  · intro site a b h
    rw [show s'.allocation_ptr.toNat = _ from hend]
    by_cases hne : site = r.site
    · rw [hne] at h
      obtain ⟨rfl, rfl⟩ := (hself a b).mp h
      exact le_rfl
    · exact (hs.below site a b ((hregion site hne a b).mp h)).trans (Nat.le_add_right _ _)
  · intro site site' a b a' b' hne h h'
    by_cases hr : site = r.site
    · have hr' : site' ≠ r.site := fun heq => hne (hr.trans heq.symm)
      rw [hr] at h
      obtain ⟨rfl, rfl⟩ := (hself a b).mp h
      exact Or.inr (hs.below site' a' b' ((hregion site' hr' a' b').mp h'))
    · have hb := hs.below site a b ((hregion site hr a b).mp h)
      by_cases hr' : site' = r.site
      · rw [hr'] at h'
        obtain ⟨rfl, rfl⟩ := (hself a' b').mp h'
        exact Or.inl hb
      · exact hs.apart site site' a b a' b' hne ((hregion site hr a b).mp h)
          ((hregion site' hr' a' b').mp h')
  · intro site a b h
    have hne : site ≠ r.site := by
      rintro rfl
      obtain ⟨_, _, hsome, _⟩ := h
      rw [hrecord] at hsome
      exact absurd hsome (by simp)
    exact (hregion site hne a b).mpr h
  · refine ⟨_, (hself _ _).mpr ⟨rfl, rfl⟩, ?_⟩
    have := le_aligned hsize
    omega

theorem Inv.alloc (hs : Inv s earlier) (hw : s.Within earlier handed) (hfits : s.Fits earlier r)
    (halloc : s.alloc r = some (s', ptr)) :
    Inv s' (earlier ++ [r]) ∧ s'.Within (earlier ++ [r]) ((r, ptr) :: handed) := by
  have hstep : Inv s' (earlier ++ [r]) ∧
      (∀ site a b, s.Region earlier site a b → s'.Region (earlier ++ [r]) site a b) ∧
      ∃ b, s'.Region (earlier ++ [r]) r.site ptr.toNat b ∧ ptr.toNat + r.size.toNat ≤ b := by
    unfold Fits at hfits
    cases hrecord : s.records r.site with
    | none =>
      rw [(hs.known r.site).mp hrecord] at hfits
      exact hs.alloc_new hrecord hfits.1 hfits.2 halloc
    | some record =>
      cases hsize : firstSize earlier r.site with
      | none =>
        rw [(hs.known r.site).mpr hsize] at hrecord
        exact absurd hrecord (by simp)
      | some size =>
        rw [hsize] at hfits
        exact hs.alloc_known hrecord hsize hfits halloc
  obtain ⟨hinv, hkept, hnew⟩ := hstep
  refine ⟨hinv, ?_⟩
  intro h hh
  cases List.mem_cons.mp hh with
  | inl heq =>
    rw [heq]
    exact hnew
  | inr hmem =>
    obtain ⟨b, hregion, hle⟩ := hw h hmem
    exact ⟨b, hkept _ _ _ hregion, hle⟩

theorem Inv.run {rs : List AllocRequest} :
    ∀ {s : Allocator} {earlier : List AllocRequest} {handed : List (AllocRequest × UInt64)},
      Inv s earlier → s.Within earlier handed → s.AllFit earlier rs →
      ∀ {r}, s.run handed rs = some r →
        Inv r.1 (earlier ++ rs) ∧ r.1.Within (earlier ++ rs) r.2 := by
  induction rs with
  | nil =>
    intro s earlier handed hs hw _ r hrun
    rw [← Option.some_inj.mp hrun, List.append_nil]
    exact ⟨hs, hw⟩
  | cons q rs ih =>
    intro s earlier handed hs hw hfit r hrun
    obtain ⟨⟨s₁, ptr⟩, halloc, hrest⟩ := Option.bind_eq_some_iff.mp hrun
    obtain ⟨hs₁, hw₁⟩ := hs.alloc hw hfit.1 halloc
    have := ih hs₁ hw₁ (hfit.2 _ halloc) hrest
    rwa [List.append_assoc] at this

theorem Inv.runs {rs : List (List AllocRequest)} :
    ∀ {s : Allocator} {earlier : List AllocRequest}, Inv s earlier → s.RunsFit earlier rs →
      ∀ {s'}, s.runs rs = some s' → Inv s' (earlier ++ rs.flatten) := by
  induction rs with
  | nil =>
    intro s earlier hs _ s' hrun
    rw [← Option.some_inj.mp hrun, List.flatten_nil, List.append_nil]
    exact hs
  | cons r rs ih =>
    intro s earlier hs hfit s' hrun
    obtain ⟨⟨s₁, handed⟩, hrun₁, hrest⟩ := Option.bind_eq_some_iff.mp hrun
    have hs₁ := (hs.run (by simp [Within]) hfit.1 hrun₁).1
    have := ih hs₁ (hfit.2 _ hrun₁) hrest
    rwa [List.append_assoc] at this

/-! ## Runs -/

def start (allocation_ptr top_ptr : UInt64) (asserts : Bool) : Allocator where
  allocation_ptr := allocation_ptr
  top_ptr := top_ptr
  asserts := asserts
  records := fun _ => none

/-- In every state of every run, after any earlier runs, the sites are separate. -/
def SitesSeparate : Prop :=
  ∀ (allocation_ptr top_ptr : UInt64) (asserts : Bool) (rs : List (List AllocRequest))
    (r : List AllocRequest),
    (∀ q ∈ rs, (q.map AllocRequest.site).Nodup) → (r.map AllocRequest.site).Nodup →
    ∀ s s' handed, (start allocation_ptr top_ptr asserts).runs rs = some s →
      s.run [] r = some (s', handed) → Separate s' handed

private theorem inv_start (allocation_ptr top_ptr : UInt64) (asserts : Bool) :
    Inv (start allocation_ptr top_ptr asserts) [] where
  known := fun _ => ⟨fun _ => rfl, fun _ => rfl⟩
  below := by
    rintro site a b ⟨record, size, h, _⟩
    exact absurd h (by simp [start])
  apart := by
    rintro site site' a b a' b' _ ⟨record, size, h, _⟩
    exact absurd h (by simp [start])

/-- The sites are separate in every run whose requests fit, after runs whose requests fit. -/
theorem separate_of_fit (allocation_ptr top_ptr : UInt64) (asserts : Bool)
    (rs : List (List AllocRequest)) (r : List AllocRequest)
    (hfit : (start allocation_ptr top_ptr asserts).RunsFit [] rs)
    {s s' : Allocator} {handed : List (AllocRequest × UInt64)}
    (hruns : (start allocation_ptr top_ptr asserts).runs rs = some s)
    (hfit' : s.AllFit rs.flatten r) (hrun : s.run [] r = some (s', handed)) :
    Separate s' handed := by
  have hs := (inv_start allocation_ptr top_ptr asserts).runs hfit hruns
  rw [List.nil_append] at hs
  obtain ⟨hs', hw⟩ := hs.run (by simp [Within]) hfit' hrun
  exact hs'.separate hw

/-- The first site asks for 8 bytes and then for 16, over the bytes of the second. -/
theorem not_sitesSeparate : ¬ SitesSeparate := by
  intro h
  have hsep := h 4096 1048576 true [[⟨⟨0, [(.counter, 1)]⟩, 8⟩, ⟨⟨0, [(.counter, 2)]⟩, 8⟩]]
    [⟨⟨0, [(.counter, 1)]⟩, 16⟩, ⟨⟨0, [(.counter, 2)]⟩, 8⟩] (by decide) (by decide) _ _ _ rfl rfl
  have hdisjoint := hsep.disjoint (⟨⟨0, [(.counter, 1)]⟩, 16⟩, 4096) (by decide)
    (⟨⟨0, [(.counter, 2)]⟩, 8⟩, 4104) (by decide) (by decide)
  have hbyte : 4104 ∈ bytes (⟨⟨0, [(.counter, 1)]⟩, 16⟩, 4096) := Set.mem_Ico.mpr (by decide)
  exact Set.disjoint_left.mp hdisjoint hbyte (Set.mem_Ico.mpr (by decide))

theorem separate_of_fit_two :
    ∃ s s' handed, (start 4096 1048576 true).runs
        [[⟨⟨0, [(.counter, 1)]⟩, 12⟩, ⟨⟨0, [(.counter, 2)]⟩, 8⟩]] = some s ∧
      s.run [] [⟨⟨0, [(.counter, 1)]⟩, 16⟩, ⟨⟨0, [(.counter, 2)]⟩, 1⟩] = some (s', handed) ∧
      Separate s' handed :=
  ⟨_, _, _, rfl, rfl, separate_of_fit 4096 1048576 true
    [[⟨⟨0, [(.counter, 1)]⟩, 12⟩, ⟨⟨0, [(.counter, 2)]⟩, 8⟩]]
    [⟨⟨0, [(.counter, 1)]⟩, 16⟩, ⟨⟨0, [(.counter, 2)]⟩, 1⟩] (by decide) rfl (by decide) rfl⟩

end Allocator

end SatCheck
