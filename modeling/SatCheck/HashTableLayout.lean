import SatCheck.HashTable
import SatCheck.Library.AssocMap
import Mathlib.Data.Finset.Card
import Mathlib.Data.Nat.ModEq
/-!
# Where keys lie in the table

A table is laid out well when no two of its bins have equal keys and every key is reached
from its hash before the first empty bin.  Each write of a bin keeps this, resizing restores
it without the removed bins, and it makes every search of a present key end at its bin.
-/

namespace SatCheck

def HashNode.Empty {K V : Type} [Zero K] [Zero V] (node : HashNode K V) : Prop :=
  node.key = 0 ∧ node.val = 0

/-- Equality of keys is an equivalence and equal keys have one hash. -/
structure KeyOps.Lawful {K : Type} (ops : KeyOps K) : Prop where
  equivalence : AssocMap.IsEquivalence ops.equals
  hash : ∀ a b, ops.equals a b = true → ops.hash_function a = ops.hash_function b

namespace HashTable

variable {K V : Type} {ops : KeyOps K} {t : HashTable K V} {key : K} {b : HashNode K V}
variable {index j : Nat}

def write (t : HashTable K V) (index : Nat) (b : HashNode K V) : HashTable K V :=
  { t with table := Function.update t.table index b }

@[simp] theorem write_capacity : (t.write index b).capacity = t.capacity := rfl
@[simp] theorem write_size : (t.write index b).size = t.size := rfl
@[simp] theorem write_zero : (t.write index b).zero = t.zero := rfl
@[simp] theorem write_loadfactor : (t.write index b).loadfactor = t.loadfactor := rfl
@[simp] theorem write_bin (hash : Nat) : (t.write index b).bin hash j = t.bin hash j := rfl
@[simp] theorem write_table_self : (t.write index b).table index = b := by simp [write]

theorem write_table_of_ne {i : Nat} (h : i ≠ index) :
    (t.write index b).table i = t.table i := by
  unfold write
  exact Function.update_of_ne h b t.table

theorem bin_injective (hash : Nat) {i j : Nat} (hi : i < t.capacity) (hj : j < t.capacity)
    (h : t.bin hash i = t.bin hash j) : i = j := by
  have hmod : i ≡ j [MOD t.capacity] := Nat.ModEq.add_left_cancel' hash h
  unfold Nat.ModEq at hmod
  rwa [Nat.mod_eq_of_lt hi, Nat.mod_eq_of_lt hj] at hmod

theorem next_bin (hcap : t.PowerCapacity) (hash j : Nat) :
    (t.bin hash j + 1) &&& t.capacitymask = t.bin hash (j + 1) := by
  rw [hcap.and_mask]
  unfold bin
  rw [Nat.mod_add_mod, Nat.add_assoc]

def Holds (t : HashTable K V) (key : K) (val : V) : Prop :=
  ∃ i < t.capacity, t.table i = ⟨key, val⟩

theorem holds_write (h : index < t.capacity) {k : K} {v : V} :
    (t.write index b).Holds k v ↔
      (∃ i < t.capacity, i ≠ index ∧ t.table i = ⟨k, v⟩) ∨ b = ⟨k, v⟩ := by
  constructor
  · rintro ⟨i, hi, heq⟩
    by_cases hii : i = index
    · rw [hii, write_table_self] at heq
      exact Or.inr heq
    · rw [write_table_of_ne hii] at heq
      exact Or.inl ⟨i, hi, hii, heq⟩
  · rintro (⟨i, hi, hii, heq⟩ | heq)
    · exact ⟨i, hi, by rw [write_table_of_ne hii]; exact heq⟩
    · exact ⟨index, h, by rw [write_table_self]; exact heq⟩

variable [Zero K]

/-- The bin holds a key equal to `key`. -/
def Matches (ops : KeyOps K) (key : K) (node : HashNode K V) : Prop :=
  node.key ≠ 0 ∧ ops.equals node.key key = true

def Present (ops : KeyOps K) (t : HashTable K V) (key : K) : Prop :=
  ∃ i < t.capacity, Matches ops key (t.table i)

theorem not_present_iff : ¬ Present ops t key ↔
    ∀ i < t.capacity, (t.table i).key ≠ 0 → ops.equals (t.table i).key key = false := by
  simp [Present, Matches]

theorem holds_write_of_null (h : index < t.capacity) (hnull : (t.table index).key = 0)
    {k : K} {v : V} (hk : k ≠ 0) :
    (t.write index b).Holds k v ↔ t.Holds k v ∨ b = ⟨k, v⟩ := by
  rw [holds_write h]
  apply or_congr_left
  constructor
  · rintro ⟨i, hi, _, heq⟩
    exact ⟨i, hi, heq⟩
  · rintro ⟨i, hi, heq⟩
    refine ⟨i, hi, ?_, heq⟩
    rintro rfl
    rw [heq] at hnull
    exact hk hnull

section FreeBins

variable [DecidableEq K]

def occupied (t : HashTable K V) : Finset Nat :=
  (Finset.range t.capacity).filter fun i => (t.table i).key ≠ 0

theorem exists_null_of_card_lt (h : t.occupied.card < t.capacity) :
    ∃ i < t.capacity, (t.table i).key = 0 := by
  by_contra hnone
  push Not at hnone
  have hall : t.occupied = Finset.range t.capacity := by
    apply Finset.filter_true_of_mem
    intro i hi
    exact hnone i (Finset.mem_range.mp hi)
  rw [hall, Finset.card_range] at h
  exact absurd h (lt_irrefl _)

theorem card_occupied_write (t : HashTable K V) (index : Nat) (b : HashNode K V) :
    (t.write index b).occupied.card ≤ t.occupied.card + 1 := by
  have hsub : (t.write index b).occupied ⊆ insert index t.occupied := by
    intro i hi
    obtain ⟨hlt, hkey⟩ := Finset.mem_filter.mp hi
    by_cases hii : i = index
    · exact hii ▸ Finset.mem_insert_self _ _
    · rw [write_table_of_ne hii] at hkey
      exact Finset.mem_insert_of_mem (Finset.mem_filter.mpr ⟨hlt, hkey⟩)
  exact (Finset.card_le_card hsub).trans (Finset.card_insert_le _ _)

theorem probe_null (hcap : t.PowerCapacity) (hnull : ∃ i < t.capacity, (t.table i).key = 0)
    (hash : Nat) :
    ∃ j < t.capacity, (t.table (t.bin hash j)).key = 0 ∧
      (∀ l < j, (t.table (t.bin hash l)).key ≠ 0) ∧
      t.probe (fun search => search.key = 0) t.capacity hash = some (t.bin hash j) := by
  cases hprobe : t.probe (fun search => search.key = 0) t.capacity hash with
  | none =>
    obtain ⟨i, hi, hkey⟩ := hnull
    obtain ⟨j, hj, hbin⟩ := exists_bin_eq (t := t) hash hi
    have hstop := (probe_eq_none hcap).mp hprobe j hj
    rw [hbin] at hstop
    exact absurd hkey (by simpa using hstop)
  | some index =>
    obtain ⟨j, hj, hbin, hstop, hbefore⟩ := (probe_eq_some hcap).mp hprobe
    refine ⟨j, hj, ?_, ?_, by rw [hbin]⟩
    · rw [hbin]
      simpa using hstop
    · intro l hl
      simpa using hbefore l hl

end FreeBins

variable [Zero V]

structure Placed (ops : KeyOps K) (t : HashTable K V) : Prop where
  power : t.PowerCapacity
  single : ∀ i < t.capacity, ∀ k < t.capacity, (t.table i).key ≠ 0 → (t.table k).key ≠ 0 →
    ops.equals (t.table i).key (t.table k).key = true → i = k
  reach : ∀ i < t.capacity, (t.table i).key ≠ 0 →
    ∃ j < t.capacity, t.bin (ops.hash_function (t.table i).key) j = i ∧
      ∀ l < j, ¬ (t.table (t.bin (ops.hash_function (t.table i).key) l)).Empty

/-! ## Writing a bin -/

private theorem not_empty_write (h : ¬ b.Empty) {i : Nat} (hi : ¬ (t.table i).Empty) :
    ¬ ((t.write index b).table i).Empty := by
  by_cases heq : i = index
  · rw [heq, write_table_self]
    exact h
  · rw [write_table_of_ne heq]
    exact hi

theorem Placed.write (hops : ops.Lawful) (ht : Placed ops t) (hnonempty : ¬ b.Empty)
    (hsingle : b.key ≠ 0 → ∀ i < t.capacity, i ≠ index → (t.table i).key ≠ 0 →
      ops.equals (t.table i).key b.key = false)
    (hreach : b.key ≠ 0 → ∃ j < t.capacity, t.bin (ops.hash_function b.key) j = index ∧
      ∀ l < j, ¬ (t.table (t.bin (ops.hash_function b.key) l)).Empty) :
    Placed ops (t.write index b) where
  power := ht.power
  single := by
    intro i hi k hk hikey hkkey heq
    by_cases hii : i = index
    · by_cases hkk : k = index
      · rw [hii, hkk]
      · rw [hii, write_table_self] at hikey heq
        rw [write_table_of_ne hkk] at hkkey heq
        have hne := hsingle hikey k hk hkk hkkey
        rw [hops.equivalence.symm _ _ heq] at hne
        exact absurd hne (by simp)
    · rw [write_table_of_ne hii] at hikey heq
      by_cases hkk : k = index
      · rw [hkk, write_table_self] at hkkey heq
        have hne := hsingle hkkey i hi hii hikey
        rw [heq] at hne
        exact absurd hne (by simp)
      · rw [write_table_of_ne hkk] at hkkey heq
        exact ht.single i hi k hk hikey hkkey heq
  reach := by
    intro i hi hkey
    by_cases hii : i = index
    · rw [hii, write_table_self] at hkey ⊢
      obtain ⟨j, hj, hbin, hbefore⟩ := hreach hkey
      exact ⟨j, hj, hbin, fun l hl => not_empty_write hnonempty (hbefore l hl)⟩
    · rw [write_table_of_ne hii] at hkey ⊢
      obtain ⟨j, hj, hbin, hbefore⟩ := ht.reach i hi hkey
      exact ⟨j, hj, hbin, fun l hl => not_empty_write hnonempty (hbefore l hl)⟩

theorem Placed.holds_write_of_matches (hops : ops.Lawful) (ht : Placed ops t)
    (h : index < t.capacity) (hkey : Matches ops key (t.table index)) {k : K} {v : V}
    (hk : k ≠ 0) :
    (t.write index b).Holds k v ↔
      (t.Holds k v ∧ ops.equals k key = false) ∨ b = ⟨k, v⟩ := by
  rw [holds_write h]
  apply or_congr_left
  constructor
  · rintro ⟨i, hi, hii, heq⟩
    refine ⟨⟨i, hi, heq⟩, ?_⟩
    by_contra hsame
    have hkk : ops.equals k key = true := by simpa using hsame
    apply hii
    apply ht.single i hi index h
    · rwa [heq]
    · exact hkey.1
    · rw [heq]
      exact hops.equivalence.trans _ _ _ hkk (hops.equivalence.symm _ _ hkey.2)
  · rintro ⟨⟨i, hi, heq⟩, hne⟩
    refine ⟨i, hi, ?_, heq⟩
    rintro rfl
    have hsame := hkey.2
    rw [heq] at hsame
    rw [hsame] at hne
    exact absurd hne (by simp)

/-- Placing an absent key in the first bin with a null key of its probe sequence. -/
theorem Placed.write_absent (hops : ops.Lawful) (ht : Placed ops t) (hb : b.key ≠ 0)
    (habsent : ¬ Present ops t b.key) (hj : j < t.capacity)
    (hbefore : ∀ l < j, (t.table (t.bin (ops.hash_function b.key) l)).key ≠ 0) :
    Placed ops (t.write (t.bin (ops.hash_function b.key) j) b) := by
  apply ht.write hops
  · exact fun hempty => hb hempty.1
  · intro _ i hi _ hkey
    exact not_present_iff.mp habsent i hi hkey
  · intro _
    exact ⟨j, hj, rfl, fun l hl hempty => hbefore l hl hempty.1⟩

/-! ## Resizing -/

section Resizing

variable [DecidableEq K]

/-- `resize` after the first `n` bins of the old table `t`. -/
structure Rehashed (ops : KeyOps K) (t : HashTable K V) (n : Nat) (s : HashTable K V) :
    Prop where
  placed : Placed ops s
  clean : ∀ i < s.capacity, (s.table i).key = 0 → (s.table i).Empty
  holds : ∀ k v, k ≠ 0 → (s.Holds k v ↔ ∃ i < n, t.table i = ⟨k, v⟩)
  card : s.occupied.card ≤ n
  capacity : s.capacity = t.capacity <<< 1
  size : s.size = t.size
  zero : s.zero = t.zero
  loadfactor : s.loadfactor = t.loadfactor

theorem rehashed_zero (ht : t.PowerCapacity) :
    Rehashed ops t 0 { t with table := fun _ => ⟨0, 0⟩, capacity := t.capacity <<< 1 } where
  placed := by
    obtain ⟨n, hn⟩ := ht
    refine ⟨⟨n + 1, ?_⟩, by simp, by simp⟩
    show t.capacity <<< 1 = 2 ^ (n + 1)
    rw [hn, Nat.shiftLeft_eq, pow_one, pow_succ]
  clean := fun i _ _ => ⟨rfl, rfl⟩
  holds := by
    intro k v hk
    constructor
    · rintro ⟨i, _, heq⟩
      exact absurd (congrArg HashNode.key heq).symm hk
    · rintro ⟨i, hi, _⟩
      omega
  card := by simp [occupied]
  capacity := rfl
  size := rfl
  zero := rfl
  loadfactor := rfl

theorem Rehashed.insertBin (hops : ops.Lawful) (ht : Placed ops t) {n : Nat}
    (hn : n < t.capacity) {s : HashTable K V} (hs : Rehashed ops t n s) :
    ∃ s', s.insertBin ops (t.table n) = some s' ∧ Rehashed ops t (n + 1) s' := by
  unfold HashTable.insertBin
  split_ifs with hkey
  · refine ⟨s, rfl, { hs with holds := ?_, card := by have := hs.card; omega }⟩
    intro k v hk
    rw [hs.holds k v hk]
    constructor
    · rintro ⟨i, hi, heq⟩
      exact ⟨i, by omega, heq⟩
    · rintro ⟨i, hi, heq⟩
      refine ⟨i, ?_, heq⟩
      have hne : i ≠ n := by
        rintro rfl
        rw [heq] at hkey
        exact hk hkey
      omega
  · have hcapacity := hs.capacity
    rw [Nat.shiftLeft_eq] at hcapacity
    have hnull := exists_null_of_card_lt (t := s) (by have := hs.card; omega)
    obtain ⟨j, hj, hfree, hbefore, hprobe⟩ :=
      probe_null hs.placed.power hnull (ops.hash_function (t.table n).key)
    have habsent : ¬ Present ops s (t.table n).key := by
      rintro ⟨i, hi, hikey, hsame⟩
      have hholds := (hs.holds _ (s.table i).val hikey).mp ⟨i, hi, rfl⟩
      obtain ⟨m, hm, heq⟩ := hholds
      rw [show (s.table i).key = (t.table m).key by rw [heq]] at hsame hikey
      have := ht.single m (by omega) n hn hikey hkey hsame
      omega
    have hlt := bin_lt hs.placed.power.pos (ops.hash_function (t.table n).key) j
    refine ⟨s.write (s.bin (ops.hash_function (t.table n).key) j) (t.table n), ?_, ?_⟩
    · rw [hprobe]
      rfl
    · refine ⟨hs.placed.write_absent hops hkey habsent hj hbefore, ?_, ?_, ?_, hs.capacity,
        hs.size, hs.zero, hs.loadfactor⟩
      · intro i hi hnullkey
        by_cases hii : i = s.bin (ops.hash_function (t.table n).key) j
        · rw [hii, write_table_self] at hnullkey
          exact absurd hnullkey hkey
        · rw [write_table_of_ne hii] at hnullkey ⊢
          exact hs.clean i hi hnullkey
      · intro k v hk
        rw [holds_write_of_null hlt hfree hk, hs.holds k v hk]
        constructor
        · rintro (⟨i, hi, heq⟩ | heq)
          · exact ⟨i, by omega, heq⟩
          · exact ⟨n, by omega, heq⟩
        · rintro ⟨i, hi, heq⟩
          by_cases hin : i = n
          · exact Or.inr (hin ▸ heq)
          · exact Or.inl ⟨i, by omega, heq⟩
      · have hcard := hs.card
        have hstep := card_occupied_write s (s.bin (ops.hash_function (t.table n).key) j)
          (t.table n)
        omega

theorem exists_resize (hops : ops.Lawful) (ht : Placed ops t) :
    ∃ s, t.resize ops (t.capacity <<< 1) = some s ∧ Rehashed ops t t.capacity s := by
  suffices h : ∀ n ≤ t.capacity, ∃ s,
      (List.range n).foldlM (fun s bin => s.insertBin ops (t.table bin))
        { t with table := fun _ => ⟨0, 0⟩, capacity := t.capacity <<< 1 } = some s ∧
      Rehashed ops t n s from h t.capacity le_rfl
  intro n
  induction n with
  | zero => exact fun _ => ⟨_, rfl, rehashed_zero ht.power⟩
  | succ n ih =>
    intro hn
    obtain ⟨s, hfold, hs⟩ := ih (by omega)
    obtain ⟨s', hinsert, hs'⟩ := hs.insertBin hops ht (by omega)
    refine ⟨s', ?_, hs'⟩
    rw [List.range_succ, List.foldlM_append, hfold]
    simpa using hinsert

end Resizing

/-! ## Searching -/

/-- A present key lies on its own probe sequence, after nonempty bins of other keys. -/
theorem Placed.exists_bin_of_present (hops : ops.Lawful) (ht : Placed ops t)
    (h : Present ops t key) :
    ∃ j < t.capacity, Matches ops key (t.table (t.bin (ops.hash_function key) j)) ∧
      ∀ l < j, ¬ (t.table (t.bin (ops.hash_function key) l)).Empty ∧
        ¬ Matches ops key (t.table (t.bin (ops.hash_function key) l)) := by
  obtain ⟨i, hi, hkey⟩ := h
  obtain ⟨j, hj, hbin, hbefore⟩ := ht.reach i hi hkey.1
  rw [hops.hash _ _ hkey.2] at hbin hbefore
  refine ⟨j, hj, by rw [hbin]; exact hkey, ?_⟩
  intro l hl
  refine ⟨hbefore l hl, ?_⟩
  intro hkey'
  have hsame := ht.single _ (bin_lt ht.power.pos _ _) i hi hkey'.1 hkey.1
    (hops.equivalence.trans _ _ _ hkey'.2 (hops.equivalence.symm _ _ hkey.2))
  rw [← hbin] at hsame
  have := bin_injective _ (by omega) hj hsame
  omega

variable [DecidableEq K] [DecidableEq V]

theorem found_eq_true {node : HashNode K V} :
    found ops key node = true ↔ node.Empty ∨ Matches ops key node := by
  unfold found HashNode.Empty Matches
  split_ifs with h <;> simp [h]

theorem Placed.probe_found_of_present (hops : ops.Lawful) (ht : Placed ops t)
    (h : Present ops t key) :
    ∃ index < t.capacity, Matches ops key (t.table index) ∧
      t.probe (found ops key) t.capacity (ops.hash_function key) = some index := by
  obtain ⟨j, hj, hkey, hbefore⟩ := ht.exists_bin_of_present hops h
  refine ⟨_, bin_lt ht.power.pos _ j, hkey, ?_⟩
  apply (probe_eq_some ht.power).mpr
  refine ⟨j, hj, rfl, found_eq_true.mpr (Or.inr hkey), ?_⟩
  intro l hl
  obtain ⟨hempty, hmatches⟩ := hbefore l hl
  by_contra hstop
  cases found_eq_true.mp (by simpa using hstop) with
  | inl h => exact hempty h
  | inr h => exact hmatches h

theorem probe_found_of_absent (hcap : t.PowerCapacity) (h : ¬ Present ops t key)
    (hempty : ∃ i < t.capacity, (t.table i).Empty) :
    ∃ index, (t.table index).key = 0 ∧
      t.probe (found ops key) t.capacity (ops.hash_function key) = some index := by
  cases hprobe : t.probe (found ops key) t.capacity (ops.hash_function key) with
  | none =>
    obtain ⟨i, hi, he⟩ := hempty
    obtain ⟨j, hj, hbin⟩ := exists_bin_eq (t := t) (ops.hash_function key) hi
    have hstop := (probe_eq_none hcap).mp hprobe j hj
    rw [hbin, found_eq_true.mpr (Or.inl he)] at hstop
    exact absurd hstop (by simp)
  | some index =>
    obtain ⟨j, hj, hbin, hstop, _⟩ := (probe_eq_some hcap).mp hprobe
    refine ⟨index, ?_, rfl⟩
    cases found_eq_true.mp hstop with
    | inl he => exact he.1
    | inr hkey => exact absurd ⟨index, by rw [← hbin]; exact bin_lt hcap.pos _ _, hkey⟩ h

/-! The steps of the loop of `get`. -/

theorem getLoop_empty {oindex fuel : Nat} (h : (t.table index).Empty) :
    t.getLoop ops key oindex (fuel + 1) index = some 0 := by
  unfold getLoop
  exact if_pos h

private theorem getLoop_matches {oindex fuel : Nat} (h : Matches ops key (t.table index)) :
    t.getLoop ops key oindex (fuel + 1) index = some (t.table index).val := by
  unfold getLoop
  rw [if_neg (show ¬ (_ ∧ _) from fun hempty => h.1 hempty.1)]
  exact if_pos h

theorem getLoop_other {oindex fuel : Nat} (hempty : ¬ (t.table index).Empty)
    (hmatches : ¬ Matches ops key (t.table index)) :
    t.getLoop ops key oindex (fuel + 1) index =
      if (index + 1) &&& t.capacitymask = oindex then some 0
      else t.getLoop ops key oindex fuel ((index + 1) &&& t.capacitymask) := by
  conv_lhs => unfold getLoop
  rw [if_neg (show ¬ (_ ∧ _) from hempty), if_neg (show ¬ (_ ∧ _) from hmatches)]

/-- The loop of `get` from step `j` on, when a later bin of the round has the key. -/
theorem getLoop_of_present (hcap : t.PowerCapacity) (hash : Nat) {fuel k : Nat}
    (hfuel : j + fuel = t.capacity) (hjk : j ≤ k) (hk : k < t.capacity)
    (hkey : Matches ops key (t.table (t.bin hash k)))
    (hbefore : ∀ l, j ≤ l → l < k → ¬ (t.table (t.bin hash l)).Empty ∧
      ¬ Matches ops key (t.table (t.bin hash l))) :
    t.getLoop ops key (t.bin hash 0) fuel (t.bin hash j) =
      some (t.table (t.bin hash k)).val := by
  induction fuel generalizing j with
  | zero => omega
  | succ fuel ih =>
    by_cases heq : j = k
    · subst heq
      exact getLoop_matches hkey
    · obtain ⟨hempty, hmatches⟩ := hbefore j le_rfl (by omega)
      rw [getLoop_other hempty hmatches, next_bin hcap, if_neg]
      · exact ih (by omega) (by omega) (fun l hl => hbefore l (by omega))
      · intro hback
        have := bin_injective hash (by omega) hcap.pos hback
        omega

theorem getLoop_of_absent (hcap : t.PowerCapacity) (hash : Nat) {fuel : Nat}
    (hfuel : j + fuel = t.capacity) (hpos : 0 < fuel) (h : ¬ Present ops t key) :
    t.getLoop ops key (t.bin hash 0) fuel (t.bin hash j) = some 0 := by
  induction fuel generalizing j with
  | zero => omega
  | succ fuel ih =>
    have hmatches : ¬ Matches ops key (t.table (t.bin hash j)) :=
      fun hkey => h ⟨_, bin_lt hcap.pos _ _, hkey⟩
    by_cases hempty : (t.table (t.bin hash j)).Empty
    · exact getLoop_empty hempty
    · rw [getLoop_other hempty hmatches, next_bin hcap]
      by_cases hround : j + 1 = t.capacity
      · have hback : t.bin hash (j + 1) = t.bin hash 0 := by
          unfold bin
          rw [hround, Nat.add_mod_right, Nat.add_zero]
        exact if_pos hback
      · rw [if_neg]
        · exact ih (by omega) (by omega)
        · intro hback
          have := bin_injective hash (by omega) hcap.pos hback
          omega

end HashTable

end SatCheck
