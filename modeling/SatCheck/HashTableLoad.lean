import SatCheck.HashTableMap
import Mathlib.Algebra.Order.Floor.Ring
import Mathlib.Algebra.Order.Floor.Semifield
import Mathlib.Data.Finset.Card
/-!
# Tables that are never full

With a load factor below 1 an absent key finds a free bin.  A table from which nothing is
removed has no removed bins, so every call on it is answered.
-/

namespace SatCheck.HashTable

theorem threshold_half {K V : Type} {t : HashTable K V} (h : t.loadfactor = 1 / 2) :
    t.threshold = t.capacity / 2 := by
  unfold threshold
  rw [h, mul_one_div]
  exact_mod_cast Nat.floor_div_eq_div (K := ℚ) t.capacity 2

variable {K V : Type} [Zero K] [DecidableEq K]
variable {ops : KeyOps K} {t t' : HashTable K V} {m : List (K × V)} {key : K} {val : V}

/-! ## A table that is never full -/

theorem exists_write_of_putBin (hkey : key ≠ 0) (h : t.putBin ops key val = some t') :
    ∃ index b, b.key ≠ 0 ∧ t'.table = (t.write index b).table ∧ t'.capacity = t.capacity ∧
      t'.loadfactor = t.loadfactor ∧ t'.zero = t.zero := by
  unfold putBin at h
  obtain ⟨index, _, h⟩ := Option.bind_eq_some_iff.mp h
  by_cases hnull : (t.table index).key = 0
  · obtain rfl := Option.some_inj.mp ((if_pos hnull).symm.trans h)
    exact ⟨index, ⟨key, val⟩, hkey, rfl, rfl, rfl, rfl⟩
  · obtain rfl := Option.some_inj.mp ((if_neg hnull).symm.trans h)
    exact ⟨index, { t.table index with val := val }, hnull, rfl, rfl, rfl, rfl⟩

variable [Zero V]

theorem Stored.grow_cases (hops : ops.Lawful) (hs : Stored ops t m) {s : HashTable K V}
    (h : t.grow ops = some s) :
    s.loadfactor = t.loadfactor ∧
      ((t.size ≤ t.threshold ∧ s = t) ∨ Rehashed ops t t.capacity s) := by
  unfold HashTable.grow at h
  split_ifs at h with hsize
  · obtain ⟨s', hresize, hrehashed⟩ := exists_resize hops hs.placed
    obtain rfl := Option.some_inj.mp (hresize.symm.trans h)
    exact ⟨hrehashed.loadfactor, Or.inr hrehashed⟩
  · obtain rfl := Option.some_inj.mp h
    exact ⟨rfl, Or.inl ⟨by omega, rfl⟩⟩

theorem put_of_ne (hkey : key ≠ 0) :
    t.put ops key val = (t.grow ops).bind fun t => t.putBin ops key val := by
  unfold HashTable.put
  rw [if_neg hkey]
  rfl

theorem Stored.loadfactor_put (hops : ops.Lawful) (hs : Stored ops t m)
    (h : t.put ops key val = some t') : t'.loadfactor = t.loadfactor := by
  by_cases hkey : key = 0
  · unfold HashTable.put at h
    rw [if_pos hkey] at h
    rw [← Option.some_inj.mp h]
  · rw [put_of_ne hkey] at h
    obtain ⟨s, hgrow, hput⟩ := Option.bind_eq_some_iff.mp h
    obtain ⟨_, _, _, _, _, hfactor, _⟩ := exists_write_of_putBin hkey hput
    rw [hfactor, (hs.grow_cases hops hgrow).1]

theorem Stored.card_occupied_le (hops : ops.Lawful) (hs : Stored ops t m) :
    t.occupied.card ≤ t.size := by
  classical
  have hmap : ∀ i ∈ t.occupied, ((t.table i).key, (t.table i).val) ∈ m.toFinset := by
    intro i hi
    obtain ⟨hlt, hkey⟩ := Finset.mem_filter.mp hi
    rw [List.mem_toFinset]
    exact (hs.holds _ _ hkey).mp ⟨i, Finset.mem_range.mp hlt, rfl⟩
  have hinj : Set.InjOn (fun i => ((t.table i).key, (t.table i).val)) t.occupied := by
    intro i hi j hj heq
    obtain ⟨hilt, hikey⟩ := Finset.mem_filter.mp (Finset.mem_coe.mp hi)
    obtain ⟨hjlt, hjkey⟩ := Finset.mem_filter.mp (Finset.mem_coe.mp hj)
    apply hs.placed.single i (Finset.mem_range.mp hilt) j (Finset.mem_range.mp hjlt) hikey hjkey
    rw [show (t.table i).key = (t.table j).key from congrArg Prod.fst heq]
    exact hops.equivalence.refl _
  calc t.occupied.card ≤ m.toFinset.card := Finset.card_le_card_of_injOn _ hmap hinj
    _ ≤ m.length := m.toFinset_card_le
    _ = t.size := hs.size.symm

theorem Stored.put_answered (hops : ops.Lawful) (hs : Stored ops t m) (hfactor : t.loadfactor < 1)
    (h : ∀ e ∈ m, sameKey ops e.1 key = false) : Answered ops t (.put key val) := by
  by_cases hkey : key = 0
  · exact Or.inl hkey
  right
  by_cases hsize : t.threshold < t.size
  · exact Or.inl hsize
  right; right
  refine ⟨(hs.absent_iff hkey).mpr h, exists_null_of_card_lt ?_⟩
  have hpos := hs.placed.power.pos
  have hcard := hs.card_occupied_le hops
  have hthreshold : t.threshold < t.capacity := by
    apply (Nat.floor_lt' hpos.ne').mpr
    have hcast : (0 : ℚ) < t.capacity := by exact_mod_cast hpos
    calc (t.capacity : ℚ) * t.loadfactor < t.capacity * 1 :=
          mul_lt_mul_of_pos_left hfactor hcast
      _ = t.capacity := mul_one _
  omega

theorem loadfactor_remove [One V] [DecidableEq V] {r : HashTable K V × V}
    (h : t.remove ops key = some r) :
    r.1.loadfactor = t.loadfactor := by
  unfold HashTable.remove at h
  split_ifs at h with hkey
  · cases hzero : t.zero <;> rw [hzero] at h <;> rw [← Option.some_inj.mp h]
  · obtain ⟨index, _, h⟩ := Option.bind_eq_some_iff.mp h
    by_cases hnull : (t.table index).key = 0
    · rw [← Option.some_inj.mp ((if_pos hnull).symm.trans h)]
    · rw [← Option.some_inj.mp ((if_neg hnull).symm.trans h)]

/-! ## Without removals -/

/-- A table from which nothing is removed, with the default load factor. -/
structure PutOnly (ops : KeyOps K) (t : HashTable K V) (m : List (K × V)) : Prop where
  stored : Stored ops t m
  clean : ∀ i < t.capacity, (t.table i).key = 0 → (t.table i).Empty
  capacity : 4 ≤ t.capacity
  factor : t.loadfactor = 1 / 2
  load : t.occupied.card ≤ t.threshold + 1

theorem PutOnly.contains [DecidableEq V] (hops : ops.Lawful) (h : PutOnly ops t m) (key : K) :
    t.contains ops key = some (AssocMap.get (sameKey ops) m key).isSome := by
  apply h.stored.contains hops
  right; right
  have hload := h.load
  have hcapacity := h.capacity
  rw [threshold_half h.factor] at hload
  obtain ⟨i, hi, hnull⟩ := exists_null_of_card_lt (t := t) (by omega)
  exact ⟨i, hi, h.clean i hi hnull⟩

theorem PutOnly.of_empty (hpower : t.PowerCapacity) (hcapacity : 4 ≤ t.capacity)
    (hfactor : t.loadfactor = 1 / 2) (htable : ∀ i < t.capacity, t.table i = ⟨0, 0⟩)
    (hzero : t.zero = none) (hsize : t.size = 0) : PutOnly ops t [] where
  stored := stored_empty hpower htable hzero hsize
  clean i hi _ := by
    rw [htable i hi]
    exact ⟨rfl, rfl⟩
  capacity := hcapacity
  factor := hfactor
  load := by
    have hnone : t.occupied = ∅ := by
      apply Finset.filter_eq_empty_iff.mpr
      intro i hi hkey
      exact hkey (by rw [htable i (Finset.mem_range.mp hi)])
    simp [hnone]

theorem PutOnly.new {n : Nat} : PutOnly ops (new (2 ^ (n + 2)) (1 / 2) : HashTable K V) [] := by
  apply PutOnly.of_empty ⟨n + 2, rfl⟩ _ rfl (fun _ _ => rfl) rfl rfl
  show 4 ≤ 2 ^ (n + 2)
  rw [pow_add]
  have := Nat.two_pow_pos n
  omega

theorem PutOnly.answered (hops : ops.Lawful) (h : PutOnly ops t m) (key : K) (val : V) :
    Answered ops t (.put key val) := by
  by_cases hpresent : Present ops t key
  · obtain ⟨j, hj, hmatches, hbefore⟩ := h.stored.placed.exists_bin_of_present hops hpresent
    refine Or.inr (Or.inr (Or.inl ⟨j, hj, hmatches, ?_⟩))
    intro l hl hnull
    exact (hbefore l hl).1 (h.clean _ (bin_lt h.stored.placed.power.pos _ l) hnull)
  · by_cases hkey : key = 0
    · exact Or.inl hkey
    · have hfactor : t.loadfactor < 1 := by
        rw [h.factor]
        norm_num
      exact h.stored.put_answered hops hfactor ((h.stored.absent_iff hkey).mp hpresent)

theorem PutOnly.put (hops : ops.Lawful) (h : PutOnly ops t m) (hval : val ≠ 0) :
    ∃ t', t.put ops key val = some t' ∧ PutOnly ops t' (AssocMap.put (sameKey ops) m key val) := by
  obtain ⟨t', hput, hstored⟩ := h.stored.put hops hval (h.answered hops key val)
  refine ⟨t', hput, ?_⟩
  have hhalf : t'.loadfactor = 1 / 2 := (h.stored.loadfactor_put hops hput).trans h.factor
  by_cases hkey : key = 0
  · unfold HashTable.put at hput
    rw [if_pos hkey] at hput
    obtain rfl := Option.some_inj.mp hput
    exact ⟨hstored, h.clean, h.capacity, hhalf, h.load⟩
  · have hrun := hput
    rw [put_of_ne hkey] at hrun
    obtain ⟨s, hgrow, hwrite⟩ := Option.bind_eq_some_iff.mp hrun
    obtain ⟨index, b, hb, htable, hcapacity, _, _⟩ := exists_write_of_putBin hkey hwrite
    have hgrown : (∀ i < s.capacity, (s.table i).key = 0 → (s.table i).Empty) ∧
        4 ≤ s.capacity ∧ s.occupied.card ≤ s.capacity / 2 := by
      have hcap := h.capacity
      cases (h.stored.grow_cases hops hgrow).2 with
      | inl hsame =>
        obtain ⟨hsize, rfl⟩ := hsame
        have hcard := h.stored.card_occupied_le hops
        rw [threshold_half h.factor] at hsize
        exact ⟨h.clean, hcap, by omega⟩
      | inr hrehashed =>
        have hcard := hrehashed.card
        have hdouble := hrehashed.capacity
        rw [Nat.shiftLeft_eq] at hdouble
        exact ⟨hrehashed.clean, by omega, by omega⟩
    obtain ⟨hclean, hcap, hcard⟩ := hgrown
    refine ⟨hstored, ?_, by omega, hhalf, ?_⟩
    · rw [htable, hcapacity]
      intro i hi hnull
      by_cases hii : i = index
      · rw [hii, write_table_self] at hnull
        exact absurd hnull hb
      · rw [write_table_of_ne hii] at hnull ⊢
        exact hclean i hi hnull
    · have hwritten : t'.occupied = (s.write index b).occupied := by
        unfold occupied
        rw [htable, hcapacity, write_capacity]
      have := card_occupied_write s index b
      rw [hwritten, threshold_half hhalf, hcapacity]
      omega

/-! ## What the table holds -/

def entries [DecidableEq V] (t : HashTable K V) (bins : List Nat) : List (K × V) :=
  (bins.filter fun i => (t.table i).val ≠ 0).map fun i => ((t.table i).key, (t.table i).val)

def allEntries [DecidableEq V] (t : HashTable K V) : List (K × V) :=
  t.entries (List.range t.capacity) ++ t.zero.toList.map fun zero => (zero.key, zero.val)

variable [DecidableEq V]

omit [DecidableEq V] in
theorem PutOnly.key_ne_zero (h : PutOnly ops t m) {i : Nat} (hi : i < t.capacity)
    (hval : (t.table i).val ≠ 0) : (t.table i).key ≠ 0 :=
  fun hkey => hval (h.clean i hi hkey).2

theorem PutOnly.mem_entries (h : PutOnly ops t m) {e : K × V} :
    e ∈ t.entries (List.range t.capacity) ↔ e.1 ≠ 0 ∧ e ∈ m := by
  obtain ⟨k, v⟩ := e
  simp only [entries, List.mem_map, List.mem_filter, List.mem_range, decide_eq_true_eq,
    Prod.mk.injEq]
  constructor
  · rintro ⟨i, ⟨hi, hval⟩, rfl, rfl⟩
    have hkey := h.key_ne_zero hi hval
    exact ⟨hkey, (h.stored.holds _ _ hkey).mp ⟨i, hi, rfl⟩⟩
  · rintro ⟨hk, hmem⟩
    obtain ⟨i, hi, heq⟩ := (h.stored.holds k v hk).mpr hmem
    have hval := h.stored.nonnull _ hmem
    exact ⟨i, ⟨hi, by simpa [heq] using hval⟩, by simp [heq], by simp [heq]⟩

theorem PutOnly.mem_allEntries (h : PutOnly ops t m) {e : K × V} :
    e ∈ t.allEntries ↔ e ∈ m := by
  obtain ⟨k, v⟩ := e
  rw [allEntries, List.mem_append, h.mem_entries]
  have hzero : (k, v) ∈ t.zero.toList.map (fun zero => (zero.key, zero.val)) ↔
      k = 0 ∧ (k, v) ∈ m := by
    simp only [List.mem_map, Option.mem_toList, Prod.mk.injEq]
    constructor
    · rintro ⟨node, hnode, rfl, rfl⟩
      have hkey := h.stored.zero_key node hnode
      refine ⟨hkey, ?_⟩
      rw [hkey]
      apply (h.stored.zero node.val).mp
      rw [hnode, ← hkey]
    · rintro ⟨rfl, hmem⟩
      exact ⟨_, (h.stored.zero v).mpr hmem, rfl, rfl⟩
  rw [hzero]
  by_cases hk : k = 0 <;> simp [hk]

theorem PutOnly.nodup_allEntries (hops : ops.Lawful) (h : PutOnly ops t m) :
    t.allEntries.Nodup := by
  apply List.nodup_append.mpr
  refine ⟨?_, ?_, ?_⟩
  · apply List.Nodup.map_on _ (List.nodup_range.filter _)
    intro i hi j hj heq
    obtain ⟨hilt, hival⟩ := List.mem_filter.mp hi
    obtain ⟨hjlt, hjval⟩ := List.mem_filter.mp hj
    have hikey := h.key_ne_zero (List.mem_range.mp hilt) (by simpa using hival)
    have hjkey := h.key_ne_zero (List.mem_range.mp hjlt) (by simpa using hjval)
    apply h.stored.placed.single i (List.mem_range.mp hilt) j (List.mem_range.mp hjlt) hikey hjkey
    rw [(Prod.mk.inj heq).1]
    exact hops.equivalence.refl _
  · cases t.zero <;> simp
  · intro e he e' he' heq
    obtain ⟨node, hnode, rfl⟩ := List.mem_map.mp he'
    have hkey := h.stored.zero_key node (Option.mem_toList.mp hnode)
    apply (h.mem_entries.mp he).1
    rw [heq]
    exact hkey

end SatCheck.HashTable
