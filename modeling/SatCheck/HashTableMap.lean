import SatCheck.HashTableLayout
import Mathlib.Data.UInt
/-!
# The hash table as a finite map

Calls on a table against the same calls on an association list.  `put` takes the first bin
with a null key, and a removed bin has one: a key that lies behind it is stored twice.
`put`, `remove` and `contains` stop only at a bin their loops wait for.
-/

namespace SatCheck.HashTable

variable {K V : Type} [Zero K] [DecidableEq K]

/-! ## Keys -/

/-- Key 0 has a place of its own. -/
def sameKey (ops : KeyOps K) (a b : K) : Bool :=
  if a = 0 then b = 0 else b ≠ 0 && ops.equals a b

variable {ops : KeyOps K} {m : List (K × V)} {key : K} {val : V}

theorem sameKey_zero {a : K} : sameKey ops a 0 = true ↔ a = 0 := by
  unfold sameKey
  split_ifs with h <;> simp [h]

theorem sameKey_of_ne {a b : K} (hb : b ≠ 0) :
    sameKey ops a b = true ↔ a ≠ 0 ∧ ops.equals a b = true := by
  unfold sameKey
  split_ifs with h <;> simp [h, hb]

theorem sameKey_eq_equals {a b : K} (ha : a ≠ 0) (hb : b ≠ 0) :
    sameKey ops a b = ops.equals a b := by
  simp [sameKey, ha, hb]

theorem sameKey_zero_left (hkey : key ≠ 0) : sameKey ops 0 key = false := by
  simp [sameKey, hkey]

theorem sameKey_zero_right {a : K} (ha : a ≠ 0) : sameKey ops a 0 = false := by
  simp [sameKey, ha]

theorem sameKey_equivalence (hops : ops.Lawful) :
    AssocMap.IsEquivalence (sameKey ops) where
  refl a := by
    by_cases ha : a = 0
    · exact ha ▸ sameKey_zero.mpr rfl
    · exact (sameKey_of_ne ha).mpr ⟨ha, hops.equivalence.refl a⟩
  symm a b h := by
    by_cases hb : b = 0
    · obtain rfl := hb
      obtain rfl := sameKey_zero.mp h
      exact h
    · obtain ⟨ha, hab⟩ := (sameKey_of_ne hb).mp h
      exact (sameKey_of_ne ha).mpr ⟨hb, hops.equivalence.symm a b hab⟩
  trans a b c hab hbc := by
    by_cases hc : c = 0
    · obtain rfl := hc
      obtain rfl := sameKey_zero.mp hbc
      exact hab
    · obtain ⟨hb, hbc⟩ := (sameKey_of_ne hc).mp hbc
      obtain ⟨ha, hab⟩ := (sameKey_of_ne hb).mp hab
      exact (sameKey_of_ne hc).mpr ⟨ha, hops.equivalence.trans a b c hab hbc⟩

theorem mem_put_zero {k : K} {v : V} :
    (k, v) ∈ AssocMap.put (sameKey ops) m 0 val ↔ (k ≠ 0 ∧ (k, v) ∈ m) ∨ (k = 0 ∧ v = val) := by
  by_cases hpresent : ∃ e ∈ m, sameKey ops e.1 0 = true
  · rw [AssocMap.mem_put_of_present hpresent]
    by_cases hk : k = 0
    · subst hk
      obtain ⟨e, he, hsame⟩ := hpresent
      have hold : (0, e.2) ∈ m := by rw [← sameKey_zero.mp hsame]; exact he
      simp only [sameKey_zero.mpr rfl, true_and, ne_eq, not_true_eq_false, false_and, false_or,
        reduceCtorEq, and_false]
      exact ⟨fun h => h.1, fun h => ⟨h, e.2, hold⟩⟩
    · simp [sameKey_zero_right hk, hk]
  · have habsent : ∀ e ∈ m, sameKey ops e.1 0 = false := by simpa using hpresent
    rw [AssocMap.mem_put_of_absent habsent]
    by_cases hk : k = 0
    · subst hk
      have hnot : (0, v) ∉ m := by
        intro h
        have := habsent _ h
        rw [sameKey_zero.mpr rfl] at this
        exact absurd this (by simp)
      simp [hnot]
    · simp [hk]

/-! ## The map -/

inductive Call (K V : Type)
  | put (key : K) (val : V)
  | remove (key : K)
  | get (key : K)
  | contains (key : K)
  | getSize

inductive Reply (V : Type)
  | done
  | value (val : V)
  | present (found : Bool)
  | size (n : Nat)
  deriving DecidableEq

variable [Zero V]

def Call.NonNull : Call K V → Prop
  | .put _ val => val ≠ 0
  | _ => True

def mapCall (ops : KeyOps K) (m : List (K × V)) : Call K V → List (K × V) × Reply V
  | .put key val => (AssocMap.put (sameKey ops) m key val, .done)
  | .remove key => (AssocMap.remove (sameKey ops) m key,
      .value ((AssocMap.get (sameKey ops) m key).getD 0))
  | .get key => (m, .value ((AssocMap.get (sameKey ops) m key).getD 0))
  | .contains key => (m, .present (AssocMap.get (sameKey ops) m key).isSome)
  | .getSize => (m, .size m.length)

def mapCalls (ops : KeyOps K) (m : List (K × V)) : List (Call K V) → List (Reply V)
  | [] => []
  | c :: cs => (mapCall ops m c).2 :: mapCalls ops (mapCall ops m c).1 cs

/-! ## The invariant -/

variable {t : HashTable K V}

structure Stored (ops : KeyOps K) (t : HashTable K V) (m : List (K × V)) : Prop where
  placed : Placed ops t
  distinct : AssocMap.Distinct (sameKey ops) m
  nonnull : ∀ e ∈ m, e.2 ≠ 0
  holds : ∀ k v, k ≠ 0 → (t.Holds k v ↔ (k, v) ∈ m)
  zero : ∀ v, t.zero = some ⟨0, v⟩ ↔ (0, v) ∈ m
  zero_key : ∀ node, t.zero = some node → node.key = 0
  size : t.size = m.length

theorem Stored.present_iff (hs : Stored ops t m) (hkey : key ≠ 0) :
    Present ops t key ↔ ∃ e ∈ m, sameKey ops e.1 key = true := by
  constructor
  · rintro ⟨i, hi, hmatches⟩
    refine ⟨((t.table i).key, (t.table i).val), ?_, (sameKey_of_ne hkey).mpr hmatches⟩
    exact (hs.holds _ _ hmatches.1).mp ⟨i, hi, rfl⟩
  · rintro ⟨e, he, hsame⟩
    obtain ⟨hne, hequals⟩ := (sameKey_of_ne hkey).mp hsame
    obtain ⟨i, hi, heq⟩ := (hs.holds e.1 e.2 hne).mpr he
    exact ⟨i, hi, by rw [heq]; exact ⟨hne, hequals⟩⟩

theorem Stored.absent_iff (hs : Stored ops t m) (hkey : key ≠ 0) :
    ¬ Present ops t key ↔ ∀ e ∈ m, sameKey ops e.1 key = false := by
  rw [hs.present_iff hkey]
  simp

theorem Stored.get_of_matches (hops : ops.Lawful) (hs : Stored ops t m) (hkey : key ≠ 0)
    {index : Nat} (hindex : index < t.capacity) (h : Matches ops key (t.table index)) :
    AssocMap.get (sameKey ops) m key = some (t.table index).val := by
  apply (AssocMap.get_eq_some (sameKey_equivalence hops) hs.distinct).mpr
  refine ⟨((t.table index).key, (t.table index).val), ?_, (sameKey_of_ne hkey).mpr h, rfl⟩
  exact (hs.holds _ _ h.1).mp ⟨index, hindex, rfl⟩

theorem Stored.get_of_absent (hs : Stored ops t m) (hkey : key ≠ 0)
    (h : ¬ Present ops t key) : AssocMap.get (sameKey ops) m key = none :=
  AssocMap.get_eq_none.mpr ((hs.absent_iff hkey).mp h)

theorem Stored.get_zero (hops : ops.Lawful) (hs : Stored ops t m) :
    AssocMap.get (sameKey ops) m 0 = t.zero.map HashNode.val := by
  cases hzero : t.zero with
  | none =>
    apply AssocMap.get_eq_none.mpr
    intro e he
    by_contra hsame
    have hkey : e.1 = 0 := sameKey_zero.mp (by simpa using hsame)
    have := (hs.zero e.2).mpr (by rw [← hkey]; exact he)
    rw [hzero] at this
    exact absurd this (by simp)
  | some node =>
    apply (AssocMap.get_eq_some (sameKey_equivalence hops) hs.distinct).mpr
    have hnode : node = ⟨0, node.val⟩ := by
      rw [← hs.zero_key node hzero]
    exact ⟨(0, node.val), (hs.zero _).mp (by rw [hzero, ← hnode]), sameKey_zero.mpr rfl, rfl⟩

theorem stored_empty (hcap : t.PowerCapacity) (htable : ∀ i < t.capacity, t.table i = ⟨0, 0⟩)
    (hzero : t.zero = none) (hsize : t.size = 0) : Stored ops t [] where
  placed := by
    refine ⟨hcap, ?_, ?_⟩
    · intro i hlt k _ hi
      exact absurd (by rw [htable i hlt]) hi
    · intro i hlt hi
      exact absurd (by rw [htable i hlt]) hi
  distinct := List.Pairwise.nil
  nonnull := by simp
  holds := by
    intro k v hk
    simp only [List.not_mem_nil, iff_false]
    rintro ⟨i, hlt, heq⟩
    rw [htable i hlt] at heq
    exact hk (congrArg HashNode.key heq).symm
  zero := by simp [hzero]
  zero_key := by simp [hzero]
  size := hsize

theorem stored_new {n : Nat} {factor : ℚ} :
    Stored ops (new (2 ^ n) factor : HashTable K V) [] :=
  stored_empty ⟨n, rfl⟩ (fun _ _ => rfl) rfl rfl

theorem Stored.reset (hs : Stored ops t m) : Stored ops t.reset [] :=
  stored_empty hs.placed.power (fun _ _ => rfl) rfl rfl

/-! ## When a call is answered -/

/-- Where `put` stops: at the bin of the key, or at a free bin when there is none. -/
def PutStops (ops : KeyOps K) (t : HashTable K V) (key : K) : Prop :=
  (∃ j < t.capacity, Matches ops key (t.table (t.bin (ops.hash_function key) j)) ∧
    ∀ l < j, (t.table (t.bin (ops.hash_function key) l)).key ≠ 0) ∨
  (¬ Present ops t key ∧ ∃ i < t.capacity, (t.table i).key = 0)

instance (key : K) (node : HashNode K V) : Decidable (Matches ops key node) :=
  inferInstanceAs (Decidable (_ ∧ _))

instance (t : HashTable K V) (key : K) : Decidable (Present ops t key) :=
  inferInstanceAs (Decidable (∃ i < t.capacity, _))

instance (t : HashTable K V) (key : K) : Decidable (PutStops ops t key) :=
  inferInstanceAs (Decidable ((∃ j < t.capacity, _ ∧ ∀ l < j, _) ∨ (_ ∧ ∃ i < t.capacity, _)))

instance [DecidableEq V] (node : HashNode K V) : Decidable node.Empty :=
  inferInstanceAs (Decidable (_ ∧ _))

def Answered (ops : KeyOps K) (t : HashTable K V) : Call K V → Prop
  | .put key _ => key = 0 ∨ t.threshold < t.size ∨ PutStops ops t key
  | .remove key | .contains key =>
      key = 0 ∨ Present ops t key ∨ ∃ i < t.capacity, (t.table i).Empty
  | .get _ | .getSize => True

/-! ## Storing a key -/

theorem Stored.putBin_of_present (hops : ops.Lawful) (hs : Stored ops t m) (hkey : key ≠ 0)
    (hval : val ≠ 0) {j : Nat} (hj : j < t.capacity)
    (hmatches : Matches ops key (t.table (t.bin (ops.hash_function key) j)))
    (hbefore : ∀ l < j, (t.table (t.bin (ops.hash_function key) l)).key ≠ 0) :
    ∃ t', t.putBin ops key val = some t' ∧
      Stored ops t' (AssocMap.put (sameKey ops) m key val) := by
  have hlt := bin_lt hs.placed.power.pos (ops.hash_function key) j
  have hprobe : t.probe (fun search => search.key = 0 || ops.equals search.key key) t.capacity
      (ops.hash_function key) = some (t.bin (ops.hash_function key) j) := by
    apply (probe_eq_some hs.placed.power).mpr
    refine ⟨j, hj, rfl, by simp [hmatches.2], ?_⟩
    intro l hl
    simp only [Bool.or_eq_false_iff, decide_eq_false_iff_not]
    refine ⟨hbefore l hl, ?_⟩
    by_contra hsame
    have heq := hs.placed.single _ (bin_lt hs.placed.power.pos _ l) _ hlt (hbefore l hl) hmatches.1
      (hops.equivalence.trans _ _ _ (by simpa using hsame)
        (hops.equivalence.symm _ _ hmatches.2))
    have := bin_injective _ (by omega) hj heq
    omega
  set index := t.bin (ops.hash_function key) j
  have hpresent : ∃ e ∈ m, sameKey ops e.1 key = true :=
    (hs.present_iff hkey).mp ⟨index, hlt, hmatches⟩
  refine ⟨t.write index { t.table index with val := val }, ?_, ?_⟩
  · unfold putBin
    rw [hprobe]
    exact if_neg hmatches.1
  · refine ⟨?_, hs.distinct.put key val, ?_, ?_, ?_, hs.zero_key, ?_⟩
    · apply hs.placed.write hops
      · exact fun hempty => hmatches.1 hempty.1
      · intro _ i hi hne hikey
        by_contra hsame
        exact hne (hs.placed.single i hi index hlt hikey hmatches.1 (by simpa using hsame))
      · intro _
        obtain ⟨l, hl, hbin, hbefore⟩ := hs.placed.reach index hlt hmatches.1
        exact ⟨l, hl, hbin, hbefore⟩
    · intro e he
      cases (AssocMap.mem_put_of_present hpresent).mp he with
      | inl h => exact hs.nonnull e h.1
      | inr h => rw [h.2.1]; exact hval
    · intro k v hk
      rw [hs.placed.holds_write_of_matches hops hlt hmatches hk, hs.holds k v hk,
        AssocMap.mem_put_of_present hpresent, sameKey_eq_equals hk hkey]
      apply or_congr_right
      constructor
      · intro heq
        obtain ⟨rfl, rfl⟩ := HashNode.mk.inj heq
        exact ⟨hmatches.2, rfl, (t.table index).val, (hs.holds _ _ hk).mp ⟨index, hlt, rfl⟩⟩
      · rintro ⟨hsame, rfl, old, hold⟩
        obtain ⟨i, hi, heq⟩ := (hs.holds k old hk).mpr hold
        have hii : i = index := by
          apply hs.placed.single i hi index hlt
          · rwa [heq]
          · exact hmatches.1
          · rw [heq]
            exact hops.equivalence.trans _ _ _ hsame (hops.equivalence.symm _ _ hmatches.2)
        rw [← hii, heq]
    · intro v
      rw [AssocMap.mem_put_of_present hpresent, write_zero, hs.zero]
      simp [sameKey_zero_left hkey]
    · rw [AssocMap.length_put_of_present hpresent]
      exact hs.size

theorem Stored.putBin_of_absent (hops : ops.Lawful) (hs : Stored ops t m) (hkey : key ≠ 0)
    (hval : val ≠ 0) (habsent : ¬ Present ops t key)
    (hnull : ∃ i < t.capacity, (t.table i).key = 0) :
    ∃ t', t.putBin ops key val = some t' ∧
      Stored ops t' (AssocMap.put (sameKey ops) m key val) := by
  obtain ⟨j, hj, hfree, hbefore, _⟩ :=
    probe_null hs.placed.power hnull (ops.hash_function key)
  have hprobe : t.probe (fun search => search.key = 0 || ops.equals search.key key) t.capacity
      (ops.hash_function key) = some (t.bin (ops.hash_function key) j) := by
    apply (probe_eq_some hs.placed.power).mpr
    refine ⟨j, hj, rfl, by simp [hfree], ?_⟩
    intro l hl
    simp only [Bool.or_eq_false_iff, decide_eq_false_iff_not]
    exact ⟨hbefore l hl, not_present_iff.mp habsent _ (bin_lt hs.placed.power.pos _ l)
      (hbefore l hl)⟩
  have hlt := bin_lt hs.placed.power.pos (ops.hash_function key) j
  have hnew := (hs.absent_iff hkey).mp habsent
  have hplaced := hs.placed.write_absent (b := ⟨key, val⟩) hops hkey habsent hj hbefore
  set index := t.bin (ops.hash_function key) j
  refine ⟨{ t.write index ⟨key, val⟩ with size := t.size + 1 }, ?_, ?_⟩
  · unfold putBin
    rw [hprobe]
    exact if_pos hfree
  · refine ⟨⟨hplaced.power, hplaced.single, hplaced.reach⟩, hs.distinct.put key val, ?_, ?_, ?_,
      hs.zero_key, ?_⟩
    · intro e he
      cases (AssocMap.mem_put_of_absent hnew).mp he with
      | inl h => exact hs.nonnull e h
      | inr h => rw [h]; exact hval
    · intro k v hk
      have hwrite := holds_write_of_null (b := ⟨key, val⟩) hlt hfree (v := v) hk
      rw [hs.holds k v hk] at hwrite
      rw [AssocMap.mem_put_of_absent hnew]
      apply hwrite.trans
      simp [eq_comm]
    · intro v
      rw [AssocMap.mem_put_of_absent hnew]
      show t.zero = _ ↔ _
      simp [hs.zero, hkey.symm]
    · rw [AssocMap.length_put_of_absent hnew]
      exact congrArg (· + 1) hs.size

theorem Rehashed.stored (hs : Stored ops t m) {s : HashTable K V}
    (h : Rehashed ops t t.capacity s) : Stored ops s m where
  placed := h.placed
  distinct := hs.distinct
  nonnull := hs.nonnull
  holds := fun k v hk => (h.holds k v hk).trans (hs.holds k v hk)
  zero := by rw [h.zero]; exact hs.zero
  zero_key := by rw [h.zero]; exact hs.zero_key
  size := by rw [h.size]; exact hs.size

theorem Rehashed.putStops (hops : ops.Lawful) (ht : Placed ops t) {s : HashTable K V}
    (h : Rehashed ops t t.capacity s) : PutStops ops s key := by
  by_cases hpresent : Present ops s key
  · left
    obtain ⟨j, hj, hmatches, hbefore⟩ := h.placed.exists_bin_of_present hops hpresent
    refine ⟨j, hj, hmatches, ?_⟩
    intro l hl hnull
    exact (hbefore l hl).1 (h.clean _ (bin_lt h.placed.power.pos _ l) hnull)
  · right
    refine ⟨hpresent, exists_null_of_card_lt ?_⟩
    have hcard := h.card
    have hcapacity := h.capacity
    have hpos := ht.power.pos
    rw [Nat.shiftLeft_eq] at hcapacity
    omega

theorem Stored.grow (hops : ops.Lawful) (hs : Stored ops t m)
    (h : t.threshold < t.size ∨ PutStops ops t key) :
    ∃ s, t.grow ops = some s ∧ Stored ops s m ∧ PutStops ops s key := by
  unfold HashTable.grow
  split_ifs with hsize
  · obtain ⟨s, hresize, hrehashed⟩ := exists_resize hops hs.placed
    exact ⟨s, hresize, hrehashed.stored hs, hrehashed.putStops hops hs.placed⟩
  · exact ⟨t, rfl, hs, h.resolve_left hsize⟩

theorem Stored.put_zero (hops : ops.Lawful) (hs : Stored ops t m) (hval : val ≠ 0) :
    ∃ t', t.put ops 0 val = some t' ∧
      Stored ops t' (AssocMap.put (sameKey ops) m 0 val) := by
  have hzero := hs.get_zero hops
  unfold HashTable.put
  rw [if_pos rfl]
  refine ⟨_, rfl, ⟨hs.placed.power, hs.placed.single, hs.placed.reach⟩,
    hs.distinct.put 0 val, ?_, ?_, ?_, ?_, ?_⟩
  · rintro ⟨k, v⟩ he
    cases mem_put_zero.mp he with
    | inl h => exact hs.nonnull (k, v) h.2
    | inr h => rw [h.2]; exact hval
  · intro k v hk
    have hholds := hs.holds k v hk
    rw [mem_put_zero]
    simp only [hk, ne_eq, not_false_eq_true, true_and, false_and, or_false]
    exact hholds
  · intro v
    rw [mem_put_zero]
    simp [eq_comm]
  · intro node hnode
    rw [← Option.some_inj.mp hnode]
  · cases hnone : t.zero with
    | none =>
      rw [hnone] at hzero
      rw [AssocMap.length_put_of_absent (AssocMap.get_eq_none.mp hzero)]
      exact congrArg (· + 1) hs.size
    | some node =>
      rw [hnone] at hzero
      obtain ⟨e, he, hsame, _⟩ :=
        (AssocMap.get_eq_some (sameKey_equivalence hops) hs.distinct).mp hzero
      rw [AssocMap.length_put_of_present ⟨e, he, hsame⟩]
      exact hs.size

theorem Stored.put (hops : ops.Lawful) (hs : Stored ops t m) (hval : val ≠ 0)
    (h : Answered ops t (.put key val)) :
    ∃ t', t.put ops key val = some t' ∧
      Stored ops t' (AssocMap.put (sameKey ops) m key val) := by
  by_cases hkey : key = 0
  · subst hkey
    exact hs.put_zero hops hval
  · obtain ⟨s, hgrow, hstored, hstops⟩ := hs.grow hops (h.resolve_left hkey)
    have hput : t.put ops key val = s.putBin ops key val := by
      unfold HashTable.put
      rw [if_neg hkey, hgrow]
      rfl
    rw [hput]
    cases hstops with
    | inl h =>
      obtain ⟨j, hj, hmatches, hbefore⟩ := h
      exact hstored.putBin_of_present hops hkey hval hj hmatches hbefore
    | inr h => exact hstored.putBin_of_absent hops hkey hval h.1 h.2

/-! ## Reading -/

variable [DecidableEq V]

theorem Stored.get (hops : ops.Lawful) (hs : Stored ops t m) (key : K) :
    t.get ops key = some ((AssocMap.get (sameKey ops) m key).getD 0) := by
  unfold HashTable.get
  split_ifs with hkey
  · rw [hkey, hs.get_zero hops]
  · have hcap := hs.placed.power
    have hstart : ops.hash_function key &&& t.capacitymask =
        t.bin (ops.hash_function key) 0 := hcap.and_mask _
    simp only [hstart]
    by_cases hpresent : Present ops t key
    · obtain ⟨j, hj, hmatches, hbefore⟩ := hs.placed.exists_bin_of_present hops hpresent
      rw [getLoop_of_present hcap _ (Nat.zero_add _) (Nat.zero_le j) hj hmatches
        (fun l _ hl => hbefore l hl),
        hs.get_of_matches hops hkey (bin_lt hcap.pos _ j) hmatches]
      rfl
    · rw [getLoop_of_absent hcap _ (Nat.zero_add _) hcap.pos hpresent,
        hs.get_of_absent hkey hpresent]
      rfl

/-- The loop of `remove` and `contains` ends at the bin of the key, or at one with a null key. -/
theorem Stored.probe_found (hops : ops.Lawful) (hs : Stored ops t m)
    (h : Present ops t key ∨ ∃ i < t.capacity, (t.table i).Empty) :
    ∃ index < t.capacity,
      t.probe (found ops key) t.capacity (ops.hash_function key) = some index ∧
      (Matches ops key (t.table index) ∨
        ((t.table index).key = 0 ∧ ¬ Present ops t key)) := by
  by_cases hpresent : Present ops t key
  · obtain ⟨index, hlt, hmatches, hprobe⟩ := hs.placed.probe_found_of_present hops hpresent
    exact ⟨index, hlt, hprobe, Or.inl hmatches⟩
  · obtain ⟨index, hnull, hprobe⟩ :=
      probe_found_of_absent hs.placed.power hpresent (h.resolve_left hpresent)
    obtain ⟨j, _, hbin, _⟩ := (probe_eq_some hs.placed.power).mp hprobe
    refine ⟨index, ?_, hprobe, Or.inr ⟨hnull, hpresent⟩⟩
    rw [← hbin]
    exact bin_lt hs.placed.power.pos _ j

theorem Stored.contains (hops : ops.Lawful) (hs : Stored ops t m)
    (h : Answered ops t (.contains key)) :
    t.contains ops key = some (AssocMap.get (sameKey ops) m key).isSome := by
  unfold HashTable.contains
  split_ifs with hkey
  · rw [hkey, hs.get_zero hops, Option.isSome_map]
  · obtain ⟨index, hlt, hprobe, hstop⟩ := hs.probe_found hops (h.resolve_left hkey)
    rw [hprobe]
    show some (decide ((t.table index).key ≠ 0)) = _
    cases hstop with
    | inl hmatches =>
      rw [hs.get_of_matches hops hkey hlt hmatches]
      simp [hmatches.1]
    | inr hnull =>
      rw [hs.get_of_absent hkey hnull.2]
      simp [hnull.1]

/-! ## Removing -/

variable [One V]

theorem Stored.remove_zero (hops : ops.Lawful) (hs : Stored ops t m) :
    ∃ t', t.remove ops 0 = some (t', (AssocMap.get (sameKey ops) m 0).getD 0) ∧
      Stored ops t' (AssocMap.remove (sameKey ops) m 0) := by
  have hget := hs.get_zero hops
  unfold HashTable.remove
  rw [if_pos rfl]
  cases hzero : t.zero with
  | none =>
    rw [hzero] at hget
    rw [hget, AssocMap.remove_of_absent (AssocMap.get_eq_none.mp hget)]
    exact ⟨t, rfl, hs⟩
  | some node =>
    rw [hzero] at hget
    obtain ⟨e, he, hsame, _⟩ :=
      (AssocMap.get_eq_some (sameKey_equivalence hops) hs.distinct).mp hget
    have hlength := AssocMap.length_remove_of_present (sameKey_equivalence hops) hs.distinct
      ⟨e, he, hsame⟩
    rw [hget]
    refine ⟨_, rfl, ⟨hs.placed.power, hs.placed.single, hs.placed.reach⟩,
      hs.distinct.remove 0, ?_, ?_, ?_, ?_, ?_⟩
    · intro a ha
      exact hs.nonnull a (AssocMap.mem_remove.mp ha).1
    · intro k v hk
      have hholds := hs.holds k v hk
      rw [AssocMap.mem_remove]
      simp only [sameKey_zero_right hk, and_true]
      exact hholds
    · intro v
      rw [AssocMap.mem_remove]
      simp [sameKey_zero.mpr rfl]
    · intro node hnode
      exact absurd hnode (by simp)
    · show t.size - 1 = _
      have := hs.size
      omega

theorem Stored.remove [NeZero (1 : V)] (hops : ops.Lawful) (hs : Stored ops t m)
    (h : Answered ops t (.remove key)) :
    ∃ t', t.remove ops key = some (t', (AssocMap.get (sameKey ops) m key).getD 0) ∧
      Stored ops t' (AssocMap.remove (sameKey ops) m key) := by
  by_cases hkey : key = 0
  · subst hkey
    exact hs.remove_zero hops
  · obtain ⟨index, hlt, hprobe, hstop⟩ := hs.probe_found hops (h.resolve_left hkey)
    unfold HashTable.remove
    rw [if_neg hkey, hprobe]
    cases hstop with
    | inr hnull =>
      have hget := hs.get_of_absent hkey hnull.2
      rw [hget, AssocMap.remove_of_absent (AssocMap.get_eq_none.mp hget)]
      exact ⟨t, if_pos hnull.1, hs⟩
    | inl hmatches =>
      rw [hs.get_of_matches hops hkey hlt hmatches]
      have hlength := AssocMap.length_remove_of_present (sameKey_equivalence hops) hs.distinct
        ((hs.present_iff hkey).mp ⟨index, hlt, hmatches⟩)
      have hplaced : Placed ops (t.write index ⟨0, 1⟩) :=
        hs.placed.write hops (fun hempty => NeZero.ne (1 : V) hempty.2)
          (fun hb => absurd rfl hb) (fun hb => absurd rfl hb)
      refine ⟨{ t.write index ⟨0, 1⟩ with size := t.size - 1 }, if_neg hmatches.1,
        ⟨hplaced.power, hplaced.single, hplaced.reach⟩, hs.distinct.remove key, ?_, ?_, ?_,
        hs.zero_key, ?_⟩
      · intro a ha
        exact hs.nonnull a (AssocMap.mem_remove.mp ha).1
      · intro k v hk
        have hwrite := hs.placed.holds_write_of_matches (b := ⟨0, 1⟩) (v := v) hops hlt hmatches hk
        rw [hs.holds k v hk] at hwrite
        rw [AssocMap.mem_remove, sameKey_eq_equals hk hkey]
        apply hwrite.trans
        simp [hk.symm]
      · intro v
        rw [AssocMap.mem_remove]
        show t.zero = _ ↔ _
        simp [hs.zero, sameKey_zero_left hkey]
      · show t.size - 1 = _
        have := hs.size
        omega

/-! ## Runs -/

def call (ops : KeyOps K) (t : HashTable K V) : Call K V → Option (HashTable K V × Reply V)
  | .put key val => (t.put ops key val).map fun t => (t, .done)
  | .remove key => (t.remove ops key).map fun r => (r.1, .value r.2)
  | .get key => (t.get ops key).map fun val => (t, .value val)
  | .contains key => (t.contains ops key).map fun found => (t, .present found)
  | .getSize => some (t, .size t.getSize)

def calls (ops : KeyOps K) (t : HashTable K V) : List (Call K V) → Option (List (Reply V))
  | [] => some []
  | c :: cs => do
      let (t, reply) ← t.call ops c
      let replies ← t.calls ops cs
      some (reply :: replies)

/-- Every call of the run is made on a table that answers it. -/
def AllAnswered (ops : KeyOps K) (t : HashTable K V) : List (Call K V) → Prop
  | [] => True
  | c :: cs => Answered ops t c ∧ ∀ r ∈ t.call ops c, AllAnswered ops r.1 cs

instance (ops : KeyOps K) (t : HashTable K V) (c : Call K V) : Decidable (Answered ops t c) :=
  match c with
  | .put key _ => inferInstanceAs (Decidable (key = 0 ∨ t.threshold < t.size ∨ PutStops ops t key))
  | .remove key => inferInstanceAs (Decidable (key = 0 ∨ Present ops t key ∨
      ∃ i < t.capacity, (t.table i).Empty))
  | .contains key => inferInstanceAs (Decidable (key = 0 ∨ Present ops t key ∨
      ∃ i < t.capacity, (t.table i).Empty))
  | .get _ | .getSize => isTrue trivial

instance decidableAllAnswered (ops : KeyOps K) :
    ∀ (t : HashTable K V) (cs : List (Call K V)), Decidable (AllAnswered ops t cs)
  | _, [] => isTrue trivial
  | t, c :: cs =>
      have (r : HashTable K V × Reply V) := decidableAllAnswered ops r.1 cs
      inferInstanceAs (Decidable (Answered ops t c ∧ ∀ r ∈ t.call ops c, AllAnswered ops r.1 cs))


theorem Stored.call [NeZero (1 : V)] (hops : ops.Lawful) (hs : Stored ops t m) {c : Call K V}
    (hc : c.NonNull) (h : Answered ops t c) :
    ∃ t', t.call ops c = some (t', (mapCall ops m c).2) ∧ Stored ops t' (mapCall ops m c).1 := by
  cases c with
  | put key val =>
    obtain ⟨t', hput, hstored⟩ := hs.put hops hc h
    refine ⟨t', ?_, hstored⟩
    show (t.put ops key val).map _ = _
    rw [hput]
    rfl
  | remove key =>
    obtain ⟨t', hremove, hstored⟩ := hs.remove hops h
    refine ⟨t', ?_, hstored⟩
    show (t.remove ops key).map _ = _
    rw [hremove]
    rfl
  | get key =>
    refine ⟨t, ?_, hs⟩
    show (t.get ops key).map _ = _
    rw [hs.get hops key]
    rfl
  | contains key =>
    refine ⟨t, ?_, hs⟩
    show (t.contains ops key).map _ = _
    rw [hs.contains hops h]
    rfl
  | getSize =>
    refine ⟨t, ?_, hs⟩
    show some (t, Reply.size t.size) = _
    rw [hs.size]
    rfl

theorem Stored.calls [NeZero (1 : V)] (hops : ops.Lawful) {cs : List (Call K V)}
    (hs : Stored ops t m) (hcs : ∀ c ∈ cs, c.NonNull) (h : AllAnswered ops t cs) :
    t.calls ops cs = some (mapCalls ops m cs) := by
  induction cs generalizing t m with
  | nil => rfl
  | cons c cs ih =>
    obtain ⟨hc, hrest⟩ := h
    obtain ⟨t', hcall, hstored⟩ := hs.call hops (hcs c List.mem_cons_self) hc
    have htail := ih hstored (fun a ha => hcs a (List.mem_cons_of_mem c ha))
      (hrest _ hcall)
    unfold HashTable.calls
    rw [hcall]
    show (do let replies ← t'.calls ops cs; some (_ :: replies)) = _
    rw [htail]
    rfl

/-- Every run gives the replies of the map. -/
def IsMap (K V : Type) [Zero K] [DecidableEq K] [Zero V] [DecidableEq V] [One V] : Prop :=
  ∀ (ops : KeyOps K), ops.Lawful → ∀ (n : Nat) (factor : ℚ) (cs : List (Call K V)),
    (∀ c ∈ cs, c.NonNull) →
    (new (2 ^ n) factor : HashTable K V).calls ops cs = some (mapCalls ops [] cs)

/-- The table is a map along every run whose calls it answers. -/
theorem calls_new [NeZero (1 : V)] (hops : ops.Lawful) (n : Nat) (factor : ℚ)
    (cs : List (Call K V)) (hcs : ∀ c ∈ cs, c.NonNull)
    (h : AllAnswered ops (new (2 ^ n) factor) cs) :
    (new (2 ^ n) factor : HashTable K V).calls ops cs = some (mapCalls ops [] cs) :=
  stored_new.calls hops hcs h

/-- `default_hash_function` and `default_equals` at 64-bit keys, with no shift. -/
def defaultOps : KeyOps UInt64 where
  hash_function key := key.toNat % 2 ^ 32
  equals a b := a == b

theorem defaultOps_lawful : defaultOps.Lawful where
  equivalence := by
    refine ⟨?_, ?_, ?_⟩ <;> simp [defaultOps]
  hash a b h := by
    have : a = b := by simpa [defaultOps] using h
    rw [this]

/-- Keys 1 and 5 collide; removing 1 leaves a removed bin before the bin of 5. -/
theorem not_isMap : ¬ IsMap UInt64 UInt64 := by
  intro h
  have hspec := h defaultOps defaultOps_lawful 2 (1 / 2)
    [.put 1 1, .put 5 2, .remove 1, .put 5 3, .getSize] (by simp [Call.NonNull])
  have hrun : (new (2 ^ 2) (1 / 2) : HashTable UInt64 UInt64).calls defaultOps
      [.put 1 1, .put 5 2, .remove 1, .put 5 3, .getSize] =
      some [.done, .done, .value 1, .done, .size 2] := by decide +kernel
  rw [hrun] at hspec
  exact absurd hspec (by decide +kernel)

/-- A run through a resize and a removed bin that the next keys do not meet. -/
theorem calls_new_answered :
    (new (2 ^ 1) (1 / 2) : HashTable UInt64 UInt64).calls defaultOps
      [.put 1 1, .put 3 2, .put 4 3, .remove 1, .get 3, .getSize] =
      some [.done, .done, .done, .value 1, .value 2, .size 2] := by
  have : NeZero (1 : UInt64) := ⟨by decide⟩
  rw [calls_new (V := UInt64) defaultOps_lawful 1 (1 / 2)
    [.put 1 1, .put 3 2, .put 4 3, .remove 1, .get 3, .getSize] (by simp [Call.NonNull])
    (by decide +kernel)]
  decide +kernel

end SatCheck.HashTable
