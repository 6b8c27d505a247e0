import SatCheck.HashTableLoad
/-!
# Which probe loops end

A removed key leaves a bin that `remove` and `contains` pass by, so that their loops go round for
ever once no bin is left that was never used.  `put` stops at such a bin, and at a load factor of
one half it always has one; `get` ends where it started.
-/

namespace SatCheck.HashTable

variable {K V : Type} {t : HashTable K V}

theorem probe_isSome_iff (hcap : t.PowerCapacity) {stop : HashNode K V → Bool} {hash : Nat} :
    (t.probe stop t.capacity hash).isSome ↔ ∃ i < t.capacity, stop (t.table i) = true := by
  constructor
  · intro h
    obtain ⟨index, hindex⟩ := Option.isSome_iff_exists.mp h
    obtain ⟨j, -, rfl, hstop, -⟩ := (probe_eq_some hcap).mp hindex
    exact ⟨_, bin_lt hcap.pos hash j, hstop⟩
  · rintro ⟨i, hi, hstop⟩
    rw [← Option.ne_none_iff_isSome]
    intro hnone
    obtain ⟨j, hj, rfl⟩ := exists_bin_eq (t := t) hash hi
    rw [(probe_eq_none hcap).mp hnone j hj] at hstop
    exact absurd hstop (by decide)

variable [Zero K] [DecidableEq K] {ops : KeyOps K} {key : K} {val : V}

/-! ## The number of keys -/

/-- `size` counts every bin that holds a key and the node of the null key. -/
structure Counted (t : HashTable K V) : Prop where
  power : t.PowerCapacity
  capacity : 2 ≤ t.capacity
  factor : t.loadfactor = 1 / 2
  size : t.occupied.card + t.zero.toList.length ≤ t.size

theorem counted_new [Zero V] (n : Nat) :
    Counted (new (2 ^ (n + 1)) (1 / 2) : HashTable K V) where
  power := ⟨n + 1, rfl⟩
  capacity := by
    show 2 ≤ 2 ^ (n + 1)
    rw [pow_succ]
    have := Nat.two_pow_pos n
    omega
  factor := rfl
  size := by simp [HashTable.new, occupied]

theorem exists_insertBin (ops : KeyOps K) (hcap : t.PowerCapacity)
    (hfree : t.occupied.card < t.capacity)
    (bin : HashNode K V) :
    ∃ t', t.insertBin ops bin = some t' ∧ t'.capacity = t.capacity ∧ t'.size = t.size ∧
      t'.zero = t.zero ∧ t'.loadfactor = t.loadfactor ∧
      t'.occupied.card ≤ t.occupied.card + (if bin.key = 0 then 0 else 1) := by
  unfold insertBin
  split_ifs with hkey
  · exact ⟨t, rfl, rfl, rfl, rfl, rfl, le_rfl⟩
  · obtain ⟨j, -, -, -, hprobe⟩ := probe_null hcap (exists_null_of_card_lt hfree)
      (ops.hash_function bin.key)
    rw [hprobe]
    exact ⟨_, rfl, rfl, rfl, rfl, rfl, card_occupied_write t _ bin⟩

/-- The bins below `n` that hold a key. -/
def occupiedBelow (t : HashTable K V) (n : Nat) : Finset Nat :=
  (Finset.range n).filter fun i => (t.table i).key ≠ 0

private theorem card_occupiedBelow_succ (t : HashTable K V) (n : Nat) :
    (t.occupiedBelow (n + 1)).card =
      (t.occupiedBelow n).card + (if (t.table n).key = 0 then 0 else 1) := by
  unfold occupiedBelow
  rw [Finset.range_add_one, Finset.filter_insert]
  by_cases hkey : (t.table n).key = 0
  · rw [if_neg (not_not_intro hkey), if_pos hkey, Nat.add_zero]
  · rw [if_pos hkey, if_neg hkey, Finset.card_insert_of_notMem (by simp)]

private theorem exists_resize_double [Zero V] (hcap : t.PowerCapacity) :
    ∃ s, t.resize ops (t.capacity <<< 1) = some s ∧ s.capacity = t.capacity * 2 ∧
      s.size = t.size ∧ s.zero = t.zero ∧ s.loadfactor = t.loadfactor ∧
      s.occupied.card ≤ t.occupied.card := by
  have hdouble : t.capacity <<< 1 = t.capacity * 2 := by rw [Nat.shiftLeft_eq, pow_one]
  have hpower : ∀ s : HashTable K V, s.capacity = t.capacity * 2 → s.PowerCapacity := by
    intro s hs
    obtain ⟨k, hk⟩ := hcap
    exact ⟨k + 1, by rw [hs, hk, pow_succ]⟩
  rw [hdouble]
  suffices h : ∀ n ≤ t.capacity, ∃ s,
      (List.range n).foldlM (fun s bin => s.insertBin ops (t.table bin))
        { t with table := fun _ => ⟨0, 0⟩, capacity := t.capacity * 2 } = some s ∧
      s.capacity = t.capacity * 2 ∧ s.size = t.size ∧ s.zero = t.zero ∧
      s.loadfactor = t.loadfactor ∧ s.occupied.card ≤ (t.occupiedBelow n).card from
    h t.capacity le_rfl
  intro n
  induction n with
  | zero => exact fun _ => ⟨_, rfl, rfl, rfl, rfl, rfl, by simp [occupied]⟩
  | succ n ih =>
    intro hn
    obtain ⟨s, hfold, hcapacity, hsize, hzero, hfactor, hcard⟩ := ih (by omega)
    have hbelow : (t.occupiedBelow n).card ≤ n := by
      calc (t.occupiedBelow n).card ≤ (Finset.range n).card := Finset.card_filter_le _ _
        _ = n := Finset.card_range n
    obtain ⟨s', hinsert, hcapacity', hsize', hzero', hfactor', hcard'⟩ :=
      exists_insertBin ops (hpower s hcapacity) (by omega) (t.table n)
    refine ⟨s', ?_, hcapacity'.trans hcapacity, hsize'.trans hsize, hzero'.trans hzero,
      hfactor'.trans hfactor, ?_⟩
    · rw [List.range_succ, List.foldlM_append, hfold]
      simpa using hinsert
    · rw [card_occupiedBelow_succ]
      omega

theorem Counted.exists_grow [Zero V] (h : Counted t) (ops : KeyOps K) :
    ∃ s, t.grow ops = some s ∧ Counted s ∧ s.occupied.card < s.capacity := by
  have hcapacity := h.capacity
  have hsize := h.size
  unfold grow
  split_ifs with hload
  · obtain ⟨s, hresize, hdouble, hssize, hzero, hfactor, hcard⟩ := exists_resize_double h.power
    have hle : t.occupied.card ≤ t.capacity := by
      calc t.occupied.card ≤ (Finset.range t.capacity).card := Finset.card_filter_le _ _
        _ = t.capacity := Finset.card_range _
    refine ⟨s, hresize, ⟨?_, by omega, hfactor.trans h.factor, ?_⟩, by omega⟩
    · obtain ⟨k, hk⟩ := h.power
      exact ⟨k + 1, by rw [hdouble, hk, pow_succ]⟩
    · rw [hzero, hssize]
      omega
  · rw [threshold_half h.factor] at hload
    exact ⟨t, rfl, h, by omega⟩

theorem Counted.exists_put [Zero V] (h : Counted t) (ops : KeyOps K) (key : K) (val : V) :
    ∃ t', t.put ops key val = some t' ∧ Counted t' := by
  have hsize := h.size
  by_cases hkey : key = 0
  · unfold HashTable.put
    rw [if_pos hkey]
    refine ⟨_, rfl, h.power, h.capacity, h.factor, ?_⟩
    show t.occupied.card + 1 ≤ if t.zero.isNone then t.size + 1 else t.size
    cases hzero : t.zero with
    | none =>
      rw [hzero] at hsize
      exact Nat.succ_le_succ hsize
    | some zero =>
      rw [hzero] at hsize
      exact hsize
  · obtain ⟨s, hgrow, hs, hfree⟩ := h.exists_grow ops
    have hssize := hs.size
    obtain ⟨i, hi, hnull⟩ := exists_null_of_card_lt hfree
    have hprobe : (s.probe (fun search => search.key = 0 || ops.equals search.key key) s.capacity
        (ops.hash_function key)).isSome := by
      apply (probe_isSome_iff hs.power).mpr
      exact ⟨i, hi, by simp [hnull]⟩
    obtain ⟨index, hindex⟩ := Option.isSome_iff_exists.mp hprobe
    rw [put_of_ne hkey, hgrow, Option.bind_some]
    unfold putBin
    rw [hindex]
    show ∃ t', (if (s.table index).key = 0 then _ else _) = some t' ∧ Counted t'
    split_ifs with hfound
    · refine ⟨_, rfl, hs.power, hs.capacity, hs.factor, ?_⟩
      have hcard := card_occupied_write s index ⟨key, val⟩
      show (s.write index ⟨key, val⟩).occupied.card + s.zero.toList.length ≤ s.size + 1
      omega
    · refine ⟨_, rfl, hs.power, hs.capacity, hs.factor, ?_⟩
      have hcard : (s.write index { s.table index with val := val }).occupied = s.occupied := by
        apply Finset.filter_congr
        intro j _
        by_cases hj : j = index
        · rw [hj, write_table_self]
        · rw [write_table_of_ne hj]
      show (s.write index { s.table index with val := val }).occupied.card +
        s.zero.toList.length ≤ s.size
      rw [hcard]
      exact hssize

/-! ## The loops of `get`, `remove` and `contains` -/

variable [Zero V] [DecidableEq V]

private theorem getLoop_isSome (hcap : t.PowerCapacity) (hash : Nat) {fuel j : Nat}
    (hround : t.capacity ≤ fuel + j) (hj : j < t.capacity) :
    (t.getLoop ops key (t.bin hash 0) fuel (t.bin hash j)).isSome := by
  induction fuel generalizing j with
  | zero => omega
  | succ fuel ih =>
    unfold getLoop
    simp only [next_bin hcap]
    split_ifs with hempty hmatches hback
    · rfl
    · rfl
    · rfl
    · apply ih (by omega)
      by_contra hlast
      have hwhole : j + 1 = t.capacity := by omega
      apply hback
      rw [hwhole]
      unfold bin
      rw [Nat.add_mod_right, Nat.add_zero]

theorem get_isSome (hcap : t.PowerCapacity) (key : K) : (t.get ops key).isSome := by
  unfold HashTable.get
  split_ifs
  · rfl
  · have hstart : ops.hash_function key &&& t.capacitymask = t.bin (ops.hash_function key) 0 :=
      hcap.and_mask _
    simp only [hstart]
    exact getLoop_isSome hcap _ le_rfl hcap.pos

/-- The key is stored, or a bin was never used. -/
def Stops (ops : KeyOps K) (t : HashTable K V) (key : K) : Prop :=
  Present ops t key ∨ ∃ i < t.capacity, (t.table i).Empty

theorem probe_found_isSome_iff (hcap : t.PowerCapacity) (hash : Nat) :
    (t.probe (found ops key) t.capacity hash).isSome ↔ Stops ops t key := by
  simp only [probe_isSome_iff hcap, found_eq_true, Stops, Present]
  constructor
  · rintro ⟨i, hi, hempty | hmatches⟩
    · exact Or.inr ⟨i, hi, hempty⟩
    · exact Or.inl ⟨i, hi, hmatches⟩
  · rintro (⟨i, hi, hmatches⟩ | ⟨i, hi, hempty⟩)
    · exact ⟨i, hi, Or.inr hmatches⟩
    · exact ⟨i, hi, Or.inl hempty⟩

theorem contains_isSome_iff (hcap : t.PowerCapacity) :
    (t.contains ops key).isSome ↔ key = 0 ∨ Stops ops t key := by
  unfold HashTable.contains
  by_cases hkey : key = 0
  · simp [hkey]
  · rw [if_neg hkey, ← probe_found_isSome_iff hcap (ops.hash_function key)]
    show (Option.bind _ _).isSome = true ↔ _
    cases t.probe (found ops key) t.capacity (ops.hash_function key) <;> simp [hkey]

variable [One V]

theorem remove_isSome_iff (hcap : t.PowerCapacity) :
    (t.remove ops key).isSome ↔ key = 0 ∨ Stops ops t key := by
  unfold HashTable.remove
  by_cases hkey : key = 0
  · cases t.zero <;> simp [hkey]
  · rw [if_neg hkey, ← probe_found_isSome_iff hcap (ops.hash_function key)]
    show (Option.bind _ _).isSome = true ↔ _
    cases t.probe (found ops key) t.capacity (ops.hash_function key) with
    | none => simp [hkey]
    | some index => by_cases hnull : (t.table index).key = 0 <;> simp [hnull]

theorem Counted.remove (h : Counted t) {r : HashTable K V × V} (hr : t.remove ops key = some r) :
    Counted r.1 := by
  have hsize := h.size
  unfold HashTable.remove at hr
  split_ifs at hr with hkey
  · cases hzero : t.zero with
    | none =>
      rw [hzero] at hr
      rw [← Option.some_inj.mp hr]
      exact h
    | some zero =>
      rw [hzero] at hr hsize
      rw [← Option.some_inj.mp hr]
      refine ⟨h.power, h.capacity, h.factor, ?_⟩
      show t.occupied.card + 0 ≤ t.size - 1
      rw [Option.toList_some, List.length_singleton] at hsize
      omega
  · obtain ⟨index, hprobe, hr⟩ := Option.bind_eq_some_iff.mp hr
    obtain ⟨j, -, hindex, -, -⟩ := (probe_eq_some h.power).mp hprobe
    by_cases hnull : (t.table index).key = 0
    · rw [← Option.some_inj.mp ((if_pos hnull).symm.trans hr)]
      exact h
    · rw [← Option.some_inj.mp ((if_neg hnull).symm.trans hr)]
      refine ⟨h.power, h.capacity, h.factor, ?_⟩
      have hmem : index ∈ t.occupied := by
        apply Finset.mem_filter.mpr
        exact ⟨Finset.mem_range.mpr (hindex ▸ bin_lt h.power.pos _ j), hnull⟩
      have hemptied : (t.write index ⟨0, 1⟩).occupied ⊆ t.occupied.erase index := by
        intro i hi
        obtain ⟨hlt, hi⟩ := Finset.mem_filter.mp hi
        by_cases hii : i = index
        · rw [hii, write_table_self] at hi
          exact absurd rfl hi
        · rw [write_table_of_ne hii] at hi
          exact Finset.mem_erase.mpr ⟨hii, Finset.mem_filter.mpr ⟨hlt, hi⟩⟩
      have hcard := Finset.card_le_card hemptied
      rw [Finset.card_erase_of_mem hmem] at hcard
      have hpos := Finset.card_pos.mpr ⟨index, hmem⟩
      show (t.write index ⟨0, 1⟩).occupied.card + t.zero.toList.length ≤ t.size - 1
      omega

/-! ## Runs -/

/-- When the loops of a call end. -/
def Ends (ops : KeyOps K) (t : HashTable K V) : Call K V → Prop
  | .remove key | .contains key => key = 0 ∨ Stops ops t key
  | .put _ _ | .get _ | .getSize => True

/-- Every call of the run is made on a table where it ends. -/
def AllEnd (ops : KeyOps K) (t : HashTable K V) : List (Call K V) → Prop
  | [] => True
  | c :: cs => Ends ops t c ∧ ∀ r ∈ t.call ops c, AllEnd ops r.1 cs

theorem Counted.call_isSome_iff (h : Counted t) (ops : KeyOps K) (c : Call K V) :
    (t.call ops c).isSome ↔ Ends ops t c := by
  cases c with
  | put key val =>
    obtain ⟨t', hput, -⟩ := h.exists_put ops key val
    simp [HashTable.call, Ends, hput]
  | remove key => simp [HashTable.call, Ends, remove_isSome_iff h.power]
  | get key => simp [HashTable.call, Ends, get_isSome h.power]
  | contains key => simp [HashTable.call, Ends, contains_isSome_iff h.power]
  | getSize => simp [HashTable.call, Ends]

theorem Counted.call (h : Counted t) {c : Call K V} {r : HashTable K V × Reply V}
    (hr : t.call ops c = some r) : Counted r.1 := by
  cases c with
  | put key val =>
    obtain ⟨t', hput, rfl⟩ := Option.map_eq_some_iff.mp hr
    obtain ⟨s, hs, hcounted⟩ := h.exists_put ops key val
    rw [Option.some_inj.mp (hput.symm.trans hs)]
    exact hcounted
  | remove key =>
    obtain ⟨r', hremove, rfl⟩ := Option.map_eq_some_iff.mp hr
    exact h.remove hremove
  | get key =>
    obtain ⟨val, -, rfl⟩ := Option.map_eq_some_iff.mp hr
    exact h
  | contains key =>
    obtain ⟨b, -, rfl⟩ := Option.map_eq_some_iff.mp hr
    exact h
  | getSize =>
    rw [← Option.some_inj.mp hr]
    exact h

theorem Counted.calls_isSome_iff (h : Counted t) (cs : List (Call K V)) :
    (t.calls ops cs).isSome ↔ AllEnd ops t cs := by
  induction cs generalizing t with
  | nil => simp [HashTable.calls, AllEnd]
  | cons c cs ih =>
    have hfirst := h.call_isSome_iff ops c
    unfold HashTable.calls AllEnd
    rw [← hfirst]
    cases hcall : t.call ops c with
    | none => simp
    | some r =>
      have hrest := ih (h.call hcall)
      simp only [Option.isSome_some, true_and, Option.mem_some_iff, forall_eq', ← hrest]
      show (Option.bind (r.1.calls ops cs) _).isSome = true ↔ _
      cases r.1.calls ops cs <;> simp

/-- A run ends exactly when no `remove` or `contains` looks for an absent key in a table whose
bins have all been used. -/
theorem calls_new_isSome_iff (ops : KeyOps K) (n : Nat) (cs : List (Call K V)) :
    ((new (2 ^ (n + 1)) (1 / 2) : HashTable K V).calls ops cs).isSome ↔
      AllEnd ops (new (2 ^ (n + 1)) (1 / 2)) cs :=
  (counted_new n).calls_isSome_iff cs

/-- One removed key and one stored key fill a table of two bins. -/
theorem not_forall_calls_isSome :
    ¬ ∀ (n : Nat) (cs : List (Call UInt64 UInt64)), (∀ c ∈ cs, c.NonNull) →
      ((new (2 ^ (n + 1)) (1 / 2) : HashTable UInt64 UInt64).calls defaultOps cs).isSome := by
  intro h
  have hends := h 0 [.put 2 1, .remove 2, .put 1 1, .contains 3] (by simp [Call.NonNull])
  revert hends
  decide +kernel

end SatCheck.HashTable
