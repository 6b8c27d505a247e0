import SatCheck.Traversal
/-!
# Groups of memory operations

`groupMemoryOperations` and `mergeSets`: the memory operations that may share an address
are in one `StoreLoadSet`, which numbers their addresses and values.
-/

namespace SatCheck

/-- An event graph with what its memory actions have recorded: their addresses and the values that
stores write. -/
structure MemoryGraph extends EventGraph where
  addrset : ExecPoint → List Nat
  storeset : ExecPoint → List Nat

namespace MemoryGraph

variable (g : MemoryGraph)

def isStore (record : ExecPoint) : Bool :=
  g.getType record == some .store || g.getType record == some .rmw

end MemoryGraph

structure StoreLoadSet where
  storeloadset : List ExecPoint
  addresses : List Nat
  values : List Nat
  deriving DecidableEq, Repr

namespace StoreLoadSet

def empty : StoreLoadSet := ⟨[], [], []⟩

def add (g : MemoryGraph) (sls : StoreLoadSet) (op : ExecPoint) : StoreLoadSet where
  storeloadset := HashSet.add sls.storeloadset op
  addresses := (g.addrset op).foldl HashSet.add sls.addresses
  values := if g.isStore op then (g.storeset op).foldl HashSet.add sls.values else sls.values

end StoreLoadSet

/-- `storeloadtable`, with the sets it points to numbered from 0 below `size`. -/
structure StoreLoadTable where
  sets : Nat → StoreLoadSet
  size : Nat
  table : Nat → Option Nat

namespace StoreLoadTable

variable (g : MemoryGraph)

def addTo (s : StoreLoadTable) (k : Nat) (op : ExecPoint) : StoreLoadTable :=
  { s with sets := Function.update s.sets k ((s.sets k).add g op) }

def put (s : StoreLoadTable) (k addr : Nat) : StoreLoadTable :=
  { s with table := Function.update s.table addr (some k) }

/-- The body of the loop of `mergeSets`. -/
def mergeRecord (s : StoreLoadTable) (isls : Nat) (rec : ExecPoint) : StoreLoadTable :=
  (g.addrset rec).foldl (fun s addr => s.put isls addr) (s.addTo g isls rec)

def mergeSets (s : StoreLoadTable) (isls source : Nat) : StoreLoadTable :=
  let s' := (s.sets source).storeloadset.foldl (fun s rec => s.mergeRecord g isls rec) s
  { s' with sets := Function.update s'.sets source .empty }

/-- The body of the loop of `groupMemoryOperations`. -/
def groupAddress (s : StoreLoadTable) (isls addr : Nat) : StoreLoadTable :=
  match s.table addr with
  | none => s.put isls addr
  | some sls => if sls ≠ isls then s.mergeSets g isls sls else s

def groupMemoryOperations (s : StoreLoadTable) (op : ExecPoint) : StoreLoadTable :=
  match g.addrset op with
  | [] => s
  | iaddr :: rest =>
      match s.table iaddr with
      | some isls => rest.foldl (fun s addr => s.groupAddress g isls addr) (s.addTo g isls op)
      | none =>
          rest.foldl (fun t addr => t.groupAddress g s.size addr)
            (({ s with size := s.size + 1 } : StoreLoadTable).put s.size iaddr |>.addTo g s.size op)

/-! ## Adding to a set -/

theorem mem_foldl_add {α : Type*} [DecidableEq α] (xs set : List α) (x : α) :
    x ∈ xs.foldl HashSet.add set ↔ x ∈ set ∨ x ∈ xs := by
  simpa using HashSet.mem_foldl_add id xs set x

/-- A set that has the addresses of its records, and the values of its stores. -/
structure Covers (sls : StoreLoadSet) : Prop where
  addresses : ∀ rec ∈ sls.storeloadset, ∀ addr ∈ g.addrset rec, addr ∈ sls.addresses
  values : ∀ rec ∈ sls.storeloadset, g.isStore rec = true →
    ∀ val ∈ g.storeset rec, val ∈ sls.values

theorem covers_empty : Covers g .empty where
  addresses := by simp [StoreLoadSet.empty]
  values := by simp [StoreLoadSet.empty]

variable {g} in
theorem Covers.add {sls : StoreLoadSet} (h : Covers g sls) (op : ExecPoint) :
    Covers g (sls.add g op) where
  addresses := fun rec hrec addr haddr => by
    simp only [StoreLoadSet.add, HashSet.mem_add, mem_foldl_add] at hrec ⊢
    rcases hrec with hrec | rfl
    · exact .inl (h.addresses rec hrec addr haddr)
    · exact .inr haddr
  values := fun rec hrec hstore val hval => by
    simp only [StoreLoadSet.add, HashSet.mem_add] at hrec ⊢
    rcases hrec with hrec | rfl
    · split_ifs
      · exact (mem_foldl_add _ _ _).mpr (.inl (h.values rec hrec hstore val hval))
      · exact h.values rec hrec hstore val hval
    · rw [if_pos hstore]
      exact (mem_foldl_add _ _ _).mpr (.inr hval)

/-! ## The groups are kept apart -/

/-- The set `k` leads back to itself from every address of its records, except from the
addresses of `op` that are still `pending`. -/
structure Linked (isls : Nat) (op : ExecPoint) (pending : List Nat) (s : StoreLoadTable) :
    Prop where
  covers : ∀ k, Covers g (s.sets k)
  fresh : ∀ k, s.size ≤ k → s.sets k = .empty
  linked : ∀ k, ∀ rec ∈ (s.sets k).storeloadset, ∀ addr ∈ g.addrset rec,
    s.table addr = some k ∨ (k = isls ∧ rec = op ∧ addr ∈ pending)
  owned : ∀ addr k, s.table addr = some k →
    ∃ rec ∈ (s.sets k).storeloadset, addr ∈ g.addrset rec

variable {g} {s : StoreLoadTable} {isls : Nat} {op : ExecPoint} {pending : List Nat}

private theorem foldl_put (addrs : List Nat) (s : StoreLoadTable) (isls : Nat) :
    addrs.foldl (fun s addr => s.put isls addr) s =
      { s with table := fun addr => if addr ∈ addrs then some isls else s.table addr } := by
  induction addrs generalizing s with
  | nil => simp
  | cons a addrs ih =>
    rw [List.foldl_cons, ih]
    simp only [put, StoreLoadTable.mk.injEq, true_and]
    ext addr : 1
    by_cases ha : addr = a
    · subst ha
      simp
    · simp [ha]

private theorem mergeRecord_eq (s : StoreLoadTable) (isls : Nat) (rec : ExecPoint) :
    s.mergeRecord g isls rec =
      { s with
        sets := Function.update s.sets isls ((s.sets isls).add g rec)
        table := fun addr => if addr ∈ g.addrset rec then some isls else s.table addr } := by
  rw [mergeRecord, foldl_put]
  rfl

private theorem foldl_mergeRecord (recs : List ExecPoint) (s : StoreLoadTable) (isls : Nat) :
    recs.foldl (fun s rec => s.mergeRecord g isls rec) s =
      { s with
        sets := Function.update s.sets isls (recs.foldl (StoreLoadSet.add g) (s.sets isls))
        table := fun addr =>
          if ∃ rec ∈ recs, addr ∈ g.addrset rec then some isls else s.table addr } := by
  induction recs generalizing s with
  | nil => simp
  | cons rec recs ih =>
    rw [List.foldl_cons, ih, mergeRecord_eq]
    simp only [Function.update_self, Function.update_idem, List.foldl_cons,
      StoreLoadTable.mk.injEq, true_and]
    ext addr : 1
    by_cases hrec : addr ∈ g.addrset rec
    · simp [hrec]
    · simp [hrec]

theorem mem_foldl_addSet (recs : List ExecPoint) (sls : StoreLoadSet) (rec : ExecPoint) :
    rec ∈ (recs.foldl (StoreLoadSet.add g) sls).storeloadset ↔
      rec ∈ sls.storeloadset ∨ rec ∈ recs := by
  induction recs generalizing sls with
  | nil => simp
  | cons r recs ih =>
    rw [List.foldl_cons, ih, List.mem_cons, ← or_assoc]
    simp [StoreLoadSet.add]

theorem covers_foldl_add (recs : List ExecPoint) {sls : StoreLoadSet} (h : Covers g sls) :
    Covers g (recs.foldl (StoreLoadSet.add g) sls) := by
  induction recs generalizing sls with
  | nil => exact h
  | cons r recs ih => exact ih (h.add r)

theorem mergeSets_eq (s : StoreLoadTable) (isls source : Nat) :
    s.mergeSets g isls source =
      { s with
        sets := Function.update (Function.update s.sets isls
          ((s.sets source).storeloadset.foldl (StoreLoadSet.add g) (s.sets isls))) source .empty
        table := fun addr =>
          if ∃ rec ∈ (s.sets source).storeloadset, addr ∈ g.addrset rec then some isls
          else s.table addr } := by
  rw [mergeSets, foldl_mergeRecord]

theorem Linked.put (h : Linked g isls op (addr :: pending) s) (hnone : s.table addr = none)
    (hop : op ∈ (s.sets isls).storeloadset) (haddr : addr ∈ g.addrset op) :
    Linked g isls op pending (s.put isls addr) where
  covers := h.covers
  fresh := h.fresh
  linked := fun k rec hrec a ha => by
    by_cases heq : a = addr
    · subst heq
      rcases h.linked k rec hrec a ha with hk | ⟨rfl, rfl, _⟩
      · simp [hnone] at hk
      · simp [StoreLoadTable.put]
    · have := h.linked k rec hrec a ha
      simpa [StoreLoadTable.put, heq] using this
  owned := fun a k hk => by
    by_cases heq : a = addr
    · subst heq
      obtain rfl : isls = k := by simpa [StoreLoadTable.put] using hk
      exact ⟨op, hop, haddr⟩
    · exact h.owned a k (by simpa [StoreLoadTable.put, heq] using hk)

theorem Linked.skip (h : Linked g isls op (addr :: pending) s) (haddr : s.table addr = some isls) :
    Linked g isls op pending s where
  covers := h.covers
  fresh := h.fresh
  linked := fun k rec hrec a ha => by
    rcases h.linked k rec hrec a ha with hk | ⟨rfl, rfl, ha'⟩
    · exact .inl hk
    · rcases List.mem_cons.mp ha' with rfl | ha'
      · exact .inl haddr
      · exact .inr ⟨rfl, rfl, ha'⟩
  owned := h.owned

theorem Linked.mergeSets (h : Linked g isls op (addr :: pending) s) {source : Nat}
    (haddr : s.table addr = some source) (hne : source ≠ isls) (hlt : isls < s.size) :
    Linked g isls op pending (s.mergeSets g isls source) := by
  have hsource : ∀ rec ∈ (s.sets source).storeloadset, ∀ a ∈ g.addrset rec,
      s.table a = some source := by
    intro rec hrec a ha
    rcases h.linked source rec hrec a ha with hk | ⟨heq, _⟩
    · exact hk
    · exact absurd heq hne
  obtain ⟨owner, howner, howns⟩ := h.owned addr source haddr
  rw [mergeSets_eq]
  constructor
  · intro k
    by_cases hk : k = source
    · subst hk
      simpa using covers_empty g
    · by_cases hk' : k = isls
      · subst hk'
        simpa [hk] using covers_foldl_add _ (h.covers k)
      · simpa [hk, hk'] using h.covers k
  · intro k hk
    by_cases hks : k = source
    · simp [hks]
    · have hki : k ≠ isls := by
        rintro rfl
        exact absurd hlt (by simpa using hk)
      simpa [hks, hki] using h.fresh k hk
  · intro k rec hrec a ha
    by_cases hks : k = source
    · subst hks
      simp [StoreLoadSet.empty] at hrec
    · have hrec' : rec ∈ (s.sets k).storeloadset ∨
          k = isls ∧ rec ∈ (s.sets source).storeloadset := by
        by_cases hki : k = isls
        · subst hki
          simpa [hks, mem_foldl_addSet] using hrec
        · exact .inl (by simpa [hks, hki] using hrec)
      by_cases hmoved : ∃ rec ∈ (s.sets source).storeloadset, a ∈ g.addrset rec
      · left
        obtain ⟨rec', hrec'', ha'⟩ := hmoved
        have hki : k = isls := by
          rcases hrec' with hrec' | ⟨hki, -⟩
          · rcases h.linked k rec hrec' a ha with hk | ⟨hki, -⟩
            · rw [hsource rec' hrec'' a ha'] at hk
              exact absurd (Option.some_inj.mp hk).symm hks
            · exact hki
          · exact hki
        simp only [hki, ite_eq_left_iff, not_exists, not_and]
        exact fun hnot => absurd ha' (hnot rec' hrec'')
      · simp only [if_neg hmoved]
        rcases hrec' with hrec' | ⟨-, hrec'⟩
        · rcases h.linked k rec hrec' a ha with hk | ⟨hki, rfl, ha'⟩
          · exact .inl hk
          · rcases List.mem_cons.mp ha' with rfl | ha'
            · exact absurd ⟨owner, howner, howns⟩ hmoved
            · exact .inr ⟨hki, rfl, ha'⟩
        · exact absurd ⟨rec, hrec', ha⟩ hmoved
  · intro a k hk
    simp only at hk
    split_ifs at hk with hmoved
    · obtain ⟨rec, hrec, ha⟩ := hmoved
      obtain rfl := Option.some_inj.mp hk
      refine ⟨rec, ?_, ha⟩
      simpa [Ne.symm hne, mem_foldl_addSet] using .inr hrec
    · obtain ⟨rec, hrec, ha⟩ := h.owned a k hk
      have hks : k ≠ source := by
        rintro rfl
        exact hmoved ⟨rec, hrec, ha⟩
      refine ⟨rec, ?_, ha⟩
      by_cases hki : k = isls
      · subst hki
        simpa [hks, mem_foldl_addSet] using .inl hrec
      · simpa [hks, hki] using hrec

theorem size_groupAddress (s : StoreLoadTable) (isls addr : Nat) :
    (s.groupAddress g isls addr).size = s.size := by
  unfold groupAddress
  split
  · rfl
  · split_ifs
    · rw [mergeSets_eq]
    · rfl

theorem mem_groupAddress {addr : Nat} {rec : ExecPoint}
    (h : rec ∈ (s.sets isls).storeloadset) :
    rec ∈ ((s.groupAddress g isls addr).sets isls).storeloadset := by
  unfold groupAddress
  split
  · exact h
  · split_ifs with hne
    · rw [mergeSets_eq]
      simpa [Ne.symm hne, mem_foldl_addSet] using .inl h
    · exact h

theorem Linked.groupAddress (h : Linked g isls op (addr :: pending) s)
    (hop : op ∈ (s.sets isls).storeloadset) (haddr : addr ∈ g.addrset op)
    (hlt : isls < s.size) : Linked g isls op pending (s.groupAddress g isls addr) := by
  unfold StoreLoadTable.groupAddress
  split
  · exact h.put (by assumption) hop haddr
  · split_ifs with hne
    · exact h.mergeSets (by assumption) hne hlt
    · exact h.skip (by simp_all)

theorem Linked.foldl_groupAddress (h : Linked g isls op pending s)
    (hop : op ∈ (s.sets isls).storeloadset) (haddr : ∀ addr ∈ pending, addr ∈ g.addrset op)
    (hlt : isls < s.size) :
    Linked g isls op [] (pending.foldl (fun s addr => s.groupAddress g isls addr) s) := by
  induction pending generalizing s with
  | nil => exact h
  | cons addr pending ih =>
    apply ih (h.groupAddress hop (haddr addr (by simp)) hlt)
    · exact mem_groupAddress hop
    · exact fun a ha => haddr a (by simp [ha])
    · rwa [size_groupAddress]

/-! ## The table after the first traversal -/

/-- Each of `ops` is in a set, and every set leads back to itself. -/
structure Grouped (g : MemoryGraph) (ops : List ExecPoint) (s : StoreLoadTable) : Prop where
  covers : ∀ k, Covers g (s.sets k)
  fresh : ∀ k, s.size ≤ k → s.sets k = .empty
  linked : ∀ k, ∀ rec ∈ (s.sets k).storeloadset, ∀ addr ∈ g.addrset rec, s.table addr = some k
  owned : ∀ addr k, s.table addr = some k →
    ∃ rec ∈ (s.sets k).storeloadset, addr ∈ g.addrset rec
  grouped : ∀ rec ∈ ops, g.addrset rec ≠ [] → ∃ k, rec ∈ (s.sets k).storeloadset

variable {ops : List ExecPoint} {iaddr : Nat} {rest : List Nat}

theorem Grouped.lt_size (h : Grouped g ops s) {addr k : Nat} (hk : s.table addr = some k) :
    k < s.size := by
  by_contra hge
  obtain ⟨rec, hrec, -⟩ := h.owned addr k hk
  simp [h.fresh k (by omega), StoreLoadSet.empty] at hrec

/-- The record is added to the set of its first address, with the others pending. -/
theorem Linked.addTo (hcovers : ∀ k, Covers g (s.sets k))
    (hfresh : ∀ k, s.size ≤ k → s.sets k = .empty) (hlt : isls < s.size)
    (hlinked : ∀ k, ∀ rec ∈ (s.sets k).storeloadset, ∀ addr ∈ g.addrset rec,
      s.table addr = some k)
    (howned : ∀ addr k, s.table addr = some k → (addr = iaddr ∧ k = isls) ∨
      ∃ rec ∈ (s.sets k).storeloadset, addr ∈ g.addrset rec)
    (haddrs : g.addrset op = iaddr :: rest) (hisls : s.table iaddr = some isls) :
    Linked g isls op rest (s.addTo g isls op) where
  covers := fun k => by
    by_cases hk : k = isls
    · subst hk
      simpa [StoreLoadTable.addTo] using (hcovers k).add op
    · simpa [StoreLoadTable.addTo, hk] using hcovers k
  fresh := fun k hk => by
    have hne : k ≠ isls := by
      rintro rfl
      exact absurd hlt (by simpa [StoreLoadTable.addTo] using hk)
    simpa [StoreLoadTable.addTo, hne] using hfresh k hk
  linked := fun k rec hrec a ha => by
    by_cases hk : k = isls
    · subst hk
      simp only [StoreLoadTable.addTo, Function.update_self, StoreLoadSet.add,
        HashSet.mem_add] at hrec
      rcases hrec with hrec | rfl
      · exact .inl (hlinked k rec hrec a ha)
      · rw [haddrs] at ha
        rcases List.mem_cons.mp ha with rfl | ha
        · exact .inl hisls
        · exact .inr ⟨rfl, rfl, ha⟩
    · exact .inl (hlinked k rec (by simpa [StoreLoadTable.addTo, hk] using hrec) a ha)
  owned := fun a k hk => by
    rcases howned a k hk with ⟨rfl, rfl⟩ | ⟨rec, hrec, ha⟩
    · exact ⟨op, by simp [StoreLoadTable.addTo, StoreLoadSet.add], by simp [haddrs]⟩
    · refine ⟨rec, ?_, ha⟩
      by_cases hki : k = isls
      · subst hki
        simp [StoreLoadTable.addTo, StoreLoadSet.add, hrec]
      · simpa [StoreLoadTable.addTo, hki] using hrec

theorem mem_addTo (s : StoreLoadTable) (isls : Nat) (op : ExecPoint) :
    op ∈ ((s.addTo g isls op).sets isls).storeloadset := by
  simp [addTo, StoreLoadSet.add]

theorem exists_mem_addTo {rec : ExecPoint} (h : ∃ k, rec ∈ (s.sets k).storeloadset) :
    ∃ k, rec ∈ ((s.addTo g isls op).sets k).storeloadset := by
  obtain ⟨k, hk⟩ := h
  refine ⟨k, ?_⟩
  by_cases hki : k = isls
  · subst hki
    simp [addTo, StoreLoadSet.add, hk]
  · simpa [addTo, hki] using hk

private theorem exists_mem_groupAddress {addr : Nat} {rec : ExecPoint}
    (h : ∃ k, rec ∈ (s.sets k).storeloadset) :
    ∃ k, rec ∈ ((s.groupAddress g isls addr).sets k).storeloadset := by
  obtain ⟨k, hk⟩ := h
  unfold groupAddress
  split
  · exact ⟨k, hk⟩
  · split_ifs with hne
    · rename_i source _
      rw [mergeSets_eq]
      by_cases hks : k = source
      · subst hks
        exact ⟨isls, by simpa [Ne.symm hne, mem_foldl_addSet] using .inr hk⟩
      · refine ⟨k, ?_⟩
        by_cases hki : k = isls
        · subst hki
          simpa [hks, mem_foldl_addSet] using .inl hk
        · simpa [hks, hki] using hk
    · exact ⟨k, hk⟩

private theorem exists_mem_foldl_groupAddress {rec : ExecPoint} (addrs : List Nat)
    (h : ∃ k, rec ∈ (s.sets k).storeloadset) :
    ∃ k, rec ∈
      ((addrs.foldl (fun s addr => s.groupAddress g isls addr) s).sets k).storeloadset := by
  induction addrs generalizing s with
  | nil => exact h
  | cons addr addrs ih => exact ih (exists_mem_groupAddress h)

/-- The loop of `groupMemoryOperations` keeps what is grouped and groups `op`. -/
theorem Grouped.of_linked (hlinked : Linked g isls op rest (s.addTo g isls op))
    (haddrs : g.addrset op = iaddr :: rest) (hlt : isls < s.size)
    (hops : ∀ rec ∈ ops, g.addrset rec ≠ [] → ∃ k, rec ∈ (s.sets k).storeloadset) :
    Grouped g (ops ++ [op])
      (rest.foldl (fun s addr => s.groupAddress g isls addr) (s.addTo g isls op)) := by
  have hdone := hlinked.foldl_groupAddress (mem_addTo s isls op)
    (fun addr haddr => by simp [haddrs, haddr]) hlt
  constructor
  · exact hdone.covers
  · exact hdone.fresh
  · intro k rec hrec a ha
    rcases hdone.linked k rec hrec a ha with hk | ⟨_, _, ha'⟩
    · exact hk
    · simp at ha'
  · exact hdone.owned
  · intro rec hrec hne
    apply exists_mem_foldl_groupAddress
    rcases List.mem_append.mp hrec with hrec | hrec
    · exact exists_mem_addTo (hops rec hrec hne)
    · obtain rfl := List.mem_singleton.mp hrec
      exact ⟨isls, mem_addTo s isls rec⟩

theorem Grouped.linked_addTo (h : Grouped g ops s) (haddrs : g.addrset op = iaddr :: rest)
    (hisls : s.table iaddr = some isls) : Linked g isls op rest (s.addTo g isls op) :=
  Linked.addTo h.covers h.fresh (h.lt_size hisls) h.linked
    (fun addr k hk => .inr (h.owned addr k hk)) haddrs hisls

theorem Grouped.linked_addTo_new (h : Grouped g ops s) (haddrs : g.addrset op = iaddr :: rest)
    (hnone : s.table iaddr = none) : Linked g s.size op rest
      ((({ s with size := s.size + 1 } : StoreLoadTable).put s.size iaddr).addTo g s.size op) := by
  refine Linked.addTo h.covers ?_ ?_ ?_ ?_ haddrs ?_
  · intro k hk
    exact h.fresh k (Nat.le_of_succ_le hk)
  · exact Nat.lt_succ_self s.size
  · intro k rec hrec a ha
    have hk := h.linked k rec hrec a ha
    have hne : a ≠ iaddr := by
      rintro rfl
      simp [hnone] at hk
    simpa [StoreLoadTable.put, hne] using hk
  · intro a k hk
    by_cases hne : a = iaddr
    · subst hne
      left
      simpa [StoreLoadTable.put, eq_comm] using hk
    · exact .inr (h.owned a k (by simpa [StoreLoadTable.put, hne] using hk))
  · simp [StoreLoadTable.put]

theorem Grouped.groupMemoryOperations (h : Grouped g ops s) (op : ExecPoint) :
    Grouped g (ops ++ [op]) (s.groupMemoryOperations g op) := by
  unfold StoreLoadTable.groupMemoryOperations
  split
  case h_1 hnil =>
    constructor
    · exact h.covers
    · exact h.fresh
    · exact h.linked
    · exact h.owned
    · intro rec hrec hne
      rcases List.mem_append.mp hrec with hrec | hrec
      · exact h.grouped rec hrec hne
      · obtain rfl := List.mem_singleton.mp hrec
        exact absurd hnil hne
  case h_2 iaddr rest haddrs =>
    split
    case h_1 isls hisls =>
      exact Grouped.of_linked (h.linked_addTo haddrs hisls) haddrs (h.lt_size hisls) h.grouped
    case h_2 hnone =>
      exact Grouped.of_linked (h.linked_addTo_new haddrs hnone) haddrs (Nat.lt_succ_self s.size)
        h.grouped

end StoreLoadTable

end SatCheck
