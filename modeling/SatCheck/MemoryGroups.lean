import SatCheck.StoreLoadTable
import Mathlib.Logic.Relation
/-!
# What the groups are

The sets of `storeloadtable` are the components of the memory operations, where two operations
are next to each other if they share an address.
-/

namespace SatCheck

namespace MemoryGraph

variable (g : MemoryGraph) {ops ops' : List ExecPoint} {a b c : ExecPoint}

def Shares (ops : List ExecPoint) (a b : ExecPoint) : Prop :=
  a ∈ ops ∧ b ∈ ops ∧ ∃ addr, addr ∈ g.addrset a ∧ addr ∈ g.addrset b

/-- A chain of operations each of which shares an address with the next. -/
def Chain (ops : List ExecPoint) : ExecPoint → ExecPoint → Prop :=
  Relation.ReflTransGen (g.Shares ops)

/-- Addresses at the two ends of a chain. -/
def ChainLinked (ops : List ExecPoint) (addr addr' : Nat) : Prop :=
  ∃ a ∈ ops, ∃ b ∈ ops, addr ∈ g.addrset a ∧ addr' ∈ g.addrset b ∧ g.Chain ops a b

variable {g}

theorem Shares.symm (h : g.Shares ops a b) : g.Shares ops b a := by
  obtain ⟨ha, hb, addr, haddr, haddr'⟩ := h
  exact ⟨hb, ha, addr, haddr', haddr⟩

theorem Chain.symm (h : g.Chain ops a b) : g.Chain ops b a := by
  induction h with
  | refl => exact Relation.ReflTransGen.refl
  | tail _ hshares ih => exact Relation.ReflTransGen.head hshares.symm ih

theorem Chain.mono (h : g.Chain ops a b) (hops : ∀ rec ∈ ops, rec ∈ ops') : g.Chain ops' a b := by
  induction h with
  | refl => exact Relation.ReflTransGen.refl
  | tail _ hshares ih =>
    obtain ⟨ha, hb, haddr⟩ := hshares
    exact Relation.ReflTransGen.tail ih ⟨hops _ ha, hops _ hb, haddr⟩

end MemoryGraph

namespace StoreLoadTable

open MemoryGraph (Chain ChainLinked Shares)

variable {g : MemoryGraph} {s : StoreLoadTable} {ops ops' : List ExecPoint} {isls : Nat}
  {op : ExecPoint} {addr iaddr : Nat} {pending rest : List Nat}

/-! ## Sets of some records -/

def Built (g : MemoryGraph) (ops : List ExecPoint) (sls : StoreLoadSet) : Prop :=
  ∃ recs : List ExecPoint, (∀ rec ∈ recs, rec ∈ ops) ∧
    sls = recs.foldl (StoreLoadSet.add g) .empty

theorem Built.foldl_add {sls : StoreLoadSet} (h : Built g ops sls) {recs : List ExecPoint}
    (hrecs : ∀ rec ∈ recs, rec ∈ ops) : Built g ops (recs.foldl (StoreLoadSet.add g) sls) := by
  obtain ⟨old, hold, rfl⟩ := h
  refine ⟨old ++ recs, ?_, by rw [List.foldl_append]⟩
  intro rec hrec
  rcases List.mem_append.mp hrec with hrec | hrec
  · exact hold rec hrec
  · exact hrecs rec hrec

theorem Built.mem {sls : StoreLoadSet} (h : Built g ops sls) {rec : ExecPoint}
    (hrec : rec ∈ sls.storeloadset) : rec ∈ ops := by
  obtain ⟨recs, hrecs, rfl⟩ := h
  rw [mem_foldl_addSet] at hrec
  apply hrecs rec
  simpa [StoreLoadSet.empty] using hrec

private theorem nodup_foldl_hashAdd (xs : List Nat) {set : List Nat} (h : set.Nodup) :
    (xs.foldl HashSet.add set).Nodup := by
  induction xs generalizing set with
  | nil => exact h
  | cons x xs ih =>
    apply ih
    unfold HashSet.add
    split_ifs with hmem
    · exact h
    · apply List.nodup_append.mpr
      refine ⟨h, List.pairwise_singleton _ x, ?_⟩
      intro y hy z hz
      obtain rfl := List.mem_singleton.mp hz
      exact fun heq => hmem (heq ▸ hy)

/-- A set has the addresses of its records and the values of its stores. -/
structure Exact (g : MemoryGraph) (sls : StoreLoadSet) : Prop where
  nodup : sls.addresses.Nodup
  addresses : ∀ addr, addr ∈ sls.addresses ↔ ∃ rec ∈ sls.storeloadset, addr ∈ g.addrset rec
  values : ∀ val, val ∈ sls.values ↔
    ∃ rec ∈ sls.storeloadset, g.isStore rec = true ∧ val ∈ g.storeset rec

theorem Exact.add {sls : StoreLoadSet} (h : Exact g sls) (op : ExecPoint) :
    Exact g (sls.add g op) where
  nodup := nodup_foldl_hashAdd _ h.nodup
  addresses addr := by
    simp only [StoreLoadSet.add, mem_foldl_add, h.addresses, HashSet.mem_add]
    constructor
    · rintro (⟨rec, hrec, haddr⟩ | haddr)
      · exact ⟨rec, .inl hrec, haddr⟩
      · exact ⟨op, .inr rfl, haddr⟩
    · rintro ⟨rec, hrec | rfl, haddr⟩
      · exact .inl ⟨rec, hrec, haddr⟩
      · exact .inr haddr
  values val := by
    simp only [StoreLoadSet.add, HashSet.mem_add]
    split_ifs with hstore
    · rw [mem_foldl_add, h.values]
      constructor
      · rintro (⟨rec, hrec, hval⟩ | hval)
        · exact ⟨rec, .inl hrec, hval⟩
        · exact ⟨op, .inr rfl, hstore, hval⟩
      · rintro ⟨rec, hrec | rfl, hval⟩
        · exact .inl ⟨rec, hrec, hval⟩
        · exact .inr hval.2
    · rw [h.values]
      constructor
      · rintro ⟨rec, hrec, hval⟩
        exact ⟨rec, .inl hrec, hval⟩
      · rintro ⟨rec, hrec | rfl, hval⟩
        · exact ⟨rec, hrec, hval⟩
        · exact absurd hval.1 hstore

theorem Built.exact {sls : StoreLoadSet} (h : Built g ops sls) : Exact g sls := by
  obtain ⟨recs, -, rfl⟩ := h
  have hfold : ∀ {sls : StoreLoadSet}, Exact g sls →
      Exact g (recs.foldl (StoreLoadSet.add g) sls) := by
    induction recs with
    | nil => exact fun h => h
    | cons rec recs ih => exact fun h => ih (h.add rec)
  apply hfold
  constructor <;> simp [StoreLoadSet.empty]

/-! ## Components -/

/-- Each set is made of operations that are connected. -/
structure Components (g : MemoryGraph) (ops : List ExecPoint) (s : StoreLoadTable) : Prop where
  built : ∀ k, Built g ops (s.sets k)
  connected : ∀ k, ∀ a ∈ (s.sets k).storeloadset, ∀ b ∈ (s.sets k).storeloadset, g.Chain ops a b

theorem Components.mono (h : Components g ops s) (hops : ∀ rec ∈ ops, rec ∈ ops') :
    Components g ops' s where
  built k := by
    obtain ⟨recs, hrecs, heq⟩ := h.built k
    exact ⟨recs, fun rec hrec => hops rec (hrecs rec hrec), heq⟩
  connected k a ha b hb := (h.connected k a ha b hb).mono hops

theorem Components.mergeSets (h : Components g ops s) {source : Nat} {owner : ExecPoint}
    (hop : op ∈ (s.sets isls).storeloadset) (howner : owner ∈ (s.sets source).storeloadset)
    (haddr : addr ∈ g.addrset op) (haddr' : addr ∈ g.addrset owner) :
    Components g ops (s.mergeSets g isls source) := by
  have hshares : g.Shares ops op owner :=
    ⟨(h.built isls).mem hop, (h.built source).mem howner, addr, haddr, haddr'⟩
  have hto : ∀ a, a ∈ (s.sets isls).storeloadset ∨ a ∈ (s.sets source).storeloadset →
      g.Chain ops op a := by
    rintro a (ha | ha)
    · exact h.connected isls op hop a ha
    · exact Relation.ReflTransGen.head hshares (h.connected source owner howner a ha)
  rw [mergeSets_eq]
  constructor
  · intro k
    by_cases hsource : k = source
    · subst hsource
      simpa using ⟨[], by simp, rfl⟩
    · by_cases hisls : k = isls
      · subst hisls
        simpa [hsource] using (h.built k).foldl_add fun rec hrec => (h.built source).mem hrec
      · simpa [hsource, hisls] using h.built k
  · intro k a ha b hb
    by_cases hsource : k = source
    · subst hsource
      simp [StoreLoadSet.empty] at ha
    · by_cases hisls : k = isls
      · subst hisls
        simp only [ne_eq, hsource, not_false_eq_true, Function.update_of_ne, Function.update_self,
          mem_foldl_addSet] at ha hb
        exact (hto a ha).symm.trans (hto b hb)
      · simp only [ne_eq, hsource, hisls, not_false_eq_true, Function.update_of_ne] at ha hb
        exact h.connected k a ha b hb

theorem Components.groupAddress (h : Components g ops s)
    (hlinked : Linked g isls op (addr :: pending) s) (hop : op ∈ (s.sets isls).storeloadset)
    (haddr : addr ∈ g.addrset op) : Components g ops (s.groupAddress g isls addr) := by
  unfold StoreLoadTable.groupAddress
  split
  · exact ⟨h.built, h.connected⟩
  · split_ifs with hne
    · rename_i source hsource
      obtain ⟨owner, howner, howns⟩ := hlinked.owned addr source hsource
      exact h.mergeSets hop howner haddr howns
    · exact h

theorem Components.foldl_groupAddress (h : Components g ops s)
    (hlinked : Linked g isls op pending s) (hop : op ∈ (s.sets isls).storeloadset)
    (haddr : ∀ addr ∈ pending, addr ∈ g.addrset op) (hlt : isls < s.size) :
    Components g ops (pending.foldl (fun s addr => s.groupAddress g isls addr) s) := by
  induction pending generalizing s with
  | nil => exact h
  | cons addr pending ih =>
    have hfirst : addr ∈ g.addrset op := haddr addr (by simp)
    apply ih
    · exact h.groupAddress hlinked hop hfirst
    · exact hlinked.groupAddress hop hfirst hlt
    · exact mem_groupAddress hop
    · exact fun a ha => haddr a (by simp [ha])
    · rwa [size_groupAddress]

/-- A record joins a set that is empty or has a record with an address of its own. -/
theorem Components.addTo (h : Components g ops s) (hop : op ∈ ops)
    (hisls : s.sets isls = .empty ∨
      ∃ owner ∈ (s.sets isls).storeloadset, ∃ iaddr ∈ g.addrset op, iaddr ∈ g.addrset owner) :
    Components g ops (s.addTo g isls op) := by
  have hto : ∀ a, a ∈ (s.sets isls).storeloadset ∨ a = op → g.Chain ops op a := by
    rintro a (ha | rfl)
    · rcases hisls with hnone | ⟨owner, howner, iaddr, haddr, haddr'⟩
      · simp [hnone, StoreLoadSet.empty] at ha
      · have hshares : g.Shares ops op owner :=
          ⟨hop, (h.built isls).mem howner, iaddr, haddr, haddr'⟩
        exact Relation.ReflTransGen.head hshares (h.connected isls owner howner a ha)
    · exact Relation.ReflTransGen.refl
  constructor
  · intro k
    by_cases hk : k = isls
    · subst hk
      have hone : ∀ rec ∈ [op], rec ∈ ops := fun rec hrec => List.mem_singleton.mp hrec ▸ hop
      simpa [StoreLoadTable.addTo] using (h.built k).foldl_add hone
    · simpa [StoreLoadTable.addTo, hk] using h.built k
  · intro k a ha b hb
    by_cases hk : k = isls
    · subst hk
      simp only [StoreLoadTable.addTo, Function.update_self, StoreLoadSet.add,
        HashSet.mem_add] at ha hb
      exact (hto a ha).symm.trans (hto b hb)
    · simp only [StoreLoadTable.addTo, ne_eq, hk, not_false_eq_true, Function.update_of_ne] at ha hb
      exact h.connected k a ha b hb

theorem Components.groupMemoryOperations (h : Components g ops s) (hgrouped : Grouped g ops s)
    (op : ExecPoint) : Components g (ops ++ [op]) (s.groupMemoryOperations g op) := by
  have hmono : Components g (ops ++ [op]) s := h.mono fun rec hrec => by simp [hrec]
  have hop : op ∈ ops ++ [op] := by simp
  unfold StoreLoadTable.groupMemoryOperations
  split
  case h_1 => exact hmono
  case h_2 iaddr rest haddrs =>
    have hfirst : iaddr ∈ g.addrset op := by simp [haddrs]
    have hrest : ∀ addr ∈ rest, addr ∈ g.addrset op := fun addr haddr => by simp [haddrs, haddr]
    split
    case h_1 isls hisls =>
      obtain ⟨owner, howner, howns⟩ := hgrouped.owned iaddr isls hisls
      have hadd := hmono.addTo hop (.inr ⟨owner, howner, iaddr, hfirst, howns⟩)
      exact hadd.foldl_groupAddress (hgrouped.linked_addTo haddrs hisls) (mem_addTo s isls op) hrest
        (hgrouped.lt_size hisls)
    case h_2 hnone =>
      have hput : Components g (ops ++ [op])
          (({ s with size := s.size + 1 } : StoreLoadTable).put s.size iaddr) :=
        ⟨hmono.built, hmono.connected⟩
      have hadd := hput.addTo hop (.inl (hgrouped.fresh s.size (Nat.le_refl _)))
      exact hadd.foldl_groupAddress (hgrouped.linked_addTo_new haddrs hnone) (mem_addTo _ _ op)
        hrest (Nat.lt_succ_self s.size)

/-! ## The table after all operations -/

theorem Grouped.mem_storeloadset (h : Grouped g ops s) {rec : ExecPoint} (hrec : rec ∈ ops)
    (haddr : addr ∈ g.addrset rec) (k : Nat) :
    rec ∈ (s.sets k).storeloadset ↔ s.table addr = some k := by
  obtain ⟨k', hk'⟩ := h.grouped rec hrec (List.ne_nil_of_mem haddr)
  have htable := h.linked k' rec hk' addr haddr
  constructor
  · intro hk
    exact h.linked k rec hk addr haddr
  · intro hk
    obtain rfl := Option.some_inj.mp (htable.symm.trans hk)
    exact hk'

theorem Components.mem_addresses (h : Components g ops s) (hgrouped : Grouped g ops s)
    (addr k : Nat) :
    addr ∈ (s.sets k).addresses ↔ s.table addr = some k := by
  rw [(h.built k).exact.addresses]
  constructor
  · rintro ⟨rec, hrec, haddr⟩
    exact hgrouped.linked k rec hrec addr haddr
  · exact hgrouped.owned addr k

/-- Addresses lead to one set if and only if a chain of records links them. -/
theorem Components.table_eq_iff (h : Components g ops s) (hgrouped : Grouped g ops s)
    (addr addr' : Nat) :
    (∃ k, s.table addr = some k ∧ s.table addr' = some k) ↔ g.ChainLinked ops addr addr' := by
  constructor
  · rintro ⟨k, hk, hk'⟩
    obtain ⟨a, ha, haddr⟩ := hgrouped.owned addr k hk
    obtain ⟨b, hb, haddr'⟩ := hgrouped.owned addr' k hk'
    exact ⟨a, (h.built k).mem ha, b, (h.built k).mem hb, haddr, haddr', h.connected k a ha b hb⟩
  · rintro ⟨a, ha, b, hb, haddr, haddr', hchain⟩
    obtain ⟨k, hk⟩ := hgrouped.grouped a ha (List.ne_nil_of_mem haddr)
    have hset : ∀ c, g.Chain ops a c → c ∈ (s.sets k).storeloadset := by
      intro c hc
      induction hc with
      | refl => exact hk
      | tail _ hshares ih =>
        obtain ⟨-, hc, x, hx, hx'⟩ := hshares
        exact (hgrouped.mem_storeloadset hc hx' k).mpr (hgrouped.linked k _ ih x hx)
    exact ⟨k, hgrouped.linked k a hk addr haddr, hgrouped.linked k b (hset b hchain) addr' haddr'⟩

end StoreLoadTable

end SatCheck
