import SatCheck.MemoryGroups
import SatCheck.HashTableLoad
import Mathlib.Data.List.Induction
/-!
# The sets of a hash table

`storeloadtable` as a hash table of pointers, and the sets that they point to.  A set that has been
deleted is not there any more: what uses it, or deletes it again, is `none`, as is a probe loop
that never ends.  The encodings of a set are left out.
-/

namespace SatCheck

/-- The template arguments of `StoreLoadSetHashTable`. -/
def addressOps : KeyOps Nat where
  hash_function key := (key >>> 4) % 2 ^ 32
  equals a b := a == b

/-- Pointers are numbers and 0 is `NULL`.  `allocated` counts the sets that were made, and `deleted`
remembers those that were deleted. -/
structure StoreLoadSets where
  storeloadtable : HashTable Nat Nat
  sets : Nat → Option StoreLoadSet
  allocated : Nat
  deleted : List Nat

namespace StoreLoadSets

variable (g : MemoryGraph)

def new : StoreLoadSets := ⟨HashTable.new 1024 (1 / 2), fun _ => none, 0, []⟩

def get (s : StoreLoadSets) (addr : Nat) : Option Nat := s.storeloadtable.get addressOps addr

def put (s : StoreLoadSets) (addr sls : Nat) : Option StoreLoadSets := do
  let t ← s.storeloadtable.put addressOps addr sls
  some { s with storeloadtable := t }

def add (s : StoreLoadSets) (sls : Nat) (op : ExecPoint) : Option StoreLoadSets := do
  let set ← s.sets sls
  some { s with sets := Function.update s.sets sls (some (set.add g op)) }

def delete (s : StoreLoadSets) (sls : Nat) : Option StoreLoadSets := do
  let _ ← s.sets sls
  some { s with
    sets := Function.update s.sets sls none
    deleted := s.deleted ++ [sls] }

/-- The body of the loop of `mergeSets`. -/
def mergeRecord (s : StoreLoadSets) (isls : Nat) (rec : ExecPoint) : Option StoreLoadSets := do
  let s ← s.add g isls rec
  (g.addrset rec).foldlM (fun s addr => s.put addr isls) s

def mergeSets (s : StoreLoadSets) (isls source : Nat) : Option StoreLoadSets := do
  let set ← s.sets source
  let s ← set.storeloadset.foldlM (fun s rec => s.mergeRecord g isls rec) s
  s.delete source

/-- The body of the loop of `groupMemoryOperations`. -/
def groupAddress (s : StoreLoadSets) (isls addr : Nat) : Option StoreLoadSets := do
  let sls ← s.get addr
  if sls = 0 then s.put addr isls
  else if sls ≠ isls then s.mergeSets g isls sls
  else some s

def firstSet (s : StoreLoadSets) (iaddr : Nat) : Option (Nat × StoreLoadSets) := do
  let isls ← s.get iaddr
  if isls = 0 then
    let isls := s.allocated + 1
    let s := { s with
      sets := Function.update s.sets isls (some .empty)
      allocated := isls }
    let s ← s.put iaddr isls
    some (isls, s)
  else some (isls, s)

/-- `next` of an iterator without elements reads a null pointer. -/
def groupMemoryOperations (s : StoreLoadSets) (op : ExecPoint) : Option StoreLoadSets :=
  match g.addrset op with
  | [] => none
  | iaddr :: rest => do
      let (isls, s) ← s.firstSet iaddr
      let s ← s.add g isls op
      rest.foldlM (fun s addr => s.groupAddress g isls addr) s

def groupAll (s : StoreLoadSets) (ops : List ExecPoint) : Option StoreLoadSets :=
  ops.foldlM (fun s op => s.groupMemoryOperations g op) s

/-- `StoreLoadSet::removeAddress`. -/
def removeAddress (s : StoreLoadSets) (sls addr : Nat) : Option (StoreLoadSets × Bool) := do
  let set ← s.sets sls
  let addresses := set.addresses.erase addr
  some ({ s with sets := Function.update s.sets sls (some { set with addresses := addresses }) },
    addresses.isEmpty)

/-- The body of the loop of `resetstoreloadtable`. -/
def resetBin (s : StoreLoadSets) (i : Nat) : Option StoreLoadSets :=
  let ptr := s.storeloadtable.table i
  if ptr.val ≠ 0 then do
    let (s, empty) ← s.removeAddress ptr.val ptr.key
    let s ← if empty then s.delete ptr.val else some s
    some { s with storeloadtable := s.storeloadtable.write i ⟨0, 0⟩ }
  else some s

/-- The node of address 0 comes last, and `none` is the failed assertion. -/
def resetZero (s : StoreLoadSets) : Option StoreLoadSets :=
  match s.storeloadtable.zero with
  | none => some s
  | some zero => do
      let (s, empty) ← s.removeAddress zero.val zero.key
      if empty then do
        let s ← s.delete zero.val
        some { s with storeloadtable := { s.storeloadtable with zero := none } }
      else none

def resetstoreloadtable (s : StoreLoadSets) : Option StoreLoadSets := do
  let s ← (List.range s.storeloadtable.capacity).foldlM resetBin s
  let s ← s.resetZero
  some { s with storeloadtable := { s.storeloadtable with size := 0 } }

def runRounds (s : StoreLoadSets) (rounds : List (MemoryGraph × List ExecPoint)) :
    Option StoreLoadSets :=
  rounds.foldlM (fun s round => do
    let s ← s.groupAll round.1 round.2
    s.resetstoreloadtable) s

end StoreLoadSets

/-! ## The table as a map -/

theorem addressOps_lawful : addressOps.Lawful where
  equivalence := by
    refine ⟨?_, ?_, ?_⟩ <;> simp [addressOps]
  hash a b h := by
    have : a = b := by simpa [addressOps] using h
    rw [this]

namespace HashTable

theorem sameKey_addressOps {a b : Nat} : sameKey addressOps a b = true ↔ a = b := by
  unfold sameKey addressOps
  split_ifs with ha
  · simp [ha, eq_comm]
  · by_cases hb : b = 0
    · simp [ha, hb]
    · simp [hb]

/-- A table without removed bins that leads from each address to a pointer. -/
def Maps (t : HashTable Nat Nat) (f : Nat → Option Nat) : Prop :=
  ∃ m, PutOnly addressOps t m ∧ ∀ addr, AssocMap.get (sameKey addressOps) m addr = f addr

variable {t : HashTable Nat Nat} {f : Nat → Option Nat}

theorem Maps.get (h : t.Maps f) (addr : Nat) : t.get addressOps addr = some ((f addr).getD 0) := by
  obtain ⟨m, hm, hf⟩ := h
  rw [hm.stored.get addressOps_lawful, hf]

theorem Maps.put (h : t.Maps f) (addr : Nat) {val : Nat} (hval : val ≠ 0) :
    ∃ t', t.put addressOps addr val = some t' ∧
      t'.Maps fun a => if a = addr then some val else f a := by
  obtain ⟨m, hm, hf⟩ := h
  obtain ⟨t', hput, hm'⟩ : ∃ t', t.put addressOps addr val = some t' ∧
      PutOnly addressOps t' (AssocMap.put (sameKey addressOps) m addr val) :=
    hm.put addressOps_lawful hval
  refine ⟨t', hput, _, hm', fun a => ?_⟩
  rw [AssocMap.get_put (sameKey_equivalence addressOps_lawful), hf]
  by_cases ha : a = addr
  · exact (if_pos (sameKey_addressOps.mpr ha.symm)).trans (if_pos ha).symm
  · exact (if_neg fun h => ha (sameKey_addressOps.mp h).symm).trans (if_neg ha).symm

theorem Maps.mem_iff {m : List (Nat × Nat)} (hm : PutOnly addressOps t m)
    (hf : ∀ addr, AssocMap.get (sameKey addressOps) m addr = f addr) (addr val : Nat) :
    (addr, val) ∈ m ↔ f addr = some val := by
  rw [← hf, AssocMap.get_eq_some (sameKey_equivalence addressOps_lawful) hm.stored.distinct]
  constructor
  · exact fun hmem => ⟨(addr, val), hmem, sameKey_addressOps.mpr rfl, rfl⟩
  · rintro ⟨e, he, hkey, rfl⟩
    rwa [← sameKey_addressOps.mp hkey]

end HashTable

namespace StoreLoadSets

open HashTable (Maps)

variable {g : MemoryGraph} {s : StoreLoadSets} {a : StoreLoadTable} {ops : List ExecPoint}
  {op : ExecPoint} {f : Nat → Option Nat}

/-! ## The loops -/

private theorem foldlM_put {sls : Nat} (hsls : sls ≠ 0) (addrs : List Nat)
    (h : s.storeloadtable.Maps f) :
    ∃ t, addrs.foldlM (fun s addr => s.put addr sls) s = some { s with storeloadtable := t } ∧
      t.Maps fun addr => if addr ∈ addrs then some sls else f addr := by
  induction addrs generalizing s f with
  | nil => exact ⟨s.storeloadtable, rfl, by simpa using h⟩
  | cons addr addrs ih =>
    obtain ⟨t, hput, ht⟩ := h.put addr hsls
    obtain ⟨t', hputs, ht'⟩ := ih (s := { s with storeloadtable := t }) ht
    refine ⟨t', ?_, ?_⟩
    · have hstep : s.put addr sls = some { s with storeloadtable := t } := by
        simp [StoreLoadSets.put, hput]
      rw [List.foldlM_cons, hstep]
      exact hputs
    · have hsame : (fun a => if a ∈ addrs then some sls else if a = addr then some sls else f a) =
          fun a => if a ∈ addr :: addrs then some sls else f a := by
        ext1 a
        by_cases ha : a = addr <;> simp [ha]
      rwa [← hsame]

private theorem foldlM_mergeRecord {isls : Nat} (hisls : isls ≠ 0) (recs : List ExecPoint)
    {set : StoreLoadSet} (hset : s.sets isls = some set) (h : s.storeloadtable.Maps f) :
    ∃ t, recs.foldlM (fun s rec => s.mergeRecord g isls rec) s =
        some { s with
          storeloadtable := t
          sets := Function.update s.sets isls (some (recs.foldl (StoreLoadSet.add g) set)) } ∧
      t.Maps fun addr => if ∃ rec ∈ recs, addr ∈ g.addrset rec then some isls else f addr := by
  induction recs generalizing s set f with
  | nil =>
    refine ⟨s.storeloadtable, ?_, by simpa using h⟩
    simp [← hset]
  | cons rec recs ih =>
    let added : StoreLoadSets :=
      { s with sets := Function.update s.sets isls (some (set.add g rec)) }
    obtain ⟨t, hput, ht⟩ := foldlM_put (s := added) hisls (g.addrset rec) h
    have hadded : ({ added with storeloadtable := t } : StoreLoadSets).sets isls =
        some (set.add g rec) := by simp [added]
    obtain ⟨t', hmerge, ht'⟩ := ih hadded ht
    refine ⟨t', ?_, ?_⟩
    · have hadd : s.add g isls rec = some added := by simp [StoreLoadSets.add, hset, added]
      have hstep : s.mergeRecord g isls rec = some { added with storeloadtable := t } := by
        simp [mergeRecord, hadd, hput]
      rw [List.foldlM_cons, hstep]
      simpa [added] using hmerge
    · have hsame : (fun addr => if ∃ rec ∈ recs, addr ∈ g.addrset rec then some isls
            else if addr ∈ g.addrset rec then some isls else f addr) =
          fun addr => if ∃ r ∈ rec :: recs, addr ∈ g.addrset r then some isls else f addr := by
        ext1 addr
        by_cases haddr : addr ∈ g.addrset rec <;> simp [haddr]
      rwa [← hsame]

theorem exists_mergeSets {isls source : Nat} (hisls : isls ≠ 0) (hne : source ≠ isls)
    {set set' : StoreLoadSet} (hset : s.sets isls = some set) (hset' : s.sets source = some set')
    (h : s.storeloadtable.Maps f) :
    ∃ t, s.mergeSets g isls source =
        some { s with
          storeloadtable := t
          sets := Function.update (Function.update s.sets isls
            (some (set'.storeloadset.foldl (StoreLoadSet.add g) set))) source none
          deleted := s.deleted ++ [source] } ∧
      t.Maps fun addr =>
        if ∃ rec ∈ set'.storeloadset, addr ∈ g.addrset rec then some isls else f addr := by
  obtain ⟨t, hmerge, ht⟩ := foldlM_mergeRecord (g := g) hisls set'.storeloadset hset h
  refine ⟨t, ?_, ht⟩
  simp [StoreLoadSets.mergeSets, hset', hmerge, delete, hne]

/-! ## The hash table refines the table -/

/-- Pointer `k + 1` is set `k`, which is there as long as it has records. -/
structure Refines (s : StoreLoadSets) (a : StoreLoadTable) : Prop where
  maps : s.storeloadtable.Maps fun addr => (a.table addr).map (· + 1)
  allocated : s.allocated = a.size
  sets : ∀ k, s.sets (k + 1) = if (a.sets k).storeloadset = [] then none else some (a.sets k)
  null : s.sets 0 = none

theorem Refines.get (h : Refines s a) (addr : Nat) :
    s.get addr = some (((a.table addr).map (· + 1)).getD 0) := h.maps.get addr

theorem Refines.sets_of_mem (h : Refines s a) {k : Nat} {rec : ExecPoint}
    (hrec : rec ∈ (a.sets k).storeloadset) : s.sets (k + 1) = some (a.sets k) := by
  rw [h.sets, if_neg (List.ne_nil_of_mem hrec)]

theorem Refines.put (h : Refines s a) (k addr : Nat) :
    ∃ s', s.put addr (k + 1) = some s' ∧ Refines s' (a.put k addr) := by
  obtain ⟨t, hput, ht⟩ := h.maps.put addr (Nat.succ_ne_zero k)
  refine ⟨{ s with storeloadtable := t }, by simp [StoreLoadSets.put, hput], ?_, h.allocated,
    h.sets, h.null⟩
  have hsame : (fun a' => if a' = addr then some (k + 1) else (a.table a').map (· + 1)) =
      fun a' => ((a.put k addr).table a').map (· + 1) := by
    ext1 a'
    by_cases ha : a' = addr <;> simp [StoreLoadTable.put, ha]
  rwa [← hsame]

theorem Refines.mergeSets (h : Refines s a) {isls source : Nat} (hne : source ≠ isls)
    {owner : ExecPoint} (hop : op ∈ (a.sets isls).storeloadset)
    (howner : owner ∈ (a.sets source).storeloadset) :
    ∃ s', s.mergeSets g (isls + 1) (source + 1) = some s' ∧
      Refines s' (a.mergeSets g isls source) := by
  have hne' : source + 1 ≠ isls + 1 := by omega
  obtain ⟨t, hmerge, ht⟩ := exists_mergeSets (g := g) (Nat.succ_ne_zero isls) hne'
    (h.sets_of_mem hop) (h.sets_of_mem howner) h.maps
  refine ⟨_, hmerge, ?_⟩
  rw [StoreLoadTable.mergeSets_eq]
  constructor
  · have hsame : (fun addr => if ∃ rec ∈ (a.sets source).storeloadset, addr ∈ g.addrset rec then
            some (isls + 1) else (a.table addr).map (· + 1)) =
        fun addr => (if ∃ rec ∈ (a.sets source).storeloadset, addr ∈ g.addrset rec then some isls
          else a.table addr).map (· + 1) := by
      ext1 addr
      split_ifs <;> rfl
    rwa [← hsame]
  · exact h.allocated
  · intro k
    by_cases hsource : k = source
    · subst hsource
      simp [StoreLoadSet.empty]
    · by_cases hisls : k = isls
      · subst hisls
        have hmem : op ∈ ((a.sets source).storeloadset.foldl (StoreLoadSet.add g)
            (a.sets k)).storeloadset :=
          (StoreLoadTable.mem_foldl_addSet _ _ _).mpr (.inl hop)
        simp [hsource, List.ne_nil_of_mem hmem]
      · simp [hsource, hisls, h.sets k]
  · simp [h.null]

theorem Refines.groupAddress (h : Refines s a) {isls addr : Nat} {pending : List Nat}
    (hlinked : StoreLoadTable.Linked g isls op (addr :: pending) a)
    (hop : op ∈ (a.sets isls).storeloadset) :
    ∃ s', s.groupAddress g (isls + 1) addr = some s' ∧
      Refines s' (a.groupAddress g isls addr) := by
  unfold StoreLoadSets.groupAddress StoreLoadTable.groupAddress
  rw [h.get]
  cases htable : a.table addr with
  | none => exact h.put isls addr
  | some source =>
    obtain ⟨owner, howner, -⟩ := hlinked.owned addr source htable
    by_cases hne : source = isls
    · subst hne
      exact ⟨s, by simp, by simpa using h⟩
    · obtain ⟨s', hmerge, hs'⟩ := h.mergeSets (g := g) hne hop howner
      exact ⟨s', by simpa [hne] using hmerge, by simpa [hne] using hs'⟩

theorem Refines.foldlM_groupAddress (h : Refines s a) {isls : Nat} {pending : List Nat}
    (hlinked : StoreLoadTable.Linked g isls op pending a)
    (hop : op ∈ (a.sets isls).storeloadset) (haddr : ∀ addr ∈ pending, addr ∈ g.addrset op)
    (hlt : isls < a.size) :
    ∃ s', pending.foldlM (fun s addr => s.groupAddress g (isls + 1) addr) s = some s' ∧
      Refines s' (pending.foldl (fun a addr => a.groupAddress g isls addr) a) := by
  induction pending generalizing s a with
  | nil => exact ⟨s, rfl, h⟩
  | cons addr pending ih =>
    obtain ⟨s₁, hfirst, h₁⟩ := h.groupAddress hlinked hop
    obtain ⟨s', hrest, h'⟩ := ih h₁ (hlinked.groupAddress hop (haddr addr (by simp)) hlt)
      (StoreLoadTable.mem_groupAddress hop) (fun b hb => haddr b (by simp [hb]))
      (by rwa [StoreLoadTable.size_groupAddress])
    refine ⟨s', ?_, h'⟩
    rw [List.foldlM_cons, hfirst]
    exact hrest

theorem Refines.add (h : Refines s a) {k : Nat} {owner : ExecPoint}
    (howner : owner ∈ (a.sets k).storeloadset) (op : ExecPoint) :
    ∃ s', s.add g (k + 1) op = some s' ∧ Refines s' (a.addTo g k op) := by
  refine ⟨{ s with sets := Function.update s.sets (k + 1) (some ((a.sets k).add g op)) }, ?_, ?_⟩
  · simp [StoreLoadSets.add, h.sets_of_mem howner]
  · constructor
    · exact h.maps
    · exact h.allocated
    · intro l
      by_cases hl : l = k
      · subst hl
        have hmem := StoreLoadTable.mem_addTo (g := g) a l op
        simp only [StoreLoadTable.addTo, Function.update_self] at hmem
        simp [StoreLoadTable.addTo, List.ne_nil_of_mem hmem]
      · simp [StoreLoadTable.addTo, hl, h.sets l]
    · simp [h.null]

theorem Refines.addNew (h : Refines s a) {iaddr : Nat} (hnone : a.table iaddr = none)
    (hfresh : a.sets a.size = .empty) (op : ExecPoint) :
    ∃ s₁ s', s.firstSet iaddr = some (a.size + 1, s₁) ∧
      s₁.add g (a.size + 1) op = some s' ∧
      Refines s'
        ((({ a with size := a.size + 1 } : StoreLoadTable).put a.size iaddr).addTo
          g a.size op) := by
  obtain ⟨t, hput, ht⟩ := h.maps.put iaddr (Nat.succ_ne_zero a.size)
  let s₁ : StoreLoadSets :=
    { s with
      storeloadtable := t
      sets := Function.update s.sets (a.size + 1) (some .empty)
      allocated := a.size + 1 }
  refine ⟨s₁, { s₁ with
    sets := Function.update s₁.sets (a.size + 1) (some (StoreLoadSet.empty.add g op)) },
    ?_, ?_, ?_⟩
  · simp [firstSet, h.get, hnone, h.allocated, StoreLoadSets.put, hput, s₁]
  · simp [StoreLoadSets.add, s₁]
  · constructor
    · have hsame : (fun addr => if addr = iaddr then some (a.size + 1)
            else (a.table addr).map (· + 1)) =
          fun addr => ((({ a with size := a.size + 1 } : StoreLoadTable).put a.size iaddr).table
            addr).map (· + 1) := by
        ext1 addr
        by_cases haddr : addr = iaddr <;> simp [StoreLoadTable.put, haddr]
      rwa [hsame] at ht
    · rfl
    · intro k
      by_cases hk : k = a.size
      · subst hk
        have hmem : op ∈ (StoreLoadSet.empty.add g op).storeloadset := by simp [StoreLoadSet.add]
        simp [StoreLoadTable.addTo, StoreLoadTable.put, hfresh, List.ne_nil_of_mem hmem]
      · simp [StoreLoadTable.addTo, StoreLoadTable.put, hk, s₁, h.sets k]
    · simp [s₁, h.null]

theorem Refines.groupMemoryOperations (h : Refines s a)
    (hgrouped : StoreLoadTable.Grouped g ops a) (hne : g.addrset op ≠ []) :
    ∃ s', s.groupMemoryOperations g op = some s' ∧
      Refines s' (a.groupMemoryOperations g op) := by
  obtain ⟨iaddr, rest, haddrs⟩ := List.exists_cons_of_ne_nil hne
  have hrest : ∀ addr ∈ rest, addr ∈ g.addrset op := fun addr haddr => by simp [haddrs, haddr]
  unfold StoreLoadSets.groupMemoryOperations StoreLoadTable.groupMemoryOperations
  rw [haddrs]
  simp only
  cases htable : a.table iaddr with
  | some isls =>
    obtain ⟨owner, howner, -⟩ := hgrouped.owned iaddr isls htable
    obtain ⟨s₁, hadd, h₁⟩ := h.add (g := g) howner op
    obtain ⟨s', hloop, h'⟩ := h₁.foldlM_groupAddress (hgrouped.linked_addTo haddrs htable)
      (StoreLoadTable.mem_addTo a isls op) hrest (hgrouped.lt_size htable)
    have hfirst : s.firstSet iaddr = some (isls + 1, s) := by
      simp [firstSet, h.get, htable]
    refine ⟨s', ?_, h'⟩
    simp [hfirst, hadd, hloop]
  | none =>
    obtain ⟨s₁, s₂, hfirst, hadd, h₂⟩ := h.addNew (g := g) htable
      (hgrouped.fresh a.size (Nat.le_refl _)) op
    obtain ⟨s', hloop, h'⟩ := h₂.foldlM_groupAddress (hgrouped.linked_addTo_new haddrs htable)
      (StoreLoadTable.mem_addTo _ _ op) hrest (Nat.lt_succ_self a.size)
    refine ⟨s', ?_, h'⟩
    simp [hfirst, hadd, hloop]

structure Ready (s : StoreLoadSets) : Prop where
  maps : s.storeloadtable.Maps fun _ => none
  sets : ∀ sls, s.sets sls = none

theorem ready_new : Ready new where
  maps := ⟨[], HashTable.PutOnly.new (n := 8), fun _ => rfl⟩
  sets _ := rfl

structure Grouped (g : MemoryGraph) (ops : List ExecPoint) (s : StoreLoadSets)
    (a : StoreLoadTable) :
    Prop where
  refines : Refines s a
  grouped : StoreLoadTable.Grouped g ops a
  components : StoreLoadTable.Components g ops a

theorem Ready.grouped (h : Ready s) (g : MemoryGraph) :
    Grouped g [] s ⟨fun _ => .empty, s.allocated, fun _ => none⟩ where
  refines := by
    refine ⟨h.maps, rfl, ?_, h.sets 0⟩
    simp [h.sets, StoreLoadSet.empty]
  grouped := by
    refine ⟨fun _ => StoreLoadTable.covers_empty g, fun _ _ => rfl, ?_, ?_, ?_⟩ <;>
      simp [StoreLoadSet.empty]
  components := by
    refine ⟨fun _ => ⟨[], by simp, rfl⟩, ?_⟩
    simp [StoreLoadSet.empty]

theorem Ready.exists_groupAll (h : Ready s) (g : MemoryGraph) (ops : List ExecPoint)
    (hops : ∀ op ∈ ops, g.addrset op ≠ []) :
    ∃ s' a, s.groupAll g ops = some s' ∧ Grouped g ops s' a := by
  induction ops using List.reverseRecOn with
  | nil => exact ⟨s, _, rfl, h.grouped g⟩
  | append_singleton ops op ih =>
    obtain ⟨s₁, a, hrun, hs₁⟩ := ih fun op hop => hops op (by simp [hop])
    obtain ⟨s', hstep, hs'⟩ := hs₁.refines.groupMemoryOperations hs₁.grouped (hops op (by simp))
    refine ⟨s', a.groupMemoryOperations g op, ?_, hs', hs₁.grouped.groupMemoryOperations op,
      hs₁.components.groupMemoryOperations hs₁.grouped op⟩
    unfold groupAll at hrun ⊢
    simp [List.foldlM_append, hrun, hstep]

/-! ## The reset -/

/-- The addresses of the sets are those of some table entries, each with the pointer to its set. -/
structure Owns (s : StoreLoadSets) (entries : List (Nat × Nat)) : Prop where
  nodup : entries.Nodup
  mem : ∀ addr sls, (addr, sls) ∈ entries ↔ ∃ set, s.sets sls = some set ∧ addr ∈ set.addresses
  sets : ∀ sls set, s.sets sls = some set → set.addresses ≠ [] ∧ set.addresses.Nodup

structure Deletes (s s' : StoreLoadSets) : Prop where
  deleted : ∃ sets, s'.deleted = s.deleted ++ sets ∧ sets.Nodup ∧
    ∀ sls, sls ∈ sets ↔ s.sets sls ≠ none ∧ s'.sets sls = none
  gone : ∀ sls, s.sets sls = none → s'.sets sls = none

theorem Deletes.refl (s : StoreLoadSets) : Deletes s s :=
  ⟨⟨[], by simp⟩, fun _ h => h⟩

theorem Deletes.trans {s s' s'' : StoreLoadSets} (h : Deletes s s') (h' : Deletes s' s'') :
    Deletes s s'' := by
  obtain ⟨sets, hlog, hnodup, hmem⟩ := h.deleted
  obtain ⟨sets', hlog', hnodup', hmem'⟩ := h'.deleted
  constructor
  · refine ⟨sets ++ sets', by rw [hlog', hlog, List.append_assoc], ?_, ?_⟩
    · apply List.nodup_append.mpr
      refine ⟨hnodup, hnodup', ?_⟩
      intro sls hsls sls' hsls' heq
      subst heq
      exact ((hmem' sls).mp hsls').1 ((hmem sls).mp hsls).2
    · intro sls
      rw [List.mem_append, hmem, hmem']
      constructor
      · rintro (⟨hthere, hnone⟩ | ⟨hthere, hnone⟩)
        · exact ⟨hthere, h'.gone sls hnone⟩
        · exact ⟨fun hnone' => hthere (h.gone sls hnone'), hnone⟩
      · rintro ⟨hthere, hnone⟩
        by_cases hnone' : s'.sets sls = none
        · exact .inl ⟨hthere, hnone'⟩
        · exact .inr ⟨hnone', hnone⟩
  · exact fun sls hnone => h'.gone sls (h.gone sls hnone)

/-- One set changes, and is deleted if nothing is left of it. -/
theorem Deletes.update {s' : StoreLoadSets} {sls : Nat} (hset : s.sets sls ≠ none)
    {new : Option StoreLoadSet} (hsets : s'.sets = Function.update s.sets sls new)
    (hdeleted : s'.deleted = s.deleted ++ if new.isNone then [sls] else []) : Deletes s s' where
  deleted := by
    refine ⟨_, hdeleted, by split_ifs <;> simp, fun sls' => ?_⟩
    by_cases hne : sls' = sls
    · subst hne
      cases new <;> simp [hsets, hset]
    · cases new <;> simp [hsets, hne]
  gone sls' hnone := by
    have hne : sls' ≠ sls := by
      rintro rfl
      exact hset hnone
    rwa [hsets, Function.update_of_ne hne]

namespace Owns

variable {addr sls : Nat} {entries : List (Nat × Nat)} {set : StoreLoadSet}

theorem mem_erase (h : Owns s ((addr, sls) :: entries)) (hset : s.sets sls = some set)
    (addr' : Nat) : addr' ∈ set.addresses.erase addr ↔ (addr', sls) ∈ entries := by
  have hiff := h.mem addr' sls
  simp only [hset, Option.some_inj, exists_eq_left'] at hiff
  rw [(h.sets sls set hset).2.mem_erase_iff, ← hiff, List.mem_cons, Prod.mk.injEq]
  constructor
  · rintro ⟨hne, heq | hentry⟩
    · exact absurd heq.1 hne
    · exact hentry
  · intro hentry
    refine ⟨?_, .inr hentry⟩
    rintro rfl
    exact (List.nodup_cons.mp h.nodup).1 hentry

/-- The set without the address is kept as long as it has another one. -/
theorem update (h : Owns s ((addr, sls) :: entries)) (hset : s.sets sls = some set)
    {s' : StoreLoadSets} {new : Option StoreLoadSet}
    (hsets : s'.sets = Function.update s.sets sls new)
    (hnew : ∀ set', new = some set' →
      set'.addresses = set.addresses.erase addr ∧ set.addresses.erase addr ≠ [])
    (hnone : new = none → set.addresses.erase addr = []) : Owns s' entries where
  nodup := (List.nodup_cons.mp h.nodup).2
  mem addr' sls' := by
    rw [hsets]
    by_cases hne : sls' = sls
    · subst hne
      rw [Function.update_self, ← h.mem_erase hset addr']
      cases hcase : new with
      | none => simp [hnone hcase]
      | some set' => simp [(hnew set' hcase).1]
    · rw [Function.update_of_ne hne, ← h.mem addr' sls', List.mem_cons, Prod.mk.injEq]
      simp [hne]
  sets sls' set' hset' := by
    rw [hsets] at hset'
    by_cases hne : sls' = sls
    · subst hne
      rw [Function.update_self] at hset'
      obtain ⟨haddresses, hnil⟩ := hnew set' hset'
      rw [haddresses]
      exact ⟨hnil, (h.sets sls' set hset).2.erase addr⟩
    · exact h.sets sls' set' (by rwa [Function.update_of_ne hne] at hset')

theorem removeAddress (h : Owns s ((addr, sls) :: entries)) :
    ∃ s₁ empty s', s.removeAddress sls addr = some (s₁, empty) ∧
      (if empty then s₁.delete sls else some s₁) = some s' ∧
      (empty = true ↔ ∀ addr', (addr', sls) ∉ entries) ∧
      Owns s' entries ∧ Deletes s s' ∧ s'.storeloadtable = s.storeloadtable ∧
      s'.allocated = s.allocated := by
  obtain ⟨set, hset, -⟩ := (h.mem addr sls).mp (by simp)
  have hthere : s.sets sls ≠ none := by simp [hset]
  let s₁ : StoreLoadSets := { s with
    sets := Function.update s.sets sls (some { set with addresses := set.addresses.erase addr }) }
  have hremove : s.removeAddress sls addr = some (s₁, (set.addresses.erase addr).isEmpty) := by
    simp [StoreLoadSets.removeAddress, hset, s₁]
  have hempty : (set.addresses.erase addr).isEmpty = true ↔ ∀ addr', (addr', sls) ∉ entries := by
    simp only [List.isEmpty_iff, List.eq_nil_iff_forall_not_mem, h.mem_erase hset]
  by_cases hnil : set.addresses.erase addr = []
  · let s₂ : StoreLoadSets := { s₁ with
      sets := Function.update s₁.sets sls none
      deleted := s₁.deleted ++ [sls] }
    have hsets : s₂.sets = Function.update s.sets sls none := Function.update_idem ..
    exact ⟨s₁, _, s₂, hremove, by simp [hnil, delete, s₁, s₂], hempty,
      h.update hset hsets (by simp) fun _ => hnil, .update hthere hsets rfl, rfl, rfl⟩
  · refine ⟨s₁, _, s₁, hremove, by simp [hnil], hempty, ?_, .update hthere rfl (by simp [s₁]), rfl,
      rfl⟩
    apply h.update hset rfl
    · intro set' heq
      obtain rfl := Option.some_inj.mp heq
      exact ⟨rfl, hnil⟩
    · simp

end Owns

def clearBins (t : HashTable Nat Nat) (bins : List Nat) : HashTable Nat Nat :=
  { t with table := fun i => if i ∈ bins ∧ (t.table i).val ≠ 0 then ⟨0, 0⟩ else t.table i }

theorem Owns.congr {s' : StoreLoadSets} {entries : List (Nat × Nat)} (h : Owns s entries)
    (hsets : s'.sets = s.sets) : Owns s' entries where
  nodup := h.nodup
  mem addr sls := by rw [hsets, h.mem]
  sets sls set hset := h.sets sls set (by rwa [hsets] at hset)

theorem Owns.foldlM_resetBin {bins : List Nat} (hbins : bins.Nodup) {rest : List (Nat × Nat)}
    (h : Owns s (s.storeloadtable.entries bins ++ rest)) :
    ∃ s', bins.foldlM resetBin s = some s' ∧ Owns s' rest ∧ Deletes s s' ∧
      s'.storeloadtable = clearBins s.storeloadtable bins ∧ s'.allocated = s.allocated := by
  induction bins generalizing s with
  | nil =>
    refine ⟨s, rfl, by simpa [HashTable.entries] using h, Deletes.refl s, ?_, rfl⟩
    simp [clearBins]
  | cons i bins ih =>
    obtain ⟨hnot, hbins'⟩ := List.nodup_cons.mp hbins
    by_cases hval : (s.storeloadtable.table i).val = 0
    · have hentries : s.storeloadtable.entries (i :: bins) = s.storeloadtable.entries bins := by
        simp [HashTable.entries, hval]
      rw [hentries] at h
      obtain ⟨s', hloop, howns, hdeletes, htable, hallocated⟩ := ih hbins' h
      refine ⟨s', ?_, howns, hdeletes, ?_, hallocated⟩
      · rw [List.foldlM_cons]
        simp only [resetBin, hval, ne_eq, not_true_eq_false, if_false, Option.bind_eq_bind,
          Option.bind_some]
        exact hloop
      · rw [htable]
        unfold clearBins
        congr 1
        ext1 k
        by_cases hk : k = i
        · subst hk
          simp [hnot, hval]
        · simp [hk]
    · have hentries : s.storeloadtable.entries (i :: bins) =
          ((s.storeloadtable.table i).key, (s.storeloadtable.table i).val) ::
            s.storeloadtable.entries bins := by
        simp [HashTable.entries, hval]
      rw [hentries, List.cons_append] at h
      obtain ⟨s₁, empty, s₂, hremove, hdelete, -, howns, hdeletes, htable, hallocated⟩ :=
        h.removeAddress
      let s₃ : StoreLoadSets := { s₂ with storeloadtable := s₂.storeloadtable.write i ⟨0, 0⟩ }
      have hstep : s.resetBin i = some s₃ := by
        cases empty with
        | false =>
          obtain rfl : s₁ = s₂ := by simpa using hdelete
          simp [resetBin, hval, hremove, s₃]
        | true =>
          have hdelete' : s₁.delete (s.storeloadtable.table i).val = some s₂ := hdelete
          simp [resetBin, hval, hremove, hdelete', s₃]
      have hsame : s₃.storeloadtable.entries bins = s.storeloadtable.entries bins := by
        have hbin : ∀ k ∈ bins, s₃.storeloadtable.table k = s.storeloadtable.table k := by
          intro k hk
          have hne : k ≠ i := by
            rintro rfl
            exact hnot hk
          simp only [s₃, htable]
          exact HashTable.write_table_of_ne hne
        unfold HashTable.entries
        rw [List.filter_congr fun k hk => by rw [hbin k hk]]
        exact List.map_congr_left fun k hk => by rw [hbin k (List.mem_of_mem_filter hk)]
      have howns₃ : Owns s₃ (s₃.storeloadtable.entries bins ++ rest) := by
        rw [hsame]
        exact howns.congr rfl
      obtain ⟨s', hloop, howns', hdeletes', htable', hallocated'⟩ := ih hbins' howns₃
      have hdeletes₃ : Deletes s s₃ := ⟨hdeletes.deleted, hdeletes.gone⟩
      refine ⟨s', ?_, howns', hdeletes₃.trans hdeletes', ?_, hallocated'.trans hallocated⟩
      · rw [List.foldlM_cons, hstep]
        exact hloop
      · rw [htable']
        simp only [s₃, htable, clearBins, HashTable.write]
        congr 1
        ext1 k
        by_cases hk : k = i
        · subst hk
          simp [hval]
        · simp [hk]

theorem Refines.exists_set (h : Refines s a) {sls : Nat} {set : StoreLoadSet}
    (hset : s.sets sls = some set) :
    ∃ k, sls = k + 1 ∧ set = a.sets k ∧ (a.sets k).storeloadset ≠ [] := by
  cases sls with
  | zero => simp [h.null] at hset
  | succ k =>
    rw [h.sets] at hset
    split_ifs at hset with hnil
    exact ⟨k, rfl, (Option.some_inj.mp hset).symm, hnil⟩

theorem Grouped.pointer_iff (h : Grouped g ops s a) (addr sls : Nat) :
    (a.table addr).map (· + 1) = some sls ↔
      ∃ set, s.sets sls = some set ∧ addr ∈ set.addresses := by
  constructor
  · intro hsls
    obtain ⟨k, hk, rfl⟩ := Option.map_eq_some_iff.mp hsls
    obtain ⟨rec, hrec, -⟩ := h.grouped.owned addr k hk
    exact ⟨a.sets k, h.refines.sets_of_mem hrec,
      (h.components.mem_addresses h.grouped addr k).mpr hk⟩
  · rintro ⟨set, hset, haddr⟩
    obtain ⟨k, rfl, rfl, -⟩ := h.refines.exists_set hset
    rw [(h.components.mem_addresses h.grouped addr k).mp haddr, Option.map_some]

theorem Grouped.owns (h : Grouped g ops s a) (hops : ∀ op ∈ ops, g.addrset op ≠ []) :
    Owns s s.storeloadtable.allEntries := by
  obtain ⟨m, hm, hf⟩ := h.refines.maps
  constructor
  · exact hm.nodup_allEntries addressOps_lawful
  · intro addr sls
    rw [hm.mem_allEntries, HashTable.Maps.mem_iff hm hf, h.pointer_iff]
  · intro sls set hset
    obtain ⟨k, -, rfl, hne⟩ := h.refines.exists_set hset
    have hexact := (h.components.built k).exact
    refine ⟨?_, hexact.nodup⟩
    obtain ⟨rec, hrec⟩ := List.exists_mem_of_ne_nil _ hne
    obtain ⟨addr, haddr⟩ := List.exists_mem_of_ne_nil _
      (hops rec ((h.components.built k).mem hrec))
    exact List.ne_nil_of_mem ((hexact.addresses addr).mpr ⟨rec, hrec, haddr⟩)

theorem Owns.resetZero
    (h : Owns s (s.storeloadtable.zero.toList.map fun zero => (zero.key, zero.val))) :
    ∃ s', s.resetZero = some s' ∧ Owns s' [] ∧ Deletes s s' ∧
      s'.storeloadtable = { s.storeloadtable with zero := none } ∧ s'.allocated = s.allocated := by
  unfold StoreLoadSets.resetZero
  cases hzero : s.storeloadtable.zero with
  | none =>
    refine ⟨s, rfl, by simpa [hzero] using h, Deletes.refl s, ?_, rfl⟩
    rw [← hzero]
  | some zero =>
    rw [hzero] at h
    obtain ⟨s₁, empty, s₂, hremove, hdelete, hempty, howns, hdeletes, htable, hallocated⟩ :=
      h.removeAddress
    have htrue : empty = true := hempty.mpr (by simp)
    rw [if_pos htrue] at hdelete
    refine ⟨{ s₂ with storeloadtable := { s₂.storeloadtable with zero := none } }, ?_,
      howns.congr rfl, ⟨hdeletes.deleted, hdeletes.gone⟩, ?_, hallocated⟩
    · simp [hremove, htrue, hdelete]
    · simp [htable]

/-- The reset deletes what is left, and empties the table. -/
structure Emptied (s s' : StoreLoadSets) : Prop where
  deleted : ∃ sets, s'.deleted = s.deleted ++ sets ∧ sets.Nodup ∧
    ∀ sls, sls ∈ sets ↔ s.sets sls ≠ none
  gone : ∀ sls, s'.sets sls = none
  table : ∀ i < s'.storeloadtable.capacity, s'.storeloadtable.table i = ⟨0, 0⟩
  zero : s'.storeloadtable.zero = none
  size : s'.storeloadtable.size = 0

theorem Grouped.exists_reset (h : Grouped g ops s a) (hops : ∀ op ∈ ops, g.addrset op ≠ []) :
    ∃ s', s.resetstoreloadtable = some s' ∧ Emptied s s' ∧ Ready s' := by
  obtain ⟨s₁, hloop, howns₁, hdeletes₁, htable₁, -⟩ :=
    Owns.foldlM_resetBin List.nodup_range (h.owns hops)
  have hzero : s₁.storeloadtable.zero = s.storeloadtable.zero := by rw [htable₁]; rfl
  rw [← hzero] at howns₁
  obtain ⟨s₂, hreset, howns₂, hdeletes₂, htable₂, -⟩ := howns₁.resetZero
  have hdeletes := hdeletes₁.trans hdeletes₂
  have hgone : ∀ sls, s₂.sets sls = none := by
    intro sls
    by_contra hne
    obtain ⟨set, hset⟩ := Option.ne_none_iff_exists'.mp hne
    obtain ⟨addr, haddr⟩ := List.exists_mem_of_ne_nil _ (howns₂.sets sls set hset).1
    have hentry := (howns₂.mem addr sls).mpr ⟨set, hset, haddr⟩
    simp at hentry
  obtain ⟨m, hm, -⟩ := h.refines.maps
  have hbins : ∀ i < s.storeloadtable.capacity, s₂.storeloadtable.table i = ⟨0, 0⟩ := by
    intro i hi
    rw [htable₂, htable₁]
    by_cases hval : (s.storeloadtable.table i).val = 0
    · have hkey : (s.storeloadtable.table i).key = 0 := by
        by_contra hne
        exact hm.stored.nonnull _ ((hm.stored.holds _ _ hne).mp ⟨i, hi, rfl⟩) hval
      have hnode : s.storeloadtable.table i = ⟨0, 0⟩ := by
        cases hbin : s.storeloadtable.table i
        simp_all
      simp [clearBins, hnode]
    · simp [clearBins, hi, hval]
  have hcapacity : s₂.storeloadtable.capacity = s.storeloadtable.capacity := by
    rw [htable₂, htable₁]
    rfl
  refine ⟨{ s₂ with storeloadtable := { s₂.storeloadtable with size := 0 } }, ?_, ?_, ?_, hgone⟩
  · simp [resetstoreloadtable, hloop, hreset]
  · constructor
    · obtain ⟨sets, hlog, hnodup, hmem⟩ := hdeletes.deleted
      exact ⟨sets, hlog, hnodup, fun sls => (hmem sls).trans (and_iff_left (hgone sls))⟩
    · exact hgone
    · intro i hi
      exact hbins i (hcapacity ▸ hi)
    · rw [htable₂]
    · rfl
  · refine ⟨[], HashTable.PutOnly.of_empty ?_ ?_ ?_ ?_ ?_ rfl, fun _ => rfl⟩
    · have hpower := hm.stored.placed.power
      unfold HashTable.PowerCapacity at hpower ⊢
      simpa [hcapacity] using hpower
    · simpa [hcapacity] using hm.capacity
    · have hfactor := hm.factor
      rw [htable₂, htable₁]
      exact hfactor
    · intro i hi
      exact hbins i (hcapacity ▸ hi)
    · rw [htable₂]

theorem Ready.exists_runRounds (h : Ready s) (rounds : List (MemoryGraph × List ExecPoint))
    (hrounds : ∀ round ∈ rounds, ∀ op ∈ round.2, round.1.addrset op ≠ []) :
    ∃ s', s.runRounds rounds = some s' ∧ Ready s' := by
  induction rounds generalizing s with
  | nil => exact ⟨s, rfl, h⟩
  | cons round rounds ih =>
    have hfirst := hrounds round (by simp)
    obtain ⟨s₁, a, hgroup, hs₁⟩ := h.exists_groupAll round.1 round.2 hfirst
    obtain ⟨s₂, hreset, -, hs₂⟩ := hs₁.exists_reset hfirst
    obtain ⟨s', hrun, hs'⟩ := ih hs₂ fun r hr => hrounds r (by simp [hr])
    refine ⟨s', ?_, hs'⟩
    unfold runRounds at hrun ⊢
    rw [List.foldlM_cons]
    simp only [hgroup, Option.bind_eq_bind, Option.bind_some, hreset]
    exact hrun

/-- Addresses lead to one set if and only if a chain links them, and the sets have what their
records have. -/
structure Partition (g : MemoryGraph) (ops : List ExecPoint) (s : StoreLoadSets) : Prop where
  same : ∀ addr addr', (∃ sls, sls ≠ 0 ∧ s.get addr = some sls ∧ s.get addr' = some sls) ↔
    g.ChainLinked ops addr addr'
  records : ∀ rec ∈ ops, ∀ addr ∈ g.addrset rec,
    ∃ sls set, s.get addr = some sls ∧ s.sets sls = some set ∧ rec ∈ set.storeloadset
  members : ∀ sls set, s.sets sls = some set → ∀ rec ∈ set.storeloadset, rec ∈ ops
  addresses : ∀ sls set, s.sets sls = some set →
    ∀ addr, addr ∈ set.addresses ↔ s.get addr = some sls
  values : ∀ sls set, s.sets sls = some set → ∀ val, val ∈ set.values ↔
    ∃ rec ∈ set.storeloadset, g.isStore rec = true ∧ val ∈ g.storeset rec

theorem Grouped.get_iff (h : Grouped g ops s a) (addr : Nat) {sls : Nat} (hsls : sls ≠ 0) :
    s.get addr = some sls ↔ (a.table addr).map (· + 1) = some sls := by
  rw [h.refines.get]
  cases a.table addr with
  | none => simp [Ne.symm hsls]
  | some k => simp

theorem Grouped.partition (h : Grouped g ops s a) : Partition g ops s where
  same addr addr' := by
    rw [← h.components.table_eq_iff h.grouped]
    constructor
    · rintro ⟨sls, hne, hget, hget'⟩
      obtain ⟨k, hk, rfl⟩ := Option.map_eq_some_iff.mp ((h.get_iff addr hne).mp hget)
      obtain ⟨k', hk', heq⟩ := Option.map_eq_some_iff.mp ((h.get_iff addr' hne).mp hget')
      obtain rfl : k' = k := Nat.succ.inj heq
      exact ⟨k', hk, hk'⟩
    · rintro ⟨k, hk, hk'⟩
      have hne : k + 1 ≠ 0 := Nat.succ_ne_zero k
      refine ⟨k + 1, hne, (h.get_iff addr hne).mpr ?_, (h.get_iff addr' hne).mpr ?_⟩
      · rw [hk, Option.map_some]
      · rw [hk', Option.map_some]
  records rec hrec addr haddr := by
    obtain ⟨k, hk⟩ := h.grouped.grouped rec hrec (List.ne_nil_of_mem haddr)
    refine ⟨k + 1, a.sets k, ?_, h.refines.sets_of_mem hk, hk⟩
    apply (h.get_iff addr (Nat.succ_ne_zero k)).mpr
    rw [h.grouped.linked k rec hk addr haddr, Option.map_some]
  members sls set hset rec hrec := by
    obtain ⟨k, -, rfl, -⟩ := h.refines.exists_set hset
    exact (h.components.built k).mem hrec
  addresses sls set hset addr := by
    obtain ⟨k, rfl, -, -⟩ := h.refines.exists_set hset
    rw [h.get_iff addr (Nat.succ_ne_zero k), h.pointer_iff]
    simp [hset]
  values sls set hset := by
    obtain ⟨k, -, rfl, -⟩ := h.refines.exists_set hset
    exact (h.components.built k).exact.values

/-- After any rounds before, a sequence of operations with addresses is grouped by the chains
between them, and the reset then deletes every set. -/
theorem partition_groupAll {rounds : List (MemoryGraph × List ExecPoint)}
    (hrounds : ∀ round ∈ rounds, ∀ op ∈ round.2, round.1.addrset op ≠ []) {g : MemoryGraph}
    {ops : List ExecPoint} (hops : ∀ op ∈ ops, g.addrset op ≠ []) :
    ∃ s₀ s s', new.runRounds rounds = some s₀ ∧ s₀.groupAll g ops = some s ∧
      Partition g ops s ∧ s.resetstoreloadtable = some s' ∧ Emptied s s' := by
  obtain ⟨s₀, hbefore, hready⟩ := ready_new.exists_runRounds rounds hrounds
  obtain ⟨s, a, hgroup, hs⟩ := hready.exists_groupAll g ops hops
  obtain ⟨s', hreset, hemptied, -⟩ := hs.exists_reset hops
  exact ⟨s₀, s, s', hbefore, hgroup, hs.partition, hreset, hemptied⟩

def sharedGraph : MemoryGraph where
  records _ := some ⟨.store, none, 2, none, none, []⟩
  firstrecord _ := none
  len _ := 8
  first := ExecPoint.start 0
  addrset record := match record.tid with
    | 0 => [0, 16]
    | 1 => [32, 16]
    | _ => [48]
  storeset _ := [1]

theorem partition_sharedGraph :
    ∃ s₀ s s', new.runRounds [(sharedGraph, [ExecPoint.start 2])] = some s₀ ∧
      s₀.groupAll sharedGraph [ExecPoint.start 0, ExecPoint.start 1, ExecPoint.start 2] = some s ∧
      (∃ sls, sls ≠ 0 ∧ s.get 0 = some sls ∧ s.get 32 = some sls) ∧
      s.resetstoreloadtable = some s' ∧ ∀ sls, s'.sets sls = none := by
  have hops : ∀ op ∈ [ExecPoint.start 0, ExecPoint.start 1, ExecPoint.start 2],
      sharedGraph.addrset op ≠ [] := by decide
  have hrounds : ∀ round ∈ [(sharedGraph, [ExecPoint.start 2])], ∀ op ∈ round.2,
      round.1.addrset op ≠ [] := by
    intro round hround
    obtain rfl := List.mem_singleton.mp hround
    decide
  obtain ⟨s₀, s, s', hbefore, hgroup, hpartition, hreset, hemptied⟩ :=
    partition_groupAll hrounds hops
  have hchain : sharedGraph.ChainLinked
      [ExecPoint.start 0, ExecPoint.start 1, ExecPoint.start 2] 0 32 := by
    refine ⟨ExecPoint.start 0, by simp, ExecPoint.start 1, by simp, by decide, by decide, ?_⟩
    exact Relation.ReflTransGen.single ⟨by simp, by simp, 16, by decide, by decide⟩
  exact ⟨s₀, s, s', hbefore, hgroup, (hpartition.same 0 32).mpr hchain, hreset, hemptied.gone⟩

end StoreLoadSets

end SatCheck
