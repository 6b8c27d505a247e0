import SatCheck.HashTableLoad
import SatCheck.LinkedHashSet
/-!
# The nodes of a hash set

The nodes of a set are a ring around null, and the table maps the key of each node to the
node.  `add` and `remove` are the two edits of a ring; both leave other sets alone.
-/

namespace SatCheck

namespace LinkedHashSet

open LinkedRing HashTable

variable {K : Type} {set set' : LinkedHashSet K} {heap heap' : NodeHeap K}
variable {nodes nodes' : List Nat}

/-! ## The nodes of a set -/

def nextOf (set : LinkedHashSet K) (heap : NodeHeap K) (a : Nat) : Nat :=
  if a = 0 then set.list else (heap.node a).next

def prevOf (set : LinkedHashSet K) (heap : NodeHeap K) (a : Nat) : Nat :=
  if a = 0 then set.tail else (heap.node a).prev

def keys (heap : NodeHeap K) (nodes : List Nat) : List K :=
  nodes.map fun a => (heap.node a).key

theorem keys_congr (h : ∀ a ∈ nodes, (heap'.node a).key = (heap.node a).key) :
    keys heap' nodes = keys heap nodes :=
  List.map_congr_left h

def entries (heap : NodeHeap K) (nodes : List Nat) : List (K × Nat) :=
  nodes.map fun a => ((heap.node a).key, a)

@[simp] theorem map_fst_entries (heap : NodeHeap K) (nodes : List Nat) :
    (entries heap nodes).map Prod.fst = keys heap nodes := by
  simp [entries, keys]

theorem mem_entries {e : K × Nat} :
    e ∈ entries heap nodes ↔ e.2 ∈ nodes ∧ e.1 = (heap.node e.2).key := by
  unfold entries
  rw [List.mem_map]
  constructor
  · rintro ⟨a, ha, rfl⟩
    exact ⟨ha, rfl⟩
  · rintro ⟨he, hkey⟩
    exact ⟨e.2, he, by rw [← hkey]⟩

/-- What a call leaves alone: the nodes in use that are not the set's. -/
structure Frame (heap heap' : NodeHeap K) (nodes nodes' : List Nat) : Prop where
  node : ∀ a ∈ heap.allocated, a ∉ nodes → heap'.node a = heap.node a
  kept : ∀ a ∈ heap.allocated, a ∉ nodes → a ∈ heap'.allocated
  fresh : ∀ a ∈ nodes', a ∈ nodes ∨ a ∉ heap.allocated

theorem Frame.refl (heap : NodeHeap K) (nodes : List Nat) : Frame heap heap nodes nodes where
  node := fun _ _ _ => rfl
  kept := fun _ ha _ => ha
  fresh := fun _ ha => Or.inl ha

theorem Frame.trans {heap'' : NodeHeap K} {nodes'' : List Nat}
    (h : Frame heap heap' nodes nodes') (h' : Frame heap' heap'' nodes' nodes'') :
    Frame heap heap'' nodes nodes'' := by
  have hnot : ∀ a ∈ heap.allocated, a ∉ nodes → a ∉ nodes' := by
    intro a ha hn hmem
    cases h.fresh a hmem with
    | inl hmem => exact hn hmem
    | inr hnew => exact hnew ha
  refine ⟨?_, ?_, ?_⟩
  · intro a ha hn
    rw [h'.node a (h.kept a ha hn) (hnot a ha hn), h.node a ha hn]
  · intro a ha hn
    exact h'.kept a (h.kept a ha hn) (hnot a ha hn)
  · intro a ha
    by_cases hn : a ∈ nodes
    · exact Or.inl hn
    right
    intro halloc
    cases h'.fresh a ha with
    | inl hmem => exact hnot a halloc hn hmem
    | inr hnew => exact hnew (h.kept a halloc hn)

/-! ## The two edits of the list -/

variable {key : K} {a x : Nat}

theorem append_allocated : (set.append heap a key).2.allocated = heap.allocated := by
  unfold append
  split_ifs <;> rfl

theorem append_node_of_ne (hxa : x ≠ a) (hx : set.tail ≠ 0 → x ≠ set.tail) :
    (set.append heap a key).2.node x = heap.node x := by
  unfold append NodeHeap.setNext NodeHeap.setNode
  split_ifs with htail
  · exact (Function.update_of_ne (hx htail) _ _).trans (Function.update_of_ne hxa _ _)
  · exact Function.update_of_ne hxa _ _

theorem append_node_self (ha : a ≠ set.tail) :
    (set.append heap a key).2.node a = ⟨key, set.tail, 0⟩ := by
  unfold append NodeHeap.setNext NodeHeap.setNode
  split_ifs with htail
  · exact (Function.update_of_ne ha _ _).trans (Function.update_self a _ _)
  · exact Function.update_self a _ _

theorem append_node_tail (ha : a ≠ set.tail) (htail : set.tail ≠ 0) :
    (set.append heap a key).2.node set.tail = { heap.node set.tail with next := a } := by
  unfold append NodeHeap.setNext NodeHeap.setNode
  rw [if_pos htail]
  simp [Function.update_of_ne ha.symm]

theorem append_key (hxa : x ≠ a) (ha : a ≠ set.tail) :
    ((set.append heap a key).2.node x).key = (heap.node x).key := by
  by_cases hx : x = set.tail
  · by_cases htail : set.tail = 0
    · unfold append NodeHeap.setNode
      rw [if_neg (by simpa using htail)]
      exact congrArg LinkNode.key (Function.update_of_ne hxa _ _)
    · rw [hx, append_node_tail ha htail]
  · rw [append_node_of_ne hxa fun _ => hx]

theorem nextOf_append (table : HashTable K Nat) (ha : a ≠ 0) (htail : a ≠ set.tail) :
    nextOf ⟨table, (set.append heap a key).1, a⟩ (set.append heap a key).2 =
      Function.update (Function.update (set.nextOf heap) set.tail a) a 0 := by
  ext x
  unfold nextOf
  by_cases hxa : x = a
  · rw [hxa, if_neg ha, append_node_self htail, Function.update_self]
  rw [Function.update_of_ne hxa]
  by_cases hx : x = set.tail
  · rw [hx, Function.update_self]
    split_ifs with hzero
    · unfold append
      rw [if_neg (by simpa using hzero)]
    · rw [append_node_tail htail hzero]
  · rw [Function.update_of_ne hx]
    split_ifs with hzero
    · unfold append
      rw [if_pos (by rw [← hzero]; exact Ne.symm hx)]
    · rw [append_node_of_ne hxa fun _ => hx]

theorem prevOf_append (table : HashTable K Nat) (htail : a ≠ set.tail) :
    prevOf ⟨table, (set.append heap a key).1, a⟩ (set.append heap a key).2 =
      Function.update (Function.update (set.prevOf heap) a set.tail) 0 a := by
  ext x
  unfold prevOf
  by_cases hzero : x = 0
  · rw [hzero, if_pos rfl, Function.update_self]
  rw [if_neg hzero, Function.update_of_ne hzero]
  by_cases hxa : x = a
  · rw [hxa, append_node_self htail, Function.update_self]
  · rw [Function.update_of_ne hxa, if_neg hzero]
    by_cases hx : x = set.tail
    · rw [hx, append_node_tail htail (by rw [← hx]; exact hzero)]
    · rw [append_node_of_ne hxa fun _ => hx]

/-- The memory after `remove`, by its node `a`. -/
def unlinked (heap : NodeHeap K) (a : Nat) : NodeHeap K := unlinkPrev (unlinkNext heap a) a

/-- The set after `remove`. -/
def unlinkedSet (set : LinkedHashSet K) (heap : NodeHeap K) (a : Nat) (table : HashTable K Nat) :
    LinkedHashSet K where
  table := table
  list := if (heap.node a).prev = 0 then (heap.node a).next else set.list
  tail := if (heap.node a).next ≠ 0 then set.tail else (heap.node a).prev

theorem unlinkNext_node (hprev : (heap.node a).prev ≠ a) :
    (unlinkNext heap a).node a = heap.node a := by
  unfold unlinkNext NodeHeap.setNext NodeHeap.setNode
  split_ifs
  · rfl
  · exact Function.update_of_ne hprev.symm _ _

theorem unlinked_allocated : (unlinked heap a).allocated = heap.allocated := by
  unfold unlinked unlinkPrev unlinkNext
  split_ifs <;> rfl

theorem unlinked_key : ((unlinked heap a).node x).key = (heap.node x).key := by
  unfold unlinked unlinkPrev unlinkNext
  split_ifs <;> simp

theorem unlinked_node_of_ne (hprev : (heap.node a).prev ≠ a)
    (hx : (heap.node a).prev ≠ 0 → x ≠ (heap.node a).prev)
    (hx' : (heap.node a).next ≠ 0 → x ≠ (heap.node a).next) :
    (unlinked heap a).node x = heap.node x := by
  have hfirst : (unlinkNext heap a).node x = heap.node x := by
    unfold unlinkNext NodeHeap.setNext NodeHeap.setNode
    split_ifs with hzero
    · rfl
    · exact Function.update_of_ne (hx hzero) _ _
  unfold unlinked unlinkPrev NodeHeap.setPrev NodeHeap.setNode
  rw [unlinkNext_node hprev]
  split_ifs with hzero
  · exact (Function.update_of_ne (hx' hzero) _ _).trans hfirst
  · exact hfirst

private theorem unlinkPrev_next : ((unlinkPrev heap a).node x).next = (heap.node x).next := by
  unfold unlinkPrev
  split_ifs <;> simp

private theorem unlinked_next (hx : x ≠ 0) :
    ((unlinked heap a).node x).next =
      if x = (heap.node a).prev then (heap.node a).next else (heap.node x).next := by
  unfold unlinked
  rw [unlinkPrev_next]
  unfold unlinkNext
  by_cases hzero : (heap.node a).prev = 0
  · rw [if_pos hzero, if_neg (by rw [hzero]; exact hx)]
  · simp [hzero]

private theorem unlinked_prev (hprev : (heap.node a).prev ≠ a) (hx : x ≠ 0) :
    ((unlinked heap a).node x).prev =
      if x = (heap.node a).next then (heap.node a).prev else (heap.node x).prev := by
  have hfirst : ((unlinkNext heap a).node x).prev = (heap.node x).prev := by
    unfold unlinkNext
    split_ifs <;> simp
  unfold unlinked unlinkPrev
  rw [unlinkNext_node hprev]
  by_cases hzero : (heap.node a).next = 0
  · rw [if_neg (by simpa using hzero), if_neg (by rw [hzero]; exact hx), hfirst]
  · simp [hzero, hfirst]

theorem nextOf_unlinked (table : HashTable K Nat) :
    nextOf (unlinkedSet set heap a table) (unlinked heap a) =
      Function.update (set.nextOf heap) (heap.node a).prev (heap.node a).next := by
  ext x
  by_cases hzero : x = 0
  · rw [hzero]
    show (if (heap.node a).prev = 0 then (heap.node a).next else set.list) = _
    by_cases hp : (heap.node a).prev = 0
    · rw [if_pos hp, hp, Function.update_self]
    · rw [if_neg hp, Function.update_of_ne (Ne.symm hp)]
      rfl
  · rw [Function.update_apply]
    unfold nextOf
    rw [if_neg hzero, if_neg hzero, unlinked_next hzero]

theorem prevOf_unlinked (table : HashTable K Nat) (hprev : (heap.node a).prev ≠ a) :
    prevOf (unlinkedSet set heap a table) (unlinked heap a) =
      Function.update (set.prevOf heap) (heap.node a).next (heap.node a).prev := by
  ext x
  by_cases hzero : x = 0
  · rw [hzero]
    show (if (heap.node a).next ≠ 0 then set.tail else (heap.node a).prev) = _
    by_cases hn : (heap.node a).next = 0
    · rw [if_neg (not_not.mpr hn), hn, Function.update_self]
    · rw [if_pos hn, Function.update_of_ne (Ne.symm hn)]
      rfl
  · rw [Function.update_apply]
    unfold prevOf
    rw [if_neg hzero, if_neg hzero, unlinked_prev hprev hzero]

variable [Zero K] [DecidableEq K]

structure Owned (ops : KeyOps K) (set : LinkedHashSet K) (heap : NodeHeap K) (nodes : List Nat) :
    Prop where
  ring : Ring (set.nextOf heap) (set.prevOf heap) 0 nodes
  allocated : ∀ a ∈ nodes, a ∈ heap.allocated
  stored : Stored ops set.table (entries heap nodes)
  factor : set.table.loadfactor < 1

variable {ops : KeyOps K} {_malloc : Malloc} {key : K}

theorem Owned.ne_zero (h : Owned ops set heap nodes) {a : Nat} (ha : a ∈ nodes) : a ≠ 0 := by
  rintro rfl
  exact (List.nodup_cons.mp h.ring.nodup).1 ha

theorem Owned.get_cases (hops : ops.Lawful) (h : Owned ops set heap nodes) (key : K) :
    ((keys heap nodes).any (sameKey ops · key) = true ∧
      ∃ a ∈ nodes, sameKey ops (heap.node a).key key = true ∧ set.table.get ops key = some a) ∨
    ((keys heap nodes).any (sameKey ops · key) = false ∧
      (∀ e ∈ entries heap nodes, sameKey ops e.1 key = false) ∧
      set.table.get ops key = some 0) := by
  rw [h.stored.get hops key]
  cases hget : AssocMap.get (sameKey ops) (entries heap nodes) key with
  | none =>
    have habsent := AssocMap.get_eq_none.mp hget
    refine Or.inr ⟨List.any_eq_false.mpr ?_, habsent, rfl⟩
    intro k hk
    obtain ⟨a, ha, rfl⟩ := List.mem_map.mp hk
    simpa using habsent ((heap.node a).key, a) (mem_entries.mpr ⟨ha, rfl⟩)
  | some a =>
    obtain ⟨e, he, hsame, rfl⟩ :=
      (AssocMap.get_eq_some (sameKey_equivalence hops) h.stored.distinct).mp hget
    obtain ⟨hmem, hkey⟩ := mem_entries.mp he
    rw [hkey] at hsame
    exact Or.inl ⟨List.any_eq_true.mpr ⟨_, List.mem_map_of_mem hmem, hsame⟩, e.2, hmem, hsame, rfl⟩

theorem Owned.congr (h : Owned ops set heap nodes)
    (hnode : ∀ a ∈ nodes, heap'.node a = heap.node a)
    (hkept : ∀ a ∈ nodes, a ∈ heap'.allocated) :
    Owned ops set heap' nodes ∧ keys heap' nodes = keys heap nodes := by
  have hentries : entries heap' nodes = entries heap nodes := by
    apply List.map_congr_left
    intro a ha
    rw [hnode a ha]
  refine ⟨⟨?_, hkept, hentries ▸ h.stored, h.factor⟩, ?_⟩
  · apply h.ring.congr
    · intro a ha
      unfold nextOf
      split_ifs with hzero
      · rfl
      · rw [hnode a ((List.mem_cons.mp ha).resolve_left hzero)]
    · intro a ha
      unfold prevOf
      split_ifs with hzero
      · rfl
      · rw [hnode a ((List.mem_cons.mp ha).resolve_left hzero)]
  · rw [← map_fst_entries, hentries, map_fst_entries]

/-! ## Adding a key -/

/-- The keys after `add`. -/
def addKey (ops : KeyOps K) (ks : List K) (key : K) : List K :=
  if ks.any (sameKey ops · key) then ks else ks ++ [key]

theorem Owned.new {n : Nat} {factor : ℚ} (hfactor : factor < 1) :
    Owned ops (new (2 ^ n) factor) heap [] where
  ring := ring_nil.mpr ⟨rfl, rfl⟩
  allocated := by simp
  stored := stored_new
  factor := hfactor

theorem Owned.add_new (hops : ops.Lawful) (hmalloc : _malloc.Fresh)
    (h : Owned ops set heap nodes) (hget : set.table.get ops key = some 0)
    (habsent : ∀ e ∈ entries heap nodes, sameKey ops e.1 key = false) :
    ∃ set' heap' a, set.add ops _malloc heap key = some (set', heap', true) ∧
      Owned ops set' heap' (nodes ++ [a]) ∧ keys heap' (nodes ++ [a]) = keys heap nodes ++ [key] ∧
      Frame heap heap' nodes (nodes ++ [a]) := by
  obtain ⟨hnonnull, hfresh⟩ := hmalloc heap.allocated heap.mallocs
  set a := _malloc heap.allocated heap.mallocs with ha
  obtain ⟨table, hput, hstored⟩ := h.stored.put hops hnonnull
    (h.stored.put_answered hops h.factor habsent)
  have hfactor := h.stored.loadfactor_put hops hput
  have hnew : a ∉ nodes := fun hmem => hfresh (h.allocated a hmem)
  have htail : set.tail ∈ 0 :: nodes := by
    obtain ⟨rest, hrest⟩ := h.ring.prev_base
    rw [hrest]
    exact List.mem_append_right rest (List.mem_singleton_self _)
  have hne : a ≠ set.tail := by
    intro heq
    cases List.mem_cons.mp htail with
    | inl hzero => exact hnonnull (heq.trans hzero)
    | inr hmem => exact hnew (heq ▸ hmem)
  set heap' := (set.append (heap.malloc _malloc).2 a key).2
  have hkey : ∀ x ∈ nodes, (heap'.node x).key = (heap.node x).key := fun x hx =>
    append_key (ne_of_mem_of_not_mem hx hnew) hne
  have hentries : entries heap' (nodes ++ [a]) = entries heap nodes ++ [(key, a)] := by
    unfold entries
    rw [List.map_append, List.map_singleton, append_node_self hne]
    congr 1
    apply List.map_congr_left
    intro x hx
    rw [hkey x hx]
  refine ⟨⟨table, (set.append (heap.malloc _malloc).2 a key).1, a⟩, heap', a, ?_, ?_, ?_, ?_⟩
  · unfold LinkedHashSet.add
    rw [hget]
    show (do let table ← set.table.put ops key a; some _) = _
    rw [hput]
    rfl
  · refine ⟨?_, ?_, ?_, ?_⟩
    · rw [nextOf_append table hnonnull hne, prevOf_append table hne]
      apply h.ring.append
      intro hmem
      exact (List.mem_cons.mp hmem).elim hnonnull hnew
    · intro x hx
      rw [append_allocated]
      cases List.mem_append.mp hx with
      | inl hx => exact List.mem_cons_of_mem a (h.allocated x hx)
      | inr hx => rw [List.mem_singleton.mp hx]; exact List.mem_cons_self
    · rw [hentries, ← AssocMap.put_of_absent habsent]
      exact hstored
    · rw [hfactor]
      exact h.factor
  · rw [← map_fst_entries, hentries, List.map_append, map_fst_entries]
    rfl
  · refine ⟨?_, ?_, ?_⟩
    · intro x hx hn
      have hxa : x ≠ a := ne_of_mem_of_not_mem hx hfresh
      apply append_node_of_ne hxa
      rintro hzero rfl
      exact hn ((List.mem_cons.mp htail).resolve_left hzero)
    · intro x hx _
      rw [append_allocated]
      exact List.mem_cons_of_mem a hx
    · intro x hx
      cases List.mem_append.mp hx with
      | inl hx => exact Or.inl hx
      | inr hx => rw [List.mem_singleton.mp hx]; exact Or.inr hfresh

theorem Owned.add (hops : ops.Lawful) (hmalloc : _malloc.Fresh) (h : Owned ops set heap nodes)
    (key : K) :
    ∃ set' heap' nodes', set.add ops _malloc heap key =
        some (set', heap', !(keys heap nodes).any (sameKey ops · key)) ∧
      Owned ops set' heap' nodes' ∧ keys heap' nodes' = addKey ops (keys heap nodes) key ∧
      Frame heap heap' nodes nodes' := by
  cases h.get_cases hops key with
  | inl hpresent =>
    obtain ⟨hany, a, ha, hsame, hget⟩ := hpresent
    refine ⟨set, heap, nodes, ?_, h, ?_, Frame.refl heap nodes⟩
    · unfold LinkedHashSet.add
      rw [hget, hany]
      exact if_neg (h.ne_zero ha)
    · unfold addKey
      rw [if_pos hany]
  | inr habsent =>
    obtain ⟨hany, habsent, hget⟩ := habsent
    obtain ⟨set', heap', a, hadd, howned, hkeys, hframe⟩ := h.add_new hops hmalloc hget habsent
    refine ⟨set', heap', nodes ++ [a], ?_, howned, ?_, hframe⟩
    · rw [hadd, hany]
      rfl
    · unfold addKey
      rw [hany, hkeys]
      rfl

/-! ## Removing a key -/

/-- The keys after `remove`. -/
def removeKey (ops : KeyOps K) (ks : List K) (key : K) : List K :=
  ks.filter fun k => !sameKey ops k key

/-- The neighbours of a node are the base or nodes on its two sides. -/
private theorem Owned.neighbours {pre post : List Nat} {a : Nat}
    (h : Owned ops set heap (pre ++ a :: post)) :
    (heap.node a).prev ∈ 0 :: pre ∧ (heap.node a).next ∈ post ++ [0] := by
  have ha : a ≠ 0 := h.ne_zero (by simp)
  constructor
  · obtain ⟨l, hl⟩ := h.ring.prev_eq
    rw [hl, show set.prevOf heap a = (heap.node a).prev from if_neg ha]
    simp
  · obtain ⟨l, hl⟩ := h.ring.next_eq
    rw [hl, show set.nextOf heap a = (heap.node a).next from if_neg ha]
    simp

private theorem Owned.not_mem {pre post : List Nat} {a : Nat}
    (h : Owned ops set heap (pre ++ a :: post)) : a ∉ 0 :: pre ∧ a ∉ post := by
  have hnodup := h.ring.nodup
  constructor
  · rw [← List.cons_append] at hnodup
    exact fun hmem => List.disjoint_of_nodup_append hnodup hmem List.mem_cons_self
  · exact (List.nodup_cons.mp (List.nodup_append.mp (List.nodup_cons.mp hnodup).2).2.1).1

private theorem Owned.entries_unlinked (hops : ops.Lawful) {pre post : List Nat} {a : Nat}
    (h : Owned ops set heap (pre ++ a :: post))
    (hsame : sameKey ops (heap.node a).key key = true) :
    entries (unlinked heap a) (pre ++ post) =
      AssocMap.remove (sameKey ops) (entries heap (pre ++ a :: post)) key := by
  have hdistinct := h.stored.distinct
  unfold entries at hdistinct ⊢
  rw [List.map_append, List.map_cons] at hdistinct
  conv_rhs => rw [List.map_append, List.map_cons]
  rw [AssocMap.remove_split (sameKey_equivalence hops) hdistinct hsame]
  simp only [List.map_append, unlinked_key]

private theorem Owned.frame_unlinked {pre post : List Nat} {a : Nat}
    (h : Owned ops set heap (pre ++ a :: post)) :
    Frame heap ((unlinked heap a).free a) (pre ++ a :: post) (pre ++ post) := by
  obtain ⟨hpmem, hnmem⟩ := h.neighbours
  refine ⟨fun x _ hn => ?_, fun x hx hn => ?_, fun x hx => ?_⟩
  · apply unlinked_node_of_ne (ne_of_mem_of_not_mem hpmem h.not_mem.1)
    · rintro hzero rfl
      exact hn (List.mem_append_left _ ((List.mem_cons.mp hpmem).resolve_left hzero))
    · rintro hzero rfl
      cases List.mem_append.mp hnmem with
      | inl hmem => exact hn (List.mem_append_right _ (List.mem_cons_of_mem a hmem))
      | inr hmem => exact hzero (List.mem_singleton.mp hmem)
  · have hxa : x ≠ a := fun heq => hn (by simp [heq])
    unfold NodeHeap.free
    rw [unlinked_allocated]
    simpa [hxa] using hx
  · left
    rw [List.mem_append] at hx ⊢
    exact hx.imp_right (List.mem_cons_of_mem a)

theorem Owned.remove_node (hops : ops.Lawful) {pre post : List Nat} {a : Nat}
    (h : Owned ops set heap (pre ++ a :: post))
    (hsame : sameKey ops (heap.node a).key key = true)
    (hget : set.table.get ops key = some a) :
    ∃ set' heap', set.remove ops heap key = some (set', heap', true) ∧
      Owned ops set' heap' (pre ++ post) ∧
      (∀ x, (heap'.node x).key = (heap.node x).key) ∧
      Frame heap heap' (pre ++ a :: post) (pre ++ post) := by
  have ha : a ≠ 0 := h.ne_zero (by simp)
  have hpa : (heap.node a).prev ≠ a := ne_of_mem_of_not_mem h.neighbours.1 h.not_mem.1
  have hanswered : Answered ops set.table (.remove key) := by
    by_cases hkey : key = 0
    · exact Or.inl hkey
    · right; left
      apply (h.stored.present_iff hkey).mpr
      exact ⟨((heap.node a).key, a), mem_entries.mpr ⟨by simp, rfl⟩, hsame⟩
  obtain ⟨table, hremove, hstored⟩ := h.stored.remove hops hanswered
  have hfactor := loadfactor_remove hremove
  have hring : Ring (nextOf (unlinkedSet set heap a table) (unlinked heap a))
      (prevOf (unlinkedSet set heap a table) (unlinked heap a)) 0 (pre ++ post) := by
    have hunlink := h.ring.unlink
    rw [show set.prevOf heap a = (heap.node a).prev from if_neg ha,
      show set.nextOf heap a = (heap.node a).next from if_neg ha] at hunlink
    rw [nextOf_unlinked table, prevOf_unlinked table hpa]
    exact hunlink
  refine ⟨unlinkedSet set heap a table, (unlinked heap a).free a, ?_, ⟨hring, ?_, ?_, ?_⟩,
    fun x => unlinked_key, h.frame_unlinked⟩
  · unfold LinkedHashSet.remove
    rw [hget]
    show (if a = 0 then _ else (set.table.remove ops key).bind _) = _
    rw [if_neg ha, hremove]
    show some (LinkedHashSet.mk table _ (if ((unlinkNext heap a).node a).next ≠ 0 then set.tail
      else ((unlinkNext heap a).node a).prev), (unlinked heap a).free a, true) = _
    rw [unlinkNext_node hpa]
    rfl
  · intro x hx
    have hxa : x ≠ a := by
      rintro rfl
      cases List.mem_append.mp hx with
      | inl hx => exact h.not_mem.1 (List.mem_cons_of_mem 0 hx)
      | inr hx => exact h.not_mem.2 hx
    unfold NodeHeap.free
    rw [unlinked_allocated]
    have hmem : x ∈ pre ++ a :: post := by
      rw [List.mem_append] at hx ⊢
      exact hx.imp_right (List.mem_cons_of_mem a)
    simpa [hxa] using h.allocated x hmem
  · show Stored ops table (entries (unlinked heap a) (pre ++ post))
    rw [h.entries_unlinked hops hsame]
    exact hstored
  · show table.loadfactor < 1
    rw [show table.loadfactor = set.table.loadfactor from hfactor]
    exact h.factor

private theorem removeKey_of_absent (h : ∀ e ∈ entries heap nodes, sameKey ops e.1 key = false) :
    removeKey ops (keys heap nodes) key = keys heap nodes := by
  apply List.filter_eq_self.mpr
  intro k hk
  obtain ⟨a, ha, rfl⟩ := List.mem_map.mp hk
  simp [h ((heap.node a).key, a) (mem_entries.mpr ⟨ha, rfl⟩)]

private theorem removeKey_split (hops : ops.Lawful) {pre post : List Nat} {a : Nat}
    (h : Owned ops set heap (pre ++ a :: post)) (hsame : sameKey ops (heap.node a).key key = true) :
    removeKey ops (keys heap (pre ++ a :: post)) key = keys heap (pre ++ post) := by
  have hdistinct := h.stored.distinct
  unfold entries at hdistinct
  rw [List.map_append, List.map_cons] at hdistinct
  have hsplit := congrArg (List.map Prod.fst)
    (AssocMap.remove_split (sameKey_equivalence hops) hdistinct hsame)
  rw [← List.map_cons (f := fun a => ((heap.node a).key, a)), ← List.map_append,
    ← List.map_append] at hsplit
  have hremove :
      (AssocMap.remove (sameKey ops) (entries heap (pre ++ a :: post)) key).map Prod.fst =
      removeKey ops (keys heap (pre ++ a :: post)) key := by
    unfold AssocMap.remove removeKey
    rw [← map_fst_entries, List.filter_map]
    rfl
  rw [← hremove]
  exact hsplit.trans (map_fst_entries heap (pre ++ post))

theorem Owned.remove (hops : ops.Lawful) (h : Owned ops set heap nodes) (key : K) :
    ∃ set' heap' nodes', set.remove ops heap key =
        some (set', heap', (keys heap nodes).any (sameKey ops · key)) ∧
      Owned ops set' heap' nodes' ∧ keys heap' nodes' = removeKey ops (keys heap nodes) key ∧
      Frame heap heap' nodes nodes' := by
  cases h.get_cases hops key with
  | inl hpresent =>
    obtain ⟨hany, a, ha, hsame, hget⟩ := hpresent
    obtain ⟨pre, post, rfl⟩ := List.append_of_mem ha
    obtain ⟨set', heap', hremove, howned, hkey, hframe⟩ := h.remove_node hops hsame hget
    refine ⟨set', heap', pre ++ post, by rw [hremove, hany], howned, ?_, hframe⟩
    rw [removeKey_split hops h hsame]
    apply List.map_congr_left
    intro x _
    exact hkey x
  | inr habsent =>
    obtain ⟨hany, habsent, hget⟩ := habsent
    refine ⟨set, heap, nodes, ?_, h, (removeKey_of_absent habsent).symm, Frame.refl heap nodes⟩
    unfold LinkedHashSet.remove
    rw [hget, hany]
    rfl

end LinkedHashSet

end SatCheck
