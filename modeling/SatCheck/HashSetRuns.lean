import SatCheck.EventRecord
import SatCheck.LinkedHashSetInvariant
import Mathlib.Data.List.Perm.Subperm
/-!
# Runs on hash sets

Any calls on any number of sets, each made new or copied from another one, give the replies
of lists without repetition that keep the order of insertion; after every call the nodes of
each set hold its list.
-/

namespace SatCheck.LinkedHashSet

open LinkedRing HashTable

variable {K : Type} [Zero K] [DecidableEq K]
variable {ops : KeyOps K} {_malloc : Malloc} {set : LinkedHashSet K} {heap heap' : NodeHeap K}
variable {nodes : List Nat} {key : K}

/-! ## Reading -/

theorem Owned.contains (hops : ops.Lawful) (h : Owned ops set heap nodes) (key : K) :
    set.contains ops key = some ((keys heap nodes).any (sameKey ops · key)) := by
  unfold LinkedHashSet.contains
  cases h.get_cases hops key with
  | inl hpresent =>
    obtain ⟨hany, a, ha, _, hget⟩ := hpresent
    rw [hget, hany]
    simpa using h.ne_zero ha
  | inr habsent =>
    rw [habsent.2.2, habsent.1]
    rfl

theorem Owned.get (hops : ops.Lawful) (h : Owned ops set heap nodes) (key : K) :
    set.get ops heap key = some (((keys heap nodes).find? (sameKey ops · key)).getD 0) := by
  unfold LinkedHashSet.get
  rw [h.stored.get hops key, ← map_fst_entries, List.find?_map]
  unfold AssocMap.get
  show some _ = _
  cases hfind : (entries heap nodes).find? fun e => sameKey ops e.1 key with
  | none =>
    have hfind' : (entries heap nodes).find? ((sameKey ops · key) ∘ Prod.fst) = none := hfind
    rw [hfind']
    rfl
  | some e =>
    have hfind' : (entries heap nodes).find? ((sameKey ops · key) ∘ Prod.fst) = some e := hfind
    obtain ⟨hmem, hkey⟩ := mem_entries.mp (List.mem_of_find?_eq_some hfind)
    rw [hfind']
    show some (if e.2 ≠ 0 then (heap.node e.2).key else 0) = some e.1
    rw [if_pos (h.ne_zero hmem), hkey]

theorem Owned.getSize (h : Owned ops set heap nodes) :
    set.getSize = (keys heap nodes).length := by
  unfold LinkedHashSet.getSize HashTable.getSize
  rw [h.stored.size, ← map_fst_entries, List.length_map]

theorem Owned.length_le (h : Owned ops set heap nodes) :
    nodes.length ≤ heap.allocated.length := by
  have hnodup := (List.nodup_cons.mp h.ring.nodup).2
  exact (List.Nodup.subperm hnodup fun a ha => h.allocated a ha).length_le

/-! ## Walking the list -/

theorem Owned.list_eq (h : Owned ops set heap nodes) : set.list = nodes.head?.getD 0 := by
  obtain ⟨rest, hrest⟩ := h.ring.next_base
  cases nodes with
  | nil => exact (List.cons_eq_cons.mp hrest).1.symm
  | cons a nodes => exact (List.cons_eq_cons.mp hrest).1.symm

theorem Owned.next_eq {pre post : List Nat} {a : Nat} (h : Owned ops set heap (pre ++ a :: post)) :
    (heap.node a).next = post.head?.getD 0 := by
  have hnext : set.nextOf heap a = (heap.node a).next := if_neg (h.ne_zero (by simp))
  obtain ⟨rest, hrest⟩ := h.ring.next_eq
  rw [hnext] at hrest
  cases post with
  | nil => exact (List.cons_eq_cons.mp hrest).1.symm
  | cons b post => exact (List.cons_eq_cons.mp hrest).1.symm

theorem Owned.get_self (hops : ops.Lawful) (h : Owned ops set heap nodes) {a : Nat}
    (ha : a ∈ nodes) : set.table.get ops (heap.node a).key = some a := by
  have hrefl := (sameKey_equivalence hops).refl (heap.node a).key
  cases h.get_cases hops (heap.node a).key with
  | inl hpresent =>
    obtain ⟨_, b, hb, hsame, hget⟩ := hpresent
    have heq := h.stored.distinct.eq_of_same (sameKey_equivalence hops)
      (mem_entries.mpr ⟨hb, rfl⟩ : ((heap.node b).key, b) ∈ _)
      (mem_entries.mpr ⟨ha, rfl⟩ : ((heap.node a).key, a) ∈ _) hsame hrefl
    rw [hget, (Prod.mk.inj heq).2]
  | inr habsent =>
    have hne := habsent.2.1 ((heap.node a).key, a) (mem_entries.mpr ⟨ha, rfl⟩)
    rw [hrefl] at hne
    exact absurd hne (by simp)

theorem iterate_succ {choose : K → Bool} {fuel a : Nat} {it : HSIterator} {ks : List K}
    {set₁ set₂ : LinkedHashSet K} {heap₁ heap₂ : NodeHeap K} (hcurr : it.curr = a) (ha : a ≠ 0)
    (hremove : removeChosen ops choose (heap.node a).key (it.next heap).2 set heap =
      some (set₁, heap₁))
    (hrest : LinkedHashSet.iterate ops choose fuel (it.next heap).2 set₁ heap₁ =
      some (ks, set₂, heap₂)) :
    LinkedHashSet.iterate ops choose (fuel + 1) it set heap =
      some ((heap.node a).key :: ks, set₂, heap₂) := by
  subst hcurr
  have hgo : it.hasNext = true := by simpa [HSIterator.hasNext] using ha
  rw [LinkedHashSet.iterate, if_pos hgo]
  show (removeChosen ops choose (heap.node it.curr).key (it.next heap).2 set heap).bind _ = _
  rw [hremove]
  show (LinkedHashSet.iterate ops choose fuel (it.next heap).2 set₁ heap₁).bind _ = _
  rw [hrest]
  rfl

/-- An iteration that removes some of the keys it has just returned returns every key. -/
theorem Owned.iterate (hops : ops.Lawful) (choose : K → Bool) {rest : List Nat} :
    ∀ (kept : List Nat) {set : LinkedHashSet K} {heap : NodeHeap K} {it : HSIterator} {fuel : Nat},
      Owned ops set heap (kept ++ rest) → it.curr = rest.head?.getD 0 → rest.length < fuel →
      ∃ set' heap' nodes', iterate ops choose fuel it set heap =
          some (keys heap rest, set', heap') ∧ Owned ops set' heap' nodes' ∧
        keys heap' nodes' = keys heap kept ++ (keys heap rest).filter (!choose ·) ∧
        Frame heap heap' (kept ++ rest) nodes' := by
  induction rest with
  | nil =>
    intro kept set heap it fuel h hcurr hfuel
    obtain ⟨fuel, rfl⟩ : ∃ n, fuel = n + 1 := ⟨fuel - 1, by simp at hfuel; omega⟩
    have hstop : it.hasNext = false := by simpa [HSIterator.hasNext] using hcurr
    refine ⟨set, heap, kept ++ [], ?_, h, by simp [keys], Frame.refl heap _⟩
    unfold LinkedHashSet.iterate
    rw [hstop]
    rfl
  | cons a rest ih =>
    intro kept set heap it fuel h hcurr hfuel
    obtain ⟨fuel, rfl⟩ : ∃ n, fuel = n + 1 := ⟨fuel - 1, by simp at hfuel; omega⟩
    have hcurr : it.curr = a := hcurr
    have ha : a ≠ 0 := h.ne_zero (by simp)
    have hlast : (it.next heap).2.last = a := hcurr
    have hnext : (it.next heap).2.curr = rest.head?.getD 0 := by
      show (heap.node it.curr).next = _
      rw [hcurr]
      exact h.next_eq
    by_cases hchoose : choose (heap.node a).key = true
    · obtain ⟨set₁, heap₁, hremove, howned, hkey, hframe⟩ :=
        h.remove_node hops ((sameKey_equivalence hops).refl _) (h.get_self hops (by simp))
      obtain ⟨set', heap', nodes', hrest, howned', hkeys, hframe'⟩ :=
        ih kept howned hnext (by simpa using hfuel)
      refine ⟨set', heap', nodes', ?_, howned', ?_, hframe.trans hframe'⟩
      · rw [keys_congr fun x _ => hkey x] at hrest
        apply iterate_succ hcurr ha _ hrest
        unfold removeChosen HSIterator.remove
        rw [if_pos hchoose, hlast, hremove]
        rfl
      · rw [hkeys, keys_congr fun x _ => hkey x, keys_congr fun x _ => hkey x]
        simp [keys, hchoose]
    · obtain ⟨set', heap', nodes', hrest, howned', hkeys, hframe'⟩ :=
        ih (kept ++ [a]) (by simpa using h) hnext (by simpa using hfuel)
      refine ⟨set', heap', nodes', ?_, howned', ?_, by simpa using hframe'⟩
      · exact iterate_succ hcurr ha (if_neg hchoose) hrest
      · rw [hkeys]
        simp [keys, hchoose]

/-! ## Reset and copy -/

theorem Owned.resetLoop (h : Owned ops set heap nodes) {rest : List Nat} :
    ∀ (done : List Nat) {heap' : NodeHeap K} {fuel : Nat}, nodes = done ++ rest →
      heap'.node = heap.node → rest.length < fuel →
      ∃ heap'', resetLoop fuel (rest.head?.getD 0) heap' = some heap'' ∧
        heap''.node = heap.node ∧ ∀ a ∈ heap'.allocated, a ∉ rest → a ∈ heap''.allocated := by
  induction rest with
  | nil =>
    intro done heap' fuel _ hnode hfuel
    obtain ⟨fuel, rfl⟩ : ∃ n, fuel = n + 1 := ⟨fuel - 1, by simp at hfuel; omega⟩
    exact ⟨heap', rfl, hnode, fun a ha _ => ha⟩
  | cons a rest ih =>
    intro done heap' fuel hnodes hnode hfuel
    obtain ⟨fuel, rfl⟩ : ∃ n, fuel = n + 1 := ⟨fuel - 1, by simp at hfuel; omega⟩
    have hne : a ≠ 0 := h.ne_zero (by simp [hnodes])
    have hnext : (heap'.node a).next = rest.head?.getD 0 := by
      rw [hnode]
      exact (hnodes ▸ h).next_eq
    obtain ⟨heap'', hreset, hnode', hkept⟩ :=
      ih (done ++ [a]) (by simp [hnodes]) (show (heap'.free a).node = heap.node from hnode)
        (by simpa using hfuel)
    refine ⟨heap'', ?_, hnode', ?_⟩
    · rw [LinkedHashSet.resetLoop]
      show (if a ≠ 0 then LinkedHashSet.resetLoop fuel (heap'.node a).next (heap'.free a)
        else some heap') = _
      rw [if_pos hne, hnext]
      exact hreset
    · intro b hb hn
      have hba : b ≠ a := fun heq => hn (by simp [heq])
      apply hkept b _ fun hmem => hn (List.mem_cons_of_mem a hmem)
      unfold NodeHeap.free
      simpa [hba] using hb

theorem Owned.reset (h : Owned ops set heap nodes) :
    ∃ set' heap', set.reset heap = some (set', heap') ∧ Owned ops set' heap' [] ∧
      Frame heap heap' nodes [] := by
  have hlength := h.length_le
  obtain ⟨heap', hreset, hnode, hkept⟩ :=
    h.resetLoop [] rfl rfl (show _ < heap.allocated.length + 1 by omega)
  refine ⟨⟨set.table.reset, 0, 0⟩, heap', ?_, ⟨ring_nil.mpr ⟨rfl, rfl⟩, by simp,
    h.stored.reset, h.factor⟩, ⟨fun a _ _ => by rw [hnode], hkept, by simp⟩⟩
  unfold LinkedHashSet.reset
  rw [h.list_eq, hreset]
  rfl

theorem Owned.frame (h : Owned ops set heap nodes) {other other' : List Nat}
    (hframe : Frame heap heap' other other') (hdisjoint : ∀ a ∈ nodes, a ∉ other) :
    Owned ops set heap' nodes ∧ keys heap' nodes = keys heap nodes ∧
      ∀ a ∈ nodes, a ∉ other' := by
  obtain ⟨howned, hkeys⟩ := h.congr
    (fun a ha => hframe.node a (h.allocated a ha) (hdisjoint a ha))
    (fun a ha => hframe.kept a (h.allocated a ha) (hdisjoint a ha))
  refine ⟨howned, hkeys, ?_⟩
  intro a ha hmem
  cases hframe.fresh a hmem with
  | inl hother => exact hdisjoint a ha hother
  | inr hnew => exact hnew (h.allocated a ha)

theorem Owned.not_any {pre post : List Nat} {a : Nat} (h : Owned ops set heap (pre ++ a :: post)) :
    (keys heap pre).any (sameKey ops · (heap.node a).key) = false := by
  have hdistinct := h.stored.distinct
  unfold entries at hdistinct
  rw [List.map_append, List.map_cons] at hdistinct
  obtain ⟨_, _, hcross⟩ := List.pairwise_append.mp hdistinct
  apply List.any_eq_false.mpr
  intro k hk
  obtain ⟨b, hb, rfl⟩ := List.mem_map.mp hk
  have hne := hcross _ (List.mem_map_of_mem hb) _ List.mem_cons_self
  simpa using hne

theorem copyLoop_succ {fuel a : Nat} {it : HSIterator} {copy copy₁ : LinkedHashSet K}
    {heap₁ : NodeHeap K} {flag : Bool} (hcurr : it.curr = a) (ha : a ≠ 0)
    (hadd : copy.add ops _malloc heap (heap.node a).key = some (copy₁, heap₁, flag)) :
    copyLoop ops _malloc (fuel + 1) it copy heap =
      copyLoop ops _malloc fuel (it.next heap).2 copy₁ heap₁ := by
  subst hcurr
  have hgo : it.hasNext = true := by simpa [HSIterator.hasNext] using ha
  rw [copyLoop, if_pos hgo]
  show (copy.add ops _malloc heap (heap.node it.curr).key).bind _ = _
  rw [hadd]
  rfl

theorem Owned.copyLoop (hops : ops.Lawful) (hmalloc : _malloc.Fresh) {rest : List Nat} :
    ∀ (done : List Nat) {copied : List Nat} {copy : LinkedHashSet K} {heap : NodeHeap K}
      {it : HSIterator} {fuel : Nat}, Owned ops set heap (done ++ rest) →
        Owned ops copy heap copied →
      (∀ a ∈ done ++ rest, a ∉ copied) → keys heap copied = keys heap done →
      it.curr = rest.head?.getD 0 → rest.length < fuel →
      ∃ copy' heap' copied', copyLoop ops _malloc fuel it copy heap = some (copy', heap') ∧
        Owned ops copy' heap' copied' ∧ keys heap' copied' = keys heap (done ++ rest) ∧
        Frame heap heap' copied copied' := by
  induction rest with
  | nil =>
    intro done copied copy heap it fuel _ hcopy _ hkeys hcurr hfuel
    obtain ⟨fuel, rfl⟩ : ∃ n, fuel = n + 1 := ⟨fuel - 1, by simp at hfuel; omega⟩
    have hstop : it.hasNext = false := by simpa [HSIterator.hasNext] using hcurr
    refine ⟨copy, heap, copied, ?_, hcopy, by rw [hkeys, List.append_nil], Frame.refl heap copied⟩
    rw [LinkedHashSet.copyLoop, hstop]
    rfl
  | cons a rest ih =>
    intro done copied copy heap it fuel h hcopy hdisjoint hkeys hcurr hfuel
    obtain ⟨fuel, rfl⟩ : ∃ n, fuel = n + 1 := ⟨fuel - 1, by simp at hfuel; omega⟩
    have hcurr : it.curr = a := hcurr
    have hnext : (it.next heap).2.curr = rest.head?.getD 0 := by
      show (heap.node it.curr).next = _
      rw [hcurr]
      exact h.next_eq
    obtain ⟨copy₁, heap₁, copied₁, hadd, hcopy₁, hkeys₁, hframe⟩ :=
      hcopy.add hops hmalloc (heap.node a).key
    have happend : keys heap₁ copied₁ = keys heap (done ++ [a]) := by
      rw [hkeys₁, hkeys]
      unfold addKey
      rw [h.not_any]
      simp [keys]
    obtain ⟨h₁, hsame, hdisjoint₁⟩ := h.frame hframe hdisjoint
    have hsame' : ∀ x ∈ done ++ a :: rest, (heap₁.node x).key = (heap.node x).key := by
      intro x hx
      rw [hframe.node x (h.allocated x hx) (hdisjoint x hx)]
    obtain ⟨copy', heap', copied', hloop, hcopy', hkeys', hframe'⟩ :=
      ih (done ++ [a]) (by simpa using h₁) hcopy₁
        (by simpa using hdisjoint₁)
        (happend.trans (keys_congr fun x hx => hsame' x (by
          rw [List.mem_append, List.mem_singleton] at hx
          rw [List.mem_append, List.mem_cons]
          exact hx.imp_right Or.inl)).symm) hnext (by simpa using hfuel)
    refine ⟨copy', heap', copied', ?_, hcopy', ?_, hframe.trans hframe'⟩
    · rw [copyLoop_succ hcurr (h.ne_zero (by simp)) hadd, hloop]
    · rw [hkeys', List.append_assoc, List.singleton_append, hsame]

theorem Owned.copy (hops : ops.Lawful) (hmalloc : _malloc.Fresh) (h : Owned ops set heap nodes) :
    ∃ copy heap' copied, set.copy ops _malloc heap = some (copy, heap') ∧
      Owned ops copy heap' copied ∧ keys heap' copied = keys heap nodes ∧
      Frame heap heap' [] copied := by
  obtain ⟨n, hn⟩ := h.stored.placed.power
  have hlength := h.length_le
  unfold LinkedHashSet.copy getCapacity getLoadFactor
  rw [hn]
  exact h.copyLoop hops hmalloc [] (Owned.new h.factor) (by simp) rfl h.list_eq
    (show _ < heap.allocated.length + 1 by omega)

/-! ## Calls on several sets -/

inductive SetCall (K : Type)
  | add (key : K)
  | remove (key : K)
  | contains (key : K)
  | get (key : K)
  | getSize
  | isEmpty
  | reset
  | iterate (choose : K → Bool)

inductive SetReply (K : Type)
  | done
  | flag (b : Bool)
  | key (k : K)
  | size (n : Nat)
  | keys (ks : List K)

def call (ops : KeyOps K) (_malloc : Malloc) (set : LinkedHashSet K) (heap : NodeHeap K) :
    SetCall K → Option (LinkedHashSet K × NodeHeap K × SetReply K)
  | .add key => (set.add ops _malloc heap key).map fun r => (r.1, r.2.1, .flag r.2.2)
  | .remove key => (set.remove ops heap key).map fun r => (r.1, r.2.1, .flag r.2.2)
  | .contains key => (set.contains ops key).map fun b => (set, heap, .flag b)
  | .get key => (set.get ops heap key).map fun k => (set, heap, .key k)
  | .getSize => some (set, heap, .size set.getSize)
  | .isEmpty => some (set, heap, .flag set.isEmpty)
  | .reset => (set.reset heap).map fun r => (r.1, r.2, .done)
  | .iterate choose =>
      (iterate ops choose (heap.allocated.length + 1) set.iterator set heap).map
        fun r => (r.2.1, r.2.2, .keys r.1)

def keyCall (ops : KeyOps K) (ks : List K) : SetCall K → List K × SetReply K
  | .add key => (addKey ops ks key, .flag (!ks.any (sameKey ops · key)))
  | .remove key => (removeKey ops ks key, .flag (ks.any (sameKey ops · key)))
  | .contains key => (ks, .flag (ks.any (sameKey ops · key)))
  | .get key => (ks, .key ((ks.find? (sameKey ops · key)).getD 0))
  | .getSize => (ks, .size ks.length)
  | .isEmpty => (ks, .flag ks.isEmpty)
  | .reset => ([], .done)
  | .iterate choose => (ks.filter (!choose ·), .keys ks)

theorem Owned.call (hops : ops.Lawful) (hmalloc : _malloc.Fresh) (h : Owned ops set heap nodes)
    (c : SetCall K) :
    ∃ set' heap' nodes', set.call ops _malloc heap c =
        some (set', heap', (keyCall ops (keys heap nodes) c).2) ∧
      Owned ops set' heap' nodes' ∧ keys heap' nodes' = (keyCall ops (keys heap nodes) c).1 ∧
      Frame heap heap' nodes nodes' := by
  cases c with
  | add key =>
    obtain ⟨set', heap', nodes', hadd, hrest⟩ := h.add hops hmalloc key
    refine ⟨set', heap', nodes', ?_, hrest⟩
    show (set.add ops _malloc heap key).map _ = _
    rw [hadd]
    rfl
  | remove key =>
    obtain ⟨set', heap', nodes', hremove, hrest⟩ := h.remove hops key
    refine ⟨set', heap', nodes', ?_, hrest⟩
    show (set.remove ops heap key).map _ = _
    rw [hremove]
    rfl
  | contains key =>
    refine ⟨set, heap, nodes, ?_, h, rfl, Frame.refl heap nodes⟩
    show (set.contains ops key).map _ = _
    rw [h.contains hops key]
    rfl
  | get key =>
    refine ⟨set, heap, nodes, ?_, h, rfl, Frame.refl heap nodes⟩
    show (set.get ops heap key).map _ = _
    rw [h.get hops key]
    rfl
  | getSize =>
    refine ⟨set, heap, nodes, ?_, h, rfl, Frame.refl heap nodes⟩
    show some (set, heap, SetReply.size set.getSize) = _
    rw [h.getSize]
    rfl
  | isEmpty =>
    refine ⟨set, heap, nodes, ?_, h, rfl, Frame.refl heap nodes⟩
    show some (set, heap, SetReply.flag (decide (set.getSize = 0))) = _
    rw [h.getSize]
    cases keys heap nodes <;> simp [keyCall]
  | reset =>
    obtain ⟨set', heap', hreset, howned, hframe⟩ := h.reset
    refine ⟨set', heap', [], ?_, howned, rfl, hframe⟩
    show (set.reset heap).map _ = _
    rw [hreset]
    rfl
  | iterate choose =>
    have hlength := h.length_le
    obtain ⟨set', heap', nodes', hiterate, howned, hkeys, hframe⟩ :=
      Owned.iterate hops choose [] h (show set.iterator.curr = _ from h.list_eq)
        (show _ < heap.allocated.length + 1 by omega)
    refine ⟨set', heap', nodes', ?_, howned, hkeys, hframe⟩
    show (LinkedHashSet.iterate ops choose _ set.iterator set heap).map _ = _
    rw [hiterate]
    rfl

/-! ## Runs -/

structure Sets (K : Type) where
  sets : List (LinkedHashSet K)
  heap : NodeHeap K

inductive SetsCall (K : Type)
  | new (exponent : Nat) (factor : ℚ)
  | copy (i : Nat)
  | on (i : Nat) (c : SetCall K)

def SetsCall.Sparse : SetsCall K → Prop
  | .new _ factor => factor < 1
  | _ => True

def setsCall (ops : KeyOps K) (_malloc : Malloc) (s : Sets K) :
    SetsCall K → Option (Sets K × SetReply K)
  | .new exponent factor => some (⟨s.sets ++ [new (2 ^ exponent) factor], s.heap⟩, .done)
  | .copy i => do
      let set ← s.sets[i]?
      let (copy, heap) ← set.copy ops _malloc s.heap
      some (⟨s.sets ++ [copy], heap⟩, .done)
  | .on i c => do
      let set ← s.sets[i]?
      let (set, heap, reply) ← set.call ops _malloc s.heap c
      some (⟨s.sets.set i set, heap⟩, reply)

def setsCalls (ops : KeyOps K) (_malloc : Malloc) (s : Sets K) :
    List (SetsCall K) → Option (Sets K × List (SetReply K))
  | [] => some (s, [])
  | c :: cs => do
      let (s, reply) ← setsCall ops _malloc s c
      let (s, replies) ← setsCalls ops _malloc s cs
      some (s, reply :: replies)

/-- A call on the lists of the keys; `none` when there is no such set. -/
def keysCall (ops : KeyOps K) (lists : List (List K)) :
    SetsCall K → Option (List (List K) × SetReply K)
  | .new _ _ => some (lists ++ [[]], .done)
  | .copy i => do
      let ks ← lists[i]?
      some (lists ++ [ks], .done)
  | .on i c => do
      let ks ← lists[i]?
      some (lists.set i (keyCall ops ks c).1, (keyCall ops ks c).2)

def keysCalls (ops : KeyOps K) (lists : List (List K)) :
    List (SetsCall K) → Option (List (List K) × List (SetReply K))
  | [] => some (lists, [])
  | c :: cs => do
      let (lists, reply) ← keysCall ops lists c
      let (lists, replies) ← keysCalls ops lists cs
      some (lists, reply :: replies)

/-- Each set has nodes of its own that hold its list. -/
structure Consistent (ops : KeyOps K) (s : Sets K) (lists : List (List K))
    (nodes : Nat → List Nat) : Prop where
  owned : ∀ i set, s.sets[i]? = some set → Owned ops set s.heap (nodes i)
  keys : ∀ i, lists[i]? = s.sets[i]?.map fun _ => keys s.heap (nodes i)
  disjoint : ∀ i j set set', s.sets[i]? = some set → s.sets[j]? = some set' → i ≠ j →
    ∀ a ∈ nodes i, a ∉ nodes j

variable {s : Sets K} {lists lists' : List (List K)} {owners : Nat → List Nat}

theorem Consistent.length (h : Consistent ops s lists owners) :
    lists.length = s.sets.length := by
  apply Nat.le_antisymm
  · rw [← List.getElem?_eq_none_iff, h.keys]
    simp
  · have hnone := h.keys lists.length
    rw [List.getElem?_eq_none le_rfl] at hnone
    exact List.getElem?_eq_none_iff.mp (Option.map_eq_none_iff.mp hnone.symm)

theorem Consistent.update (h : Consistent ops s lists owners) {k : Nat}
    {sets' : List (LinkedHashSet K)} {set' : LinkedHashSet K} {old new : List Nat}
    (hsets : ∀ i ≠ k, sets'[i]? = s.sets[i]?) (hset : sets'[k]? = some set')
    (hlists : ∀ i ≠ k, lists'[i]? = lists[i]?)
    (hlist : lists'[k]? = some (LinkedHashSet.keys heap' new))
    (howned : Owned ops set' heap' new) (hframe : Frame s.heap heap' old new)
    (hold : ∀ i ≠ k, ∀ set, s.sets[i]? = some set → ∀ a ∈ owners i, a ∉ old) :
    Consistent ops ⟨sets', heap'⟩ lists' (Function.update owners k new) := by
  have hother : ∀ i ≠ k, ∀ set, s.sets[i]? = some set → Owned ops set heap' (owners i) ∧
      LinkedHashSet.keys heap' (owners i) = LinkedHashSet.keys s.heap (owners i) ∧
        ∀ a ∈ owners i, a ∉ new :=
    fun i hi set hset => (h.owned i set hset).frame hframe (hold i hi set hset)
  refine ⟨?_, ?_, ?_⟩
  · intro i set hi
    by_cases hik : i = k
    · subst hik
      rw [Function.update_self, ← Option.some_inj.mp (hset.symm.trans hi)]
      exact howned
    · rw [Function.update_of_ne hik]
      exact (hother i hik set ((hsets i hik).symm.trans hi)).1
  · intro i
    by_cases hik : i = k
    · subst hik
      rw [Function.update_self, hlist, hset]
      rfl
    · rw [Function.update_of_ne hik, hlists i hik, h.keys i, hsets i hik]
      cases hi : s.sets[i]? with
      | none => rfl
      | some set => exact congrArg some (hother i hik set hi).2.1.symm
  · intro i j set₁ set₂ hi hj hij
    by_cases hik : i = k
    · have hjk : j ≠ k := fun heq => hij (hik.trans heq.symm)
      rw [hik, Function.update_self, Function.update_of_ne hjk]
      intro a ha hmem
      exact (hother j hjk set₂ ((hsets j hjk).symm.trans hj)).2.2 a hmem ha
    · rw [Function.update_of_ne hik]
      by_cases hjk : j = k
      · rw [hjk, Function.update_self]
        exact (hother i hik set₁ ((hsets i hik).symm.trans hi)).2.2
      · rw [Function.update_of_ne hjk]
        exact h.disjoint i j set₁ set₂ ((hsets i hik).symm.trans hi)
          ((hsets j hjk).symm.trans hj) hij

theorem Consistent.push (h : Consistent ops s lists owners) {set' : LinkedHashSet K}
    {new : List Nat} (howned : Owned ops set' heap' new) (hframe : Frame s.heap heap' [] new) :
    Consistent ops ⟨s.sets ++ [set'], heap'⟩ (lists ++ [LinkedHashSet.keys heap' new])
      (Function.update owners s.sets.length new) := by
  apply h.update _ (by simp) _ (by simp [← h.length]) howned hframe (by simp)
  · intro i hi
    rw [List.getElem?_append]
    split_ifs with hlt
    · rfl
    · rw [List.getElem?_eq_none (by simp; omega), List.getElem?_eq_none (by omega)]
  · intro i hi
    rw [List.getElem?_append]
    have := h.length
    split_ifs with hlt
    · rfl
    · rw [List.getElem?_eq_none (by simp; omega), List.getElem?_eq_none (by omega)]

theorem Consistent.call (hops : ops.Lawful) (hmalloc : _malloc.Fresh)
    (h : Consistent ops s lists owners) {c : SetsCall K} (hc : c.Sparse) {reply : SetReply K}
    (hkeys : keysCall ops lists c = some (lists', reply)) :
    ∃ s' owners', setsCall ops _malloc s c = some (s', reply) ∧
      Consistent ops s' lists' owners' := by
  cases c with
  | new exponent factor =>
    obtain ⟨rfl, rfl⟩ := Prod.mk.inj (Option.some_inj.mp hkeys)
    exact ⟨_, _, rfl, h.push (Owned.new hc) (Frame.refl s.heap [])⟩
  | copy i =>
    obtain ⟨ks, hks, hrest⟩ := Option.bind_eq_some_iff.mp hkeys
    obtain ⟨rfl, rfl⟩ := Prod.mk.inj (Option.some_inj.mp hrest)
    rw [h.keys] at hks
    obtain ⟨set, hset, rfl⟩ := Option.map_eq_some_iff.mp hks
    obtain ⟨copy, heap', copied, hcopy, howned, hcopied, hframe⟩ :=
      (h.owned i set hset).copy hops hmalloc
    refine ⟨_, _, ?_, hcopied ▸ h.push howned hframe⟩
    show (do let set ← s.sets[i]?; _) = _
    rw [hset]
    show (do let (copy, heap) ← set.copy ops _malloc s.heap; _) = _
    rw [hcopy]
    rfl
  | on i c =>
    obtain ⟨ks, hks, hrest⟩ := Option.bind_eq_some_iff.mp hkeys
    obtain ⟨rfl, rfl⟩ := Prod.mk.inj (Option.some_inj.mp hrest)
    have hlt : i < lists.length := (List.getElem?_eq_some_iff.mp hks).1
    have hlength := h.length
    rw [h.keys] at hks
    obtain ⟨set, hset, rfl⟩ := Option.map_eq_some_iff.mp hks
    obtain ⟨set', heap', nodes', hcall, howned, hkeys', hframe⟩ :=
      (h.owned i set hset).call hops hmalloc c
    refine ⟨⟨s.sets.set i set', heap'⟩, Function.update owners i nodes', ?_, ?_⟩
    · show (do let set ← s.sets[i]?; _) = _
      rw [hset]
      show (do let (set, heap, reply) ← set.call ops _malloc s.heap c; _) = _
      rw [hcall]
      rfl
    · apply h.update _ _ _ _ howned hframe
      · intro j hj set₁ hset₁
        exact h.disjoint j i set₁ set hset₁ hset hj
      · intro j hj
        exact List.getElem?_set_ne (Ne.symm hj)
      · exact List.getElem?_set_self (by omega)
      · intro j hj
        exact List.getElem?_set_ne (Ne.symm hj)
      · rw [List.getElem?_set_self hlt, hkeys']

theorem Consistent.calls (hops : ops.Lawful) (hmalloc : _malloc.Fresh) {cs : List (SetsCall K)} :
    ∀ {s : Sets K} {lists : List (List K)} {owners : Nat → List Nat} {replies : List (SetReply K)},
      Consistent ops s lists owners → (∀ c ∈ cs, c.Sparse) →
      keysCalls ops lists cs = some (lists', replies) →
      ∃ s' owners', setsCalls ops _malloc s cs = some (s', replies) ∧
        Consistent ops s' lists' owners' := by
  induction cs with
  | nil =>
    intro s lists owners replies h _ hkeys
    obtain ⟨rfl, rfl⟩ := Prod.mk.inj (Option.some_inj.mp hkeys)
    exact ⟨s, owners, rfl, h⟩
  | cons c cs ih =>
    intro s lists owners replies h hcs hkeys
    obtain ⟨⟨lists₁, reply⟩, hcall, hrest⟩ := Option.bind_eq_some_iff.mp hkeys
    obtain ⟨⟨lists₂, replies₂⟩, hcalls, heq⟩ := Option.bind_eq_some_iff.mp hrest
    obtain ⟨rfl, rfl⟩ := Prod.mk.inj (Option.some_inj.mp heq)
    obtain ⟨s₁, owners₁, hstep, h₁⟩ := h.call hops hmalloc (hcs c List.mem_cons_self) hcall
    obtain ⟨s₂, owners₂, hsteps, h₂⟩ :=
      ih h₁ (fun c hc => hcs c (List.mem_cons_of_mem _ hc)) hcalls
    refine ⟨s₂, owners₂, ?_, h₂⟩
    show (do let (s, reply) ← setsCall ops _malloc s c; _) = _
    rw [hstep]
    show (do let (s, replies) ← setsCalls ops _malloc s₁ cs; _) = _
    rw [hsteps]
    rfl

/-- The nodes of the set are linked both ways between its head and its tail and hold the
list, no key of it twice, and the table answers for the list. -/
structure HoldsList (ops : KeyOps K) (set : LinkedHashSet K) (heap : NodeHeap K) (nodes : List Nat)
    (ks : List K) : Prop where
  keys : keys heap nodes = ks
  links : Ring (set.nextOf heap) (set.prevOf heap) 0 nodes
  once : ks.Pairwise fun a b => sameKey ops a b = false
  contains : ∀ key, set.contains ops key = some (ks.any (sameKey ops · key))
  size : set.getSize = ks.length
  isEmpty : set.isEmpty = ks.isEmpty

theorem Owned.holdsList (hops : ops.Lawful) (h : Owned ops set heap nodes) :
    HoldsList ops set heap nodes (LinkedHashSet.keys heap nodes) where
  keys := rfl
  links := h.ring
  once := by
    rw [← map_fst_entries]
    exact List.pairwise_map.mpr h.stored.distinct
  contains := h.contains hops
  size := h.getSize
  isEmpty := by
    unfold LinkedHashSet.isEmpty
    rw [h.getSize]
    cases LinkedHashSet.keys heap nodes <;> simp

/-- The replies are those of the lists, and the sets hold the lists. -/
theorem setsCalls_holdsList (hops : ops.Lawful) (hmalloc : _malloc.Fresh) (heap : NodeHeap K)
    (cs : List (SetsCall K)) (hcs : ∀ c ∈ cs, c.Sparse) {lists : List (List K)}
    {replies : List (SetReply K)} (hkeys : keysCalls ops [] cs = some (lists, replies)) :
    ∃ s, setsCalls ops _malloc ⟨[], heap⟩ cs = some (s, replies) ∧
      ∀ (i : Nat) ks, lists[i]? = some ks → ∃ set nodes, s.sets[i]? = some set ∧
        HoldsList ops set s.heap nodes ks := by
  have hstart : Consistent ops ⟨[], heap⟩ [] fun _ => [] := by
    refine ⟨?_, ?_, ?_⟩ <;> simp
  obtain ⟨s, owners, hcalls, h⟩ := hstart.calls hops hmalloc hcs hkeys
  refine ⟨s, hcalls, ?_⟩
  intro i ks hks
  rw [h.keys] at hks
  obtain ⟨set, hset, rfl⟩ := Option.map_eq_some_iff.mp hks
  exact ⟨set, owners i, hset, (h.owned i set hset).holdsList hops⟩

/-- A `_malloc` behind all allocated addresses. -/
def bump : Malloc := fun allocated _ => allocated.foldr max 0 + 1

private theorem bump_fresh : bump.Fresh := by
  intro allocated n
  refine ⟨by simp [bump], ?_⟩
  have hle : ∀ a ∈ allocated, a ≤ allocated.foldr max 0 := by
    intro a ha
    induction allocated with
    | nil => simp at ha
    | cons b l ih =>
      rw [List.foldr_cons]
      cases List.mem_cons.mp ha with
      | inl h => exact h ▸ le_max_left _ _
      | inr h => exact (ih h).trans (le_max_right _ _)
  intro hmem
  have := hle _ hmem
  unfold bump at this
  omega

theorem setsCalls_holdsList_copy :
    ∃ s : Sets UInt64, setsCalls defaultOps bump ⟨[], ⟨fun _ => ⟨0, 0, 0⟩, [], 0⟩⟩
        [.new 1 (1 / 2), .on 0 (.add 5), .on 0 (.add 7), .on 0 (.add 9), .on 0 (.remove 5),
          .copy 0, .on 1 (.iterate fun k => k = 7)] =
        some (s, [.done, .flag true, .flag true, .flag true, .flag true, .done, .keys [7, 9]]) ∧
      ∀ (i : Nat) ks, [[7, 9], [9]][i]? = some ks → ∃ set nodes, s.sets[i]? = some set ∧
        HoldsList defaultOps set s.heap nodes ks :=
  setsCalls_holdsList defaultOps_lawful bump_fresh _ _
    (by simp [SetsCall.Sparse]; norm_num) rfl

end SatCheck.LinkedHashSet
