import SatCheck.HashTableMap
import SatCheck.Library.LinkedRing
/-!
# The hash set

`HashSet` of `hashset.h`: a hash table from keys to the nodes of a doubly linked list that
keeps the keys in the order of insertion.  All sets share one memory; an address is a
natural number and null is 0.
-/

namespace SatCheck

structure LinkNode (K : Type) where
  key : K
  prev : Nat
  next : Nat

/-- The memory of the nodes.  `mallocs` counts the calls of `_malloc`. -/
structure NodeHeap (K : Type) where
  node : Nat → LinkNode K
  allocated : List Nat
  mallocs : Nat

/-- `_malloc` by the allocated addresses and the number of the call. -/
abbrev Malloc := List Nat → Nat → Nat

/-- `_malloc` gives an address that is not null and not in use. -/
def Malloc.Fresh (_malloc : Malloc) : Prop :=
  ∀ allocated n, _malloc allocated n ≠ 0 ∧ _malloc allocated n ∉ allocated

namespace NodeHeap

variable {K : Type}

def malloc (_malloc : Malloc) (heap : NodeHeap K) : Nat × NodeHeap K :=
  let newnode := _malloc heap.allocated heap.mallocs
  (newnode, { heap with
    allocated := newnode :: heap.allocated
    mallocs := heap.mallocs + 1 })

def free (heap : NodeHeap K) (a : Nat) : NodeHeap K :=
  { heap with allocated := heap.allocated.filter (· ≠ a) }

def setNode (heap : NodeHeap K) (a : Nat) (node : LinkNode K) : NodeHeap K :=
  { heap with node := Function.update heap.node a node }

def setNext (heap : NodeHeap K) (a next : Nat) : NodeHeap K :=
  heap.setNode a { heap.node a with next := next }

def setPrev (heap : NodeHeap K) (a prev : Nat) : NodeHeap K :=
  heap.setNode a { heap.node a with prev := prev }

variable {heap : NodeHeap K} {a x b : Nat}

@[simp] theorem setNext_next : ((heap.setNext a b).node x).next =
    if x = a then b else (heap.node x).next := by
  unfold setNext setNode
  split_ifs with h <;> simp [h]

@[simp] theorem setNext_prev : ((heap.setNext a b).node x).prev = (heap.node x).prev := by
  by_cases h : x = a <;> simp [setNext, setNode, h]

@[simp] theorem setNext_key : ((heap.setNext a b).node x).key = (heap.node x).key := by
  by_cases h : x = a <;> simp [setNext, setNode, h]

@[simp] theorem setPrev_prev : ((heap.setPrev a b).node x).prev =
    if x = a then b else (heap.node x).prev := by
  unfold setPrev setNode
  split_ifs with h <;> simp [h]

@[simp] theorem setPrev_next : ((heap.setPrev a b).node x).next = (heap.node x).next := by
  by_cases h : x = a <;> simp [setPrev, setNode, h]

@[simp] theorem setPrev_key : ((heap.setPrev a b).node x).key = (heap.node x).key := by
  by_cases h : x = a <;> simp [setPrev, setNode, h]

end NodeHeap

structure LinkedHashSet (K : Type) where
  table : HashTable K Nat
  list : Nat
  tail : Nat

/-- `HSIterator`, without the set it belongs to. -/
structure HSIterator where
  curr : Nat
  last : Nat

namespace LinkedHashSet

variable {K : Type} [Zero K] [DecidableEq K]
variable (ops : KeyOps K) (_malloc : Malloc)

def new (initialcapacity : Nat) (factor : ℚ) : LinkedHashSet K where
  table := HashTable.new initialcapacity factor
  list := 0
  tail := 0

/-- `add` on the list: the new head and the memory; the new tail is `newnode`. -/
def append (set : LinkedHashSet K) (heap : NodeHeap K) (newnode : Nat) (key : K) :
    Nat × NodeHeap K :=
  let heap := heap.setNode newnode ⟨key, set.tail, 0⟩
  if set.tail ≠ 0 then (set.list, heap.setNext set.tail newnode) else (newnode, heap)

def add (set : LinkedHashSet K) (heap : NodeHeap K) (key : K) :
    Option (LinkedHashSet K × NodeHeap K × Bool) := do
  let val ← set.table.get ops key
  if val = 0 then
    let (newnode, heap) := heap.malloc _malloc
    let (list, heap) := set.append heap newnode key
    let table ← set.table.put ops key newnode
    some (⟨table, list, newnode⟩, heap, true)
  else some (set, heap, false)

def get (set : LinkedHashSet K) (heap : NodeHeap K) (key : K) : Option K := do
  let val ← set.table.get ops key
  some (if val ≠ 0 then (heap.node val).key else 0)

def contains (set : LinkedHashSet K) (key : K) : Option Bool := do
  let val ← set.table.get ops key
  some (val ≠ 0)

/-- `oldlinknode->prev->next = oldlinknode->next`, unless `prev` is null. -/
def unlinkNext (heap : NodeHeap K) (oldlinknode : Nat) : NodeHeap K :=
  if (heap.node oldlinknode).prev = 0 then heap
  else heap.setNext (heap.node oldlinknode).prev (heap.node oldlinknode).next

/-- `oldlinknode->next->prev = oldlinknode->prev`, unless `next` is null. -/
def unlinkPrev (heap : NodeHeap K) (oldlinknode : Nat) : NodeHeap K :=
  if (heap.node oldlinknode).next ≠ 0 then
    heap.setPrev (heap.node oldlinknode).next (heap.node oldlinknode).prev
  else heap

def remove (set : LinkedHashSet K) (heap : NodeHeap K) (key : K) :
    Option (LinkedHashSet K × NodeHeap K × Bool) := do
  let oldlinknode ← set.table.get ops key
  if oldlinknode = 0 then some (set, heap, false)
  else
    let (table, _) ← set.table.remove ops key
    let node := heap.node oldlinknode
    let list := if node.prev = 0 then node.next else set.list
    let heap := unlinkNext heap oldlinknode
    let node := heap.node oldlinknode
    let tail := if node.next ≠ 0 then set.tail else node.prev
    let heap := unlinkPrev heap oldlinknode
    some (⟨table, list, tail⟩, heap.free oldlinknode, true)

def getSize (set : LinkedHashSet K) : Nat := set.table.getSize

def isEmpty (set : LinkedHashSet K) : Bool := set.getSize = 0

def iterator (set : LinkedHashSet K) : HSIterator := ⟨set.list, 0⟩

end LinkedHashSet

namespace HSIterator

variable {K : Type} [Zero K] [DecidableEq K]

def hasNext (it : HSIterator) : Bool := it.curr ≠ 0

def next (it : HSIterator) (heap : NodeHeap K) : K × HSIterator :=
  ((heap.node it.curr).key, ⟨(heap.node it.curr).next, it.curr⟩)

def remove (ops : KeyOps K) (it : HSIterator) (set : LinkedHashSet K) (heap : NodeHeap K) :
    Option (LinkedHashSet K × NodeHeap K × Bool) :=
  set.remove ops heap (heap.node it.last).key

end HSIterator

namespace LinkedHashSet

variable {K : Type} [Zero K] [DecidableEq K]
variable (ops : KeyOps K) (_malloc : Malloc)

/-- The loop of `copy` for at most `fuel` keys. -/
def copyLoop : Nat → HSIterator → LinkedHashSet K → NodeHeap K →
    Option (LinkedHashSet K × NodeHeap K)
  | 0, _, _, _ => none
  | fuel + 1, it, copy, heap =>
      if it.hasNext then do
        let (key, it) := it.next heap
        let (copy, heap, _) ← copy.add ops _malloc heap key
        copyLoop fuel it copy heap
      else some (copy, heap)

def copy (set : LinkedHashSet K) (heap : NodeHeap K) : Option (LinkedHashSet K × NodeHeap K) :=
  copyLoop ops _malloc (heap.allocated.length + 1) set.iterator
    (new set.table.getCapacity set.table.getLoadFactor) heap

/-- The loop of `reset` for at most `fuel` nodes. -/
def resetLoop : Nat → Nat → NodeHeap K → Option (NodeHeap K)
  | 0, _, _ => none
  | fuel + 1, tmp, heap =>
      if tmp ≠ 0 then resetLoop fuel (heap.node tmp).next (heap.free tmp)
      else some heap

def reset (set : LinkedHashSet K) (heap : NodeHeap K) : Option (LinkedHashSet K × NodeHeap K) := do
  let heap ← resetLoop (heap.allocated.length + 1) set.list heap
  some (⟨set.table.reset, 0, 0⟩, heap)

def removeChosen (choose : K → Bool) (key : K) (it : HSIterator) (set : LinkedHashSet K)
    (heap : NodeHeap K) : Option (LinkedHashSet K × NodeHeap K) :=
  if choose key then (it.remove ops set heap).map fun r => (r.1, r.2.1) else some (set, heap)

/-- An iteration that removes the keys chosen when it has just returned them. -/
def iterate (choose : K → Bool) : Nat → HSIterator → LinkedHashSet K → NodeHeap K →
    Option (List K × LinkedHashSet K × NodeHeap K)
  | 0, _, _, _ => none
  | fuel + 1, it, set, heap =>
      if it.hasNext then do
        let (key, it) := it.next heap
        let (set, heap) ← removeChosen ops choose key it set heap
        let (keys, set, heap) ← iterate choose fuel it set heap
        some (key :: keys, set, heap)
      else some ([], set, heap)

end LinkedHashSet

end SatCheck
