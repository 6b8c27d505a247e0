import Mathlib.Algebra.Order.Floor.Semiring
import Mathlib.Data.Rat.Floor
import Mathlib.Data.Nat.Bitwise
import Mathlib.Logic.Function.Basic
/-!
# The hash table

`HashTable` of `hashtable.h`: open addressing with linear probing, where a removed key
leaves a bin with a null key and a non-null value, and a node of its own for the null key.
An operation is `none` when its probe loop never ends.  Allocation has no counterpart.
Capacities, sizes and hashes are `unsigned int`s in the source and `Nat`s here.  A hash
and its successors are only used below a capacity that is a power of two, which divides
2^32, and `resize` doubles no capacity of 2^31, for which there is no memory.
-/

namespace SatCheck

/-- `hashlistnode`. -/
structure HashNode (K V : Type) where
  key : K
  val : V
  deriving DecidableEq, Repr

/-- The template arguments `hash_function` and `equals`. -/
structure KeyOps (K : Type) where
  hash_function : K → Nat
  equals : K → K → Bool

structure HashTable (K V : Type) where
  table : Nat → HashNode K V
  zero : Option (HashNode K V)
  capacity : Nat
  size : Nat
  loadfactor : ℚ

namespace HashTable

section Operations

variable {K V : Type} [Zero K] [DecidableEq K] [Zero V] [One V] [DecidableEq V]
variable (ops : KeyOps K)

def new (initialcapacity : Nat) (factor : ℚ) : HashTable K V where
  table := fun _ => ⟨0, 0⟩
  zero := none
  capacity := initialcapacity
  size := 0
  loadfactor := factor

def reset (t : HashTable K V) : HashTable K V :=
  { t with table := fun _ => ⟨0, 0⟩, zero := none, size := 0 }

def capacitymask (t : HashTable K V) : Nat := t.capacity - 1

def threshold (t : HashTable K V) : Nat := ⌊(t.capacity : ℚ) * t.loadfactor⌋₊

/-- The probe loop for at most `fuel` bins: the first bin from `index` on where it stops. -/
def probe (t : HashTable K V) (stop : HashNode K V → Bool) : Nat → Nat → Option Nat
  | 0, _ => none
  | fuel + 1, index =>
      let index := index &&& t.capacitymask
      if stop (t.table index) then some index else probe t stop fuel (index + 1)

/-- The body of the loop of `resize`. -/
def insertBin (t : HashTable K V) (bin : HashNode K V) : Option (HashTable K V) :=
  if bin.key = 0 then some t
  else do
    let index ← t.probe (fun search => search.key = 0) t.capacity (ops.hash_function bin.key)
    some { t with table := Function.update t.table index bin }

def resize (t : HashTable K V) (newsize : Nat) : Option (HashTable K V) :=
  (List.range t.capacity).foldlM (fun s bin => s.insertBin ops (t.table bin))
    { t with table := fun _ => ⟨0, 0⟩, capacity := newsize }

/-- `put` behind its test for a resize. -/
def putBin (t : HashTable K V) (key : K) (val : V) : Option (HashTable K V) := do
  let index ← t.probe (fun search => search.key = 0 || ops.equals search.key key) t.capacity
    (ops.hash_function key)
  if (t.table index).key = 0 then
    some { t with table := Function.update t.table index ⟨key, val⟩, size := t.size + 1 }
  else
    some { t with table := Function.update t.table index { t.table index with val := val } }

/-- The table that `put` searches for a key. -/
def grow (t : HashTable K V) : Option (HashTable K V) :=
  if t.size > t.threshold then t.resize ops (t.capacity <<< 1) else some t

def put (t : HashTable K V) (key : K) (val : V) : Option (HashTable K V) :=
  if key = 0 then
    some { t with
      zero := some ⟨key, val⟩
      size := if t.zero.isNone then t.size + 1 else t.size }
  else do
    let t ← t.grow ops
    t.putBin ops key val

/-- The loop of `get`, which ends where it comes back to `oindex`. -/
def getLoop (t : HashTable K V) (key : K) (oindex : Nat) : Nat → Nat → Option V
  | 0, _ => none
  | fuel + 1, index =>
      let search := t.table index
      let next := (index + 1) &&& t.capacitymask
      if search.key = 0 ∧ search.val = 0 then some 0
      else if search.key ≠ 0 ∧ ops.equals search.key key then some search.val
      else if next = oindex then some 0
      else getLoop t key oindex fuel next

def get (t : HashTable K V) (key : K) : Option V :=
  if key = 0 then some ((t.zero.map HashNode.val).getD 0)
  else
    let oindex := ops.hash_function key &&& t.capacitymask
    t.getLoop ops key oindex t.capacity oindex

/-- Where the loops of `remove` and `contains` stop. -/
def found (key : K) (search : HashNode K V) : Bool :=
  if search.key = 0 then search.val = 0 else ops.equals search.key key

def remove (t : HashTable K V) (key : K) : Option (HashTable K V × V) :=
  if key = 0 then
    match t.zero with
    | none => some (t, 0)
    | some zero => some ({ t with zero := none, size := t.size - 1 }, zero.val)
  else do
    let index ← t.probe (found ops key) t.capacity (ops.hash_function key)
    let search := t.table index
    if search.key = 0 then some (t, 0)
    else some ({ t with table := Function.update t.table index ⟨0, 1⟩, size := t.size - 1 },
      search.val)

def contains (t : HashTable K V) (key : K) : Option Bool :=
  if key = 0 then some t.zero.isSome
  else do
    let index ← t.probe (found ops key) t.capacity (ops.hash_function key)
    some ((t.table index).key ≠ 0)

def getSize (t : HashTable K V) : Nat := t.size

def getLoadFactor (t : HashTable K V) : ℚ := t.loadfactor

def getCapacity (t : HashTable K V) : Nat := t.capacity

end Operations

/-! ## Probing -/

variable {K V : Type} {t : HashTable K V} {stop : HashNode K V → Bool}

/-- The bin of the probe loop after `j` steps. -/
def bin (t : HashTable K V) (hash j : Nat) : Nat := (hash + j) % t.capacity

def PowerCapacity (t : HashTable K V) : Prop := ∃ n, t.capacity = 2 ^ n

theorem PowerCapacity.pos (h : t.PowerCapacity) : 0 < t.capacity := by
  obtain ⟨n, hn⟩ := h
  rw [hn]
  exact Nat.two_pow_pos n

theorem PowerCapacity.and_mask (h : t.PowerCapacity) (index : Nat) :
    index &&& t.capacitymask = index % t.capacity := by
  obtain ⟨n, hn⟩ := h
  rw [capacitymask, hn, Nat.and_two_pow_sub_one_eq_mod]

theorem bin_lt (h : 0 < t.capacity) (hash j : Nat) : t.bin hash j < t.capacity :=
  Nat.mod_lt _ h

theorem bin_succ (hash j : Nat) : t.bin (hash % t.capacity + 1) j = t.bin hash (j + 1) := by
  unfold bin
  rw [Nat.add_assoc, Nat.mod_add_mod]
  congr 1
  omega

theorem exists_bin_eq (hash : Nat) {index : Nat} (h : index < t.capacity) :
    ∃ j < t.capacity, t.bin hash j = index := by
  have hpos : 0 < t.capacity := by omega
  have hlt := Nat.mod_lt hash hpos
  refine ⟨(index + (t.capacity - hash % t.capacity)) % t.capacity, Nat.mod_lt _ hpos, ?_⟩
  unfold bin
  rw [Nat.add_mod_mod, ← Nat.mod_add_mod]
  have hsum : hash % t.capacity + (index + (t.capacity - hash % t.capacity)) =
      index + t.capacity := by omega
  rw [hsum, Nat.add_mod_right, Nat.mod_eq_of_lt h]

theorem probe_eq_some (hcap : t.PowerCapacity) {fuel hash index : Nat} :
    t.probe stop fuel hash = some index ↔
      ∃ j < fuel, t.bin hash j = index ∧ stop (t.table index) = true ∧
        ∀ i < j, stop (t.table (t.bin hash i)) = false := by
  induction fuel generalizing hash with
  | zero => simp [probe]
  | succ fuel ih =>
    have hfirst : t.bin hash 0 = hash % t.capacity := rfl
    unfold probe
    simp only [hcap.and_mask]
    split_ifs with hstop
    · constructor
      · intro h
        obtain rfl := Option.some_inj.mp h
        exact ⟨0, by omega, hfirst, hstop, by simp⟩
      · rintro ⟨j, _, rfl, _, hbefore⟩
        cases j with
        | zero => rw [hfirst]
        | succ j =>
          have := hbefore 0 (by omega)
          rw [hfirst, hstop] at this
          exact absurd this (by simp)
    · rw [ih]
      constructor
      · rintro ⟨j, hj, hbin, hstop', hbefore⟩
        refine ⟨j + 1, by omega, by rw [← bin_succ]; exact hbin, hstop', ?_⟩
        intro i hi
        cases i with
        | zero => simpa [hfirst] using hstop
        | succ i => rw [← bin_succ]; exact hbefore i (by omega)
      · rintro ⟨j, hj, hbin, hstop', hbefore⟩
        cases j with
        | zero =>
          rw [hfirst] at hbin
          rw [← hbin] at hstop'
          exact absurd hstop' hstop
        | succ j =>
          refine ⟨j, by omega, by rw [bin_succ]; exact hbin, hstop', ?_⟩
          intro i hi
          rw [bin_succ]
          exact hbefore (i + 1) (by omega)

theorem probe_eq_none (hcap : t.PowerCapacity) {fuel hash : Nat} :
    t.probe stop fuel hash = none ↔ ∀ j < fuel, stop (t.table (t.bin hash j)) = false := by
  induction fuel generalizing hash with
  | zero => simp [probe]
  | succ fuel ih =>
    have hfirst : t.bin hash 0 = hash % t.capacity := rfl
    unfold probe
    simp only [hcap.and_mask]
    split_ifs with hstop
    · simp only [false_iff, not_forall]
      exact ⟨0, by omega, by simp [hfirst, hstop]⟩
    · rw [ih]
      constructor
      · intro h j hj
        cases j with
        | zero => simpa [hfirst] using hstop
        | succ j => rw [← bin_succ]; exact h j (by omega)
      · intro h j hj
        rw [bin_succ]
        exact h (j + 1) (by omega)

end HashTable

end SatCheck
