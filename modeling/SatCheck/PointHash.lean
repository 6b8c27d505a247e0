import Mathlib.Data.List.Induction
import SatCheck.ExecPoint
import Mathlib.Algebra.Group.Nat.Defs
/-!
# The hash of an execution point

The class `ExecPoint` with its array, capacity and cached hash.  The operations keep the hash
up to date; it is the fold of the pair values whatever operations have led to the point.
-/

namespace SatCheck

def rotate_left (val : UInt32) (bytestorotate : Nat) : UInt32 :=
  val <<< UInt32.ofNat bytestorotate ||| val >>> UInt32.ofNat (32 - bytestorotate)

def rotate_right (val : UInt32) (bytestorotate : Nat) : UInt32 :=
  val >>> UInt32.ofNat bytestorotate ||| val <<< UInt32.ofNat (32 - bytestorotate)

private theorem getElem_rotate_left (val : UInt32) {k i : Nat} (hpos : 0 < k) (hk : k < 32)
    (hi : i < 32) :
    (rotate_left val k).toBitVec[i] =
      if i < k then val.toBitVec.getLsbD (32 - k + i) else val.toBitVec.getLsbD (i - k) := by
  have hleft : k % 4294967296 % 32 = k := by omega
  have hright : (32 - k) % 4294967296 % 32 = 32 - k := by omega
  simp only [rotate_left, UInt32.toBitVec_or, UInt32.toBitVec_shiftLeft,
    UInt32.toBitVec_shiftRight, BitVec.getElem_or]
  split_ifs with hlt
  · simp [hleft, hright, hlt]
  · have hout : val.toBitVec.getLsbD (32 - k + i) = false :=
      BitVec.getLsbD_of_ge _ _ (by omega)
    have hin : val.toBitVec.getLsbD (i - k) = val.toBitVec[i - k] :=
      BitVec.getLsbD_eq_getElem (by omega)
    simp [hleft, hright, hlt, hout, hin]

private theorem rotate_right_eq_rotate_left (val : UInt32) {k : Nat} (hk : k ≤ 32) :
    rotate_right val k = rotate_left val (32 - k) := by
  rw [rotate_right, rotate_left, UInt32.or_comm, Nat.sub_sub_self hk]

theorem rotate_right_rotate_left (val : UInt32) {k : Nat} (hpos : 0 < k) (hk : k < 32) :
    rotate_right (rotate_left val k) k = val := by
  rw [rotate_right_eq_rotate_left _ (Nat.le_of_lt hk), ← UInt32.toBitVec_inj]
  ext i hi
  rw [getElem_rotate_left _ (by omega) (by omega) hi]
  split_ifs with hlt
  · have hindex : 32 - (32 - k) + i - k = i := by omega
    rw [BitVec.getLsbD_eq_getElem (by omega), getElem_rotate_left _ hpos hk, if_neg (by omega),
      hindex, BitVec.getLsbD_eq_getElem hi]
  · have hindex : 32 - k + (i - (32 - k)) = i := by omega
    rw [BitVec.getLsbD_eq_getElem (by omega), getElem_rotate_left _ hpos hk, if_pos (by omega),
      hindex, BitVec.getLsbD_eq_getElem hi]

/-- The enumerator as an `execcount_t`. -/
def ExecPointType.word : ExecPointType → UInt32
  | .branch => 0
  | .counter => 1
  | .loop => 2

theorem ExecPointType.word_inj {type type' : ExecPointType} :
    type.word = type'.word ↔ type = type' := by
  cases type <;> cases type' <;> decide

/-- A block of `words` words.  `contents` is what the memory holds. -/
def model_malloc (contents : Nat → UInt32) (words : UInt32) : List UInt32 :=
  (List.range words.toNat).map contents

/-- Copies `n` words.  `none`: out of one of the blocks. -/
def memcpy (dst src : List UInt32) (n : UInt32) : Option (List UInt32) :=
  if n.toNat ≤ dst.length ∧ n.toNat ≤ src.length then
    some (src.take n.toNat ++ dst.drop n.toNat)
  else none

/-- `block[i] = w`. -/
def storeWord (block : List UInt32) (i : UInt32) (w : UInt32) : Option (List UInt32) :=
  if i.toNat < block.length then some (block.set i.toNat w) else none

namespace ExecPoint

structure Object where
  length : UInt32
  size : UInt32
  pairarray : List UInt32
  hashvalue : UInt32
  tid : Int32
  deriving DecidableEq, Repr

namespace Object

def construct (contents : Nat → UInt32) (_length : Int32) (thread_id : Int32) : Object :=
  let length := (_length <<< 1).toUInt32
  { length
    size := 0
    pairarray := model_malloc contents length
    hashvalue := thread_id.toUInt32
    tid := thread_id }

/-- The copy constructor.  The capacity of the copy is the size of `e`. -/
def copy (contents : Nat → UInt32) (e : Object) : Option Object := do
  let length := e.size
  let pairarray ← memcpy (model_malloc contents length) e.pairarray length
  return { length, size := e.size, pairarray, hashvalue := e.hashvalue, tid := e.tid }

def reset (this : Object) : Object :=
  { this with size := 0, hashvalue := this.tid.toUInt32 }

def pop (this : Object) : Option Object := do
  let top ← this.pairarray[(this.size - 1).toNat]?
  return { this with
    hashvalue := rotate_right (this.hashvalue ^^^ top) 3
    size := this.size - 2 }

/-- The first part of `push`: a full array is moved to one of twice the capacity. -/
def grow (contents : Nat → UInt32) (this : Object) : Option Object :=
  if this.size = this.length then do
    let length := this.length <<< 1
    let tmp ← memcpy (model_malloc contents length) this.pairarray this.size
    return { this with length, pairarray := tmp }
  else some this

def push (contents : Nat → UInt32) (this : Object) (type : ExecPointType) (value : UInt32) :
    Option Object := do
  let this ← this.grow contents
  let pairarray ← storeWord this.pairarray this.size type.word
  let pairarray ← storeWord pairarray (this.size + 1) value
  return { this with
    hashvalue := rotate_left this.hashvalue 3 ^^^ value
    pairarray
    size := this.size + 2 }

def incrementTop (this : Object) : Option Object := do
  let current ← this.pairarray[(this.size - 1).toNat]?
  let pairarray ← storeWord this.pairarray (this.size - 1) (current + 1)
  return { this with
    hashvalue := this.hashvalue ^^^ current ^^^ (current + 1)
    pairarray }

end Object

open Object

def execPointHash (e : Object) : UInt32 := e.hashvalue

/-- The loop of `ExecPointEquals`: `n` words from index `i` on. -/
def equalWords (e1 e2 : Object) : Nat → Nat → Option Bool
  | _, 0 => some true
  | i, n + 1 => do
    let w ← e1.pairarray[i]?
    let w' ← e2.pairarray[i]?
    if w ≠ w' then return false
    equalWords e1 e2 (i + 1) n

/-- A null pointer is `none`; as `e2` it is only compared with a null pointer. -/
def execPointEquals : Option Object → Option Object → Option Bool
  | none, e2 => some e2.isNone
  | some _, none => none
  | some e1, some e2 =>
      if e1.tid ≠ e2.tid ∨ e1.size ≠ e2.size ∨ e1.hashvalue ≠ e2.hashvalue then some false
      else equalWords e1 e2 0 e1.size.toNat

/-! ## The pairs a point stands for -/

def pairUp : List UInt32 → List (UInt32 × UInt32)
  | type :: value :: ws => (type, value) :: pairUp ws
  | _ => []

def Object.pairs (p : Object) : List (UInt32 × UInt32) :=
  pairUp (p.pairarray.take p.size.toNat)

def foldHash (tid : Int32) (values : List UInt32) : UInt32 :=
  values.foldl (fun hash value => rotate_left hash 3 ^^^ value) tid.toUInt32

def words (stack : List (ExecPointType × UInt32)) : List UInt32 :=
  stack.flatMap fun entry => [entry.1.word, entry.2]

@[simp] theorem foldHash_nil (tid : Int32) : foldHash tid [] = tid.toUInt32 := rfl

@[simp] theorem foldHash_concat (tid : Int32) (values : List UInt32) (value : UInt32) :
    foldHash tid (values ++ [value]) = rotate_left (foldHash tid values) 3 ^^^ value := by
  simp [foldHash]

@[simp] theorem words_nil : words [] = [] := rfl

@[simp] theorem words_append (stack stack' : List (ExecPointType × UInt32)) :
    words (stack ++ stack') = words stack ++ words stack' := by
  simp [words]

@[simp] theorem words_singleton (type : ExecPointType) (value : UInt32) :
    words [(type, value)] = [type.word, value] := rfl

@[simp] theorem length_words (stack : List (ExecPointType × UInt32)) :
    (words stack).length = 2 * stack.length := by
  induction stack with
  | nil => rfl
  | cons entry stack ih =>
    simp only [words, List.flatMap_cons, List.length_append, List.length_cons] at ih ⊢
    simp [ih]
    omega

theorem pairUp_words (stack : List (ExecPointType × UInt32)) :
    pairUp (words stack) = stack.map fun entry => (entry.1.word, entry.2) := by
  induction stack with
  | nil => rfl
  | cons entry stack ih =>
    simp only [words, List.flatMap_cons, List.cons_append, List.nil_append, pairUp, List.map_cons]
      at ih ⊢
    rw [ih]

/-- The array, the size and the hash of a point with the given stack. -/
structure Object.Stands (p : Object) (stack : List (ExecPointType × UInt32)) : Prop where
  size_eq : p.size.toNat = 2 * stack.length
  size_le : p.size.toNat ≤ p.length.toNat
  even : 2 ∣ p.length.toNat
  block : p.pairarray.length = p.length.toNat
  words_eq : p.pairarray.take p.size.toNat = words stack
  hash_eq : p.hashvalue = foldHash p.tid (stack.map Prod.snd)

namespace Object

variable {p q : Object} {stack : List (ExecPointType × UInt32)} {contents : Nat → UInt32}

@[simp] theorem length_model_malloc (contents : Nat → UInt32) (words : UInt32) :
    (model_malloc contents words).length = words.toNat := by
  simp [model_malloc]

theorem shiftLeft_one_toNat (n : UInt32) : (n <<< 1).toNat = 2 * n.toNat % 2 ^ 32 := by
  simp [UInt32.toNat_shiftLeft, Nat.shiftLeft_eq, Nat.mul_comm]

theorem construct_stands (contents : Nat → UInt32) (_length thread_id : Int32) :
    (construct contents _length thread_id).Stands [] where
  size_eq := rfl
  size_le := Nat.zero_le _
  even := by
    have hshift : (_length <<< 1).toUInt32 = _length.toUInt32 <<< 1 := rfl
    simp only [construct, hshift, shiftLeft_one_toNat]
    omega
  block := by simp [construct]
  words_eq := rfl
  hash_eq := rfl

theorem Stands.reset (h : p.Stands stack) : p.reset.Stands [] where
  size_eq := rfl
  size_le := Nat.zero_le _
  even := h.even
  block := h.block
  words_eq := rfl
  hash_eq := rfl

private theorem memcpy_eq {dst src : List UInt32} {n : UInt32} (hdst : n.toNat ≤ dst.length)
    (hsrc : n.toNat ≤ src.length) :
    memcpy dst src n = some (src.take n.toNat ++ dst.drop n.toNat) :=
  if_pos ⟨hdst, hsrc⟩

theorem memcpy_eq_some_iff {dst src block : List UInt32} {n : UInt32} :
    memcpy dst src n = some block ↔ n.toNat ≤ dst.length ∧ n.toNat ≤ src.length ∧
      src.take n.toNat ++ dst.drop n.toNat = block := by
  simp [memcpy, and_assoc]

theorem storeWord_eq_some_iff {block block' : List UInt32} {i w : UInt32} :
    storeWord block i w = some block' ↔ i.toNat < block.length ∧ block.set i.toNat w = block' := by
  simp [storeWord]

theorem storeWord_eq {block : List UInt32} {i w : UInt32} (h : i.toNat < block.length) :
    storeWord block i w = some (block.set i.toNat w) :=
  if_pos h

theorem Stands.size_le_block (h : p.Stands stack) : p.size.toNat ≤ p.pairarray.length := by
  rw [h.block]
  exact h.size_le

theorem Stands.copy (h : p.Stands stack) (hq : p.copy contents = some q) :
    q.Stands stack ∧ q.tid = p.tid := by
  have hblock : p.size.toNat ≤ (model_malloc contents p.size).length := by simp
  simp only [Object.copy, memcpy_eq hblock h.size_le_block, Option.bind_eq_bind, Option.bind_some,
    Option.pure_def, Option.some_inj] at hq
  subst hq
  refine ⟨?_, rfl⟩
  constructor
  · exact h.size_eq
  · exact Nat.le_refl _
  · exact ⟨stack.length, h.size_eq⟩
  · simp [h.size_le_block]
  · exact (List.take_left' (by simp [h.size_le_block])).trans h.words_eq
  · exact h.hash_eq

theorem Stands.size_concat {under : List (ExecPointType × UInt32)}
    {entry : ExecPointType × UInt32} (h : p.Stands (under ++ [entry])) :
    p.size.toNat = 2 * under.length + 2 := by
  rw [h.size_eq, List.length_append, List.length_singleton]
  omega

theorem Stands.top {under : List (ExecPointType × UInt32)} {type : ExecPointType} {value : UInt32}
    (h : p.Stands (under ++ [(type, value)])) :
    (p.size - 1).toNat = 2 * under.length + 1 ∧
      p.pairarray[(p.size - 1).toNat]? = some value := by
  have hsize := h.size_concat
  have hindex : (p.size - 1).toNat = 2 * under.length + 1 := by
    rw [UInt32.toNat_sub_of_le, hsize]
    · rfl
    · rw [UInt32.le_iff_toNat_le, hsize, UInt32.toNat_one]
      omega
  refine ⟨hindex, ?_⟩
  have htake : (p.pairarray.take p.size.toNat)[2 * under.length + 1]? = some value := by
    rw [h.words_eq, words_append, words_singleton, List.getElem?_append_right (by simp)]
    simp
  rw [hindex, ← htake, List.getElem?_take_of_lt (by omega)]

theorem Stands.pop_concat {under : List (ExecPointType × UInt32)} {type : ExecPointType}
    {value : UInt32} (h : p.Stands (under ++ [(type, value)])) :
    ∃ q, p.pop = some q ∧ q.Stands under ∧ q.tid = p.tid := by
  obtain ⟨hindex, htop⟩ := h.top
  have hsize := h.size_concat
  have hnew : (p.size - 2).toNat = 2 * under.length := by
    rw [UInt32.toNat_sub_of_le, hsize]
    · rfl
    · rw [UInt32.le_iff_toNat_le, hsize]
      exact Nat.le_add_left ..
  simp only [Object.pop, htop, Option.bind_eq_bind, Option.bind_some, Option.pure_def]
  refine ⟨_, rfl, ?_, rfl⟩
  constructor
  · exact hnew
  · have := h.size_le
    simp only [hnew]
    omega
  · exact h.even
  · exact h.block
  · have htake : (p.pairarray.take p.size.toNat).take (2 * under.length) = words under := by
      rw [h.words_eq, words_append, List.take_left' (length_words under)]
    rw [List.take_take, hsize, Nat.min_eq_left (by omega)] at htake
    simp only [hnew, htake]
  · simp only [h.hash_eq, List.map_append, List.map_cons, List.map_nil, foldHash_concat]
    rw [UInt32.xor_assoc, UInt32.xor_self, UInt32.xor_zero,
      rotate_right_rotate_left _ (by omega) (by omega)]

theorem Stands.incrementTop_concat {under : List (ExecPointType × UInt32)} {type : ExecPointType}
    {value : UInt32} (h : p.Stands (under ++ [(type, value)])) :
    ∃ q, p.incrementTop = some q ∧ q.Stands (under ++ [(type, value + 1)]) ∧ q.tid = p.tid := by
  obtain ⟨hindex, htop⟩ := h.top
  have hsize := h.size_concat
  have hblock := h.size_le_block
  have hstore : storeWord p.pairarray (p.size - 1) (value + 1) =
      some (p.pairarray.set (p.size - 1).toNat (value + 1)) := storeWord_eq (by omega)
  simp only [Object.incrementTop, htop, hstore, Option.bind_eq_bind, Option.bind_some,
    Option.pure_def]
  refine ⟨_, rfl, ?_, rfl⟩
  constructor
  · simpa using h.size_eq
  · exact h.size_le
  · exact h.even
  · simpa using h.block
  · simp only [List.take_set, h.words_eq, hindex, words_append, words_singleton]
    rw [List.set_append_right _ _ (by simp)]
    simp
  · simp only [h.hash_eq, List.map_append, List.map_cons, List.map_nil, foldHash_concat]
    rw [UInt32.xor_assoc (rotate_left _ 3), UInt32.xor_self, UInt32.xor_zero]

theorem Stands.top_nil (h : p.Stands []) : p.pairarray[(p.size - 1).toNat]? = none := by
  have hsize : p.size = 0 := UInt32.toNat_inj.mp h.size_eq
  have hlength := p.length.toNat_lt
  have heven := h.even
  have hblock := h.block
  rw [hsize, List.getElem?_eq_none_iff, hblock]
  change p.length.toNat ≤ 2 ^ 32 - 1
  omega

theorem Stands.pop (h : p.Stands stack) (hq : p.pop = some q) :
    q.Stands stack.dropLast ∧ q.tid = p.tid := by
  cases stack using List.reverseRecOn with
  | nil => simp [Object.pop, h.top_nil] at hq
  | append_singleton under entry =>
    obtain ⟨q', hq', hstands, htid⟩ := h.pop_concat
    cases hq.symm.trans hq'
    rw [List.dropLast_concat]
    exact ⟨hstands, htid⟩

theorem Stands.incrementTop (h : p.Stands stack) (hq : p.incrementTop = some q) :
    ∃ under type value, stack = under ++ [(type, value)] ∧
      q.Stands (under ++ [(type, value + 1)]) ∧ q.tid = p.tid := by
  cases stack using List.reverseRecOn with
  | nil => simp [Object.incrementTop, h.top_nil] at hq
  | append_singleton under entry =>
    obtain ⟨q', hq', hstands, htid⟩ := h.incrementTop_concat
    cases hq.symm.trans hq'
    exact ⟨under, entry.1, entry.2, rfl, hstands, htid⟩

theorem Stands.grow (h : p.Stands stack) (hq : p.grow contents = some q) :
    q.Stands stack ∧ q.tid = p.tid := by
  unfold Object.grow at hq
  split_ifs at hq with hfull
  · simp only [Option.bind_eq_bind, Option.bind_eq_some_iff, memcpy_eq_some_iff,
      length_model_malloc, Option.pure_def, Option.some_inj] at hq
    obtain ⟨tmp, ⟨hroom, hcopied, rfl⟩, rfl⟩ := hq
    refine ⟨?_, rfl⟩
    constructor
    · exact h.size_eq
    · exact hroom
    · simp only [shiftLeft_one_toNat]
      omega
    · simp only [List.length_append, List.length_take, List.length_drop, length_model_malloc]
      omega
    · exact (List.take_left' (by simp [hcopied])).trans h.words_eq
    · exact h.hash_eq
  · cases hq
    exact ⟨h, rfl⟩

private theorem take_set_set {block : List UInt32} {n : Nat} (h : n + 2 ≤ block.length)
    (w w' : UInt32) :
    ((block.set n w).set (n + 1) w').take (n + 2) = block.take n ++ [w, w'] := by
  induction block generalizing n with
  | nil => simp at h
  | cons x block ih =>
    cases n with
    | zero =>
      cases block with
      | nil => simp at h
      | cons y block => simp
    | succ n =>
      simp only [List.set_cons_succ, List.take_succ_cons, List.cons_append]
      rw [ih (by simpa using h)]

theorem Stands.push {type : ExecPointType} {value : UInt32} (h : p.Stands stack)
    (hq : p.push contents type value = some q) :
    q.Stands (stack ++ [(type, value)]) ∧ q.tid = p.tid := by
  simp only [Object.push, Option.bind_eq_bind, Option.bind_eq_some_iff, storeWord_eq_some_iff,
    Option.pure_def, Option.some_inj] at hq
  obtain ⟨g, hgrow, block, ⟨hfst, rfl⟩, block', ⟨hsnd, rfl⟩, rfl⟩ := hq
  obtain ⟨hg, htid⟩ := h.grow hgrow
  have hlength := hg.block
  have heven := hg.even
  have hbound := g.length.toNat_lt
  have hsize := hg.size_eq
  have hsucc : (g.size + 1).toNat = g.size.toNat + 1 := by
    rw [UInt32.toNat_add, UInt32.toNat_one]
    omega
  rw [List.length_set, hsucc] at hsnd
  have hnew : (g.size + 2).toNat = g.size.toNat + 2 := by
    rw [UInt32.toNat_add]
    change (g.size.toNat + 2) % 2 ^ 32 = _
    omega
  refine ⟨?_, htid⟩
  constructor
  · simp only [hnew, List.length_append, List.length_singleton]
    omega
  · simp only [hnew]
    omega
  · exact heven
  · simpa using hlength
  · simp only [hnew, hsucc]
    rw [take_set_set (by omega), hg.words_eq, words_append, words_singleton]
  · simp only [hg.hash_eq, List.map_append, List.map_cons, List.map_nil, foldHash_concat]

/-- The points that constructors and any sequence of operations give. -/
inductive Obtained : Object → Prop
  | construct (contents : Nat → UInt32) (_length thread_id : Int32) :
      Obtained (construct contents _length thread_id)
  | copy {p q : Object} (contents : Nat → UInt32) (h : Obtained p)
      (hq : p.copy contents = some q) : Obtained q
  | reset {p : Object} (h : Obtained p) : Obtained p.reset
  | push {p q : Object} (contents : Nat → UInt32) (type : ExecPointType) (value : UInt32)
      (h : Obtained p) (hq : p.push contents type value = some q) : Obtained q
  | pop {p q : Object} (h : Obtained p) (hq : p.pop = some q) : Obtained q
  | incrementTop {p q : Object} (h : Obtained p) (hq : p.incrementTop = some q) : Obtained q

theorem Obtained.exists_stands (h : Obtained p) : ∃ stack, p.Stands stack := by
  induction h with
  | construct contents _length thread_id => exact ⟨[], construct_stands ..⟩
  | copy contents h hq ih =>
    obtain ⟨stack, hp⟩ := ih
    exact ⟨stack, (hp.copy hq).1⟩
  | reset h ih =>
    obtain ⟨stack, hp⟩ := ih
    exact ⟨[], hp.reset⟩
  | push contents type value h hq ih =>
    obtain ⟨stack, hp⟩ := ih
    exact ⟨_, (hp.push hq).1⟩
  | pop h hq ih =>
    obtain ⟨stack, hp⟩ := ih
    exact ⟨_, (hp.pop hq).1⟩
  | incrementTop h hq ih =>
    obtain ⟨stack, hp⟩ := ih
    obtain ⟨under, type, value, -, hstands, -⟩ := hp.incrementTop hq
    exact ⟨_, hstands⟩

theorem Stands.pairs_eq (h : p.Stands stack) :
    p.pairs = stack.map fun entry => (entry.1.word, entry.2) := by
  rw [pairs, h.words_eq, pairUp_words]

end Object

private theorem equalWords_eq {e1 e2 : Object} {i n : Nat} (h : i + n ≤ e1.pairarray.length)
    (h' : i + n ≤ e2.pairarray.length) :
    equalWords e1 e2 i n =
      some (decide ((e1.pairarray.drop i).take n = (e2.pairarray.drop i).take n)) := by
  induction n generalizing i with
  | zero => simp [equalWords]
  | succ n ih =>
    have hi : i < e1.pairarray.length := by omega
    have hi' : i < e2.pairarray.length := by omega
    rw [equalWords, List.getElem?_eq_getElem hi, List.getElem?_eq_getElem hi',
      List.drop_eq_getElem_cons hi, List.drop_eq_getElem_cons hi', List.take_succ_cons,
      List.take_succ_cons, ih (by omega) (by omega)]
    by_cases hw : e1.pairarray[i] = e2.pairarray[i] <;> simp [hw]

theorem word_value_injective :
    Function.Injective fun entry : ExecPointType × UInt32 => (entry.1.word, entry.2) := by
  rintro ⟨type, value⟩ ⟨type', value'⟩ heq
  simpa [ExecPointType.word_inj] using heq

private theorem words_inj {stack stack' : List (ExecPointType × UInt32)} :
    words stack = words stack' ↔ stack = stack' := by
  constructor
  · intro h
    have hmap := congrArg pairUp h
    rw [pairUp_words, pairUp_words] at hmap
    exact List.map_injective_iff.mpr word_value_injective hmap
  · exact congrArg words

theorem Object.Stands.execPointEquals_eq {p q : Object}
    {stack stack' : List (ExecPointType × UInt32)} (h : p.Stands stack) (h' : q.Stands stack') :
    execPointEquals (some p) (some q) = some (decide (p.tid = q.tid ∧ stack = stack')) := by
  rw [execPointEquals]
  split_ifs with hdiff
  · rw [Option.some_inj, eq_comm, decide_eq_false_iff_not]
    rintro ⟨htid, rfl⟩
    have hsize : p.size = q.size := UInt32.toNat_inj.mp (h.size_eq.trans h'.size_eq.symm)
    have hhash : p.hashvalue = q.hashvalue := by rw [h.hash_eq, h'.hash_eq, htid]
    simp [htid, hsize, hhash] at hdiff
  · simp only [ne_eq, not_or, Decidable.not_not] at hdiff
    obtain ⟨htid, hsize, -⟩ := hdiff
    have hle := h.size_le_block
    have hle' := h'.size_le_block
    rw [← hsize] at hle'
    rw [equalWords_eq (by omega) (by omega), List.drop_zero, List.drop_zero, h.words_eq, hsize,
      h'.words_eq]
    simp [words_inj, htid]

theorem Object.Stands.pairs_eq_iff {p q : Object} {stack stack' : List (ExecPointType × UInt32)}
    (h : p.Stands stack) (h' : q.Stands stack') : p.pairs = q.pairs ↔ stack = stack' := by
  rw [h.pairs_eq, h'.pairs_eq, (List.map_injective_iff.mpr word_value_injective).eq_iff]

theorem Object.Obtained.execPointEquals_eq {p q : Object} (hp : p.Obtained) (hq : q.Obtained) :
    execPointEquals (some p) (some q) = some (decide (p.tid = q.tid ∧ p.pairs = q.pairs)) := by
  obtain ⟨stack, hp⟩ := hp.exists_stands
  obtain ⟨stack', hq⟩ := hq.exists_stands
  simp only [hp.execPointEquals_eq hq, hp.pairs_eq_iff hq]

theorem Object.Obtained.hash_eq {p : Object} (hp : p.Obtained) :
    execPointHash p = foldHash p.tid (p.pairs.map Prod.snd) := by
  obtain ⟨stack, hp⟩ := hp.exists_stands
  rw [execPointHash, hp.hash_eq, hp.pairs_eq, List.map_map]
  rfl

theorem Object.Obtained.hash_eq_of_equals {p q : Object} (hp : p.Obtained) (hq : q.Obtained)
    (heq : execPointEquals (some p) (some q) = some true) :
    execPointHash p = execPointHash q := by
  rw [hp.execPointEquals_eq hq, Option.some_inj, decide_eq_true_eq] at heq
  rw [hp.hash_eq, hq.hash_eq, heq.1, heq.2]

/-- The hash is the fold of the values, and a comparison sees the thread and the pairs alone. -/
theorem hashvalue_eq_foldHash {p : Object} (h : Obtained p) :
    execPointHash p = foldHash p.tid (p.pairs.map Prod.snd) ∧
    ∀ q, Obtained q →
      execPointEquals (some p) (some q) = some (decide (p.tid = q.tid ∧ p.pairs = q.pairs)) ∧
      (execPointEquals (some p) (some q) = some true → execPointHash p = execPointHash q) := by
  exact ⟨h.hash_eq, fun q hq => ⟨h.execPointEquals_eq hq, h.hash_eq_of_equals hq⟩⟩

/-- The same point of thread 3 by a push, and by a push, a detour and a step of the top. -/
theorem hashvalue_eq_foldHash_histories :
    ∃ p q, Obtained p ∧ Obtained q ∧ p.length ≠ q.length ∧
      execPointEquals (some p) (some q) = some true ∧
      execPointHash p = foldHash 3 [5] ∧ execPointHash q = foldHash 3 [5] := by
  have hp : Obtained ⟨8, 2, [1, 5, 0, 0, 0, 0, 0, 0], 29, 3⟩ :=
    .push (fun _ => 0) .counter 5 (.construct (fun _ => 0) 4 3) rfl
  have hpushed : Obtained ⟨2, 2, [1, 4], 28, 3⟩ :=
    .push (fun _ => 7) .counter 4 (.construct (fun _ => 7) 1 3) rfl
  have hdetour : Obtained ⟨4, 4, [1, 4, 0, 1], 225, 3⟩ :=
    .push (fun _ => 7) .branch 1 hpushed rfl
  have hback : Obtained ⟨4, 2, [1, 4, 0, 1], 28, 3⟩ := .pop hdetour rfl
  have hstep : Obtained ⟨4, 2, [1, 5, 0, 1], 29, 3⟩ := .incrementTop hback rfl
  have h := hashvalue_eq_foldHash hp
  exact ⟨_, _, hp, hstep, by decide, (h.2 _ hstep).1.trans rfl, h.1.trans rfl,
    (hashvalue_eq_foldHash hstep).1.trans rfl⟩

/-! ## The points of the event graph -/

def Object.Represents (p : Object) (ep : ExecPoint) : Prop :=
  ∃ stack, p.Stands stack ∧ p.tid.toInt = ep.tid ∧
    ep.pairs = stack.map fun entry => (entry.1, entry.2.toNat)

namespace Object

variable {p q : Object} {ep ep' : ExecPoint} {contents : Nat → UInt32}

theorem construct_represents (contents : Nat → UInt32) (_length : Int32) {thread_id : Int32}
    {tid : Nat} (htid : thread_id.toInt = tid) :
    (construct contents _length thread_id).Represents ⟨tid, []⟩ :=
  ⟨[], construct_stands .., htid, rfl⟩

theorem Represents.push {type : ExecPointType} {value : UInt32} (h : p.Represents ep)
    (hq : p.push contents type value = some q) : q.Represents (ep.push type value.toNat) := by
  obtain ⟨stack, hp, htid, hpairs⟩ := h
  obtain ⟨hstands, hq⟩ := hp.push hq
  exact ⟨_, hstands, by rw [hq, htid, push_tid], by simp [hpairs]⟩

theorem Represents.pop (h : p.Represents ep) (hq : p.pop = some q) : q.Represents ep.pop := by
  obtain ⟨stack, hp, htid, hpairs⟩ := h
  obtain ⟨hstands, hq⟩ := hp.pop hq
  exact ⟨_, hstands, by rw [hq, htid, pop_tid], by simp [ExecPoint.pop, hpairs]⟩

theorem Represents.reset (h : p.Represents ep) : p.reset.Represents ⟨ep.tid, []⟩ := by
  obtain ⟨stack, hp, htid, -⟩ := h
  exact ⟨[], hp.reset, htid, rfl⟩

theorem Represents.copy (h : p.Represents ep) (hq : p.copy contents = some q) :
    q.Represents ep := by
  obtain ⟨stack, hp, htid, hpairs⟩ := h
  obtain ⟨hstands, hq⟩ := hp.copy hq
  exact ⟨stack, hstands, by rw [hq, htid], hpairs⟩

theorem Represents.incrementTop (h : p.Represents ep) (hq : p.incrementTop = some q)
    (hwrap : ∀ entry ∈ ep.pairs, entry.2 + 1 < 2 ^ 32) : q.Represents ep.incrementTop := by
  obtain ⟨stack, hp, htid, hpairs⟩ := h
  obtain ⟨under, type, value, rfl, hstands, hq⟩ := hp.incrementTop hq
  have hvalue : (value + 1).toNat = value.toNat + 1 := by
    have htop := hwrap (type, value.toNat) (by simp [hpairs])
    rw [UInt32.toNat_add, UInt32.toNat_one, Nat.mod_eq_of_lt htop]
  refine ⟨_, hstands, by rw [hq, htid, incrementTop_tid], ?_⟩
  simp [ExecPoint.incrementTop, hpairs, hvalue]

theorem Represents.execPointEquals_eq (h : p.Represents ep) (h' : q.Represents ep') :
    execPointEquals (some p) (some q) = some (decide (ep = ep')) := by
  obtain ⟨stack, hp, htid, hpairs⟩ := h
  obtain ⟨stack', hq, htid', hpairs'⟩ := h'
  have hinj : Function.Injective fun entry : ExecPointType × UInt32 =>
      (entry.1, entry.2.toNat) := by
    rintro ⟨type, value⟩ ⟨type', value'⟩ heq
    simpa [UInt32.toNat_inj] using heq
  have hstack : ep.pairs = ep'.pairs ↔ stack = stack' := by
    rw [hpairs, hpairs', (List.map_injective_iff.mpr hinj).eq_iff]
  have htids : p.tid = q.tid ↔ ep.tid = ep'.tid := by
    rw [← Int32.toInt_inj, htid, htid', Int.ofNat_inj]
  have hpoint : ep = ep' ↔ ep.tid = ep'.tid ∧ ep.pairs = ep'.pairs := by
    cases ep
    cases ep'
    simp
  simp only [hp.execPointEquals_eq hq, hpoint, hstack, htids]

/-- An object and a point after the same operations, no counter of the point wrapping around. -/
inductive Tracks : Object → ExecPoint → Prop
  | construct (contents : Nat → UInt32) (_length : Int32) {thread_id : Int32} {tid : Nat}
      (htid : thread_id.toInt = tid) : Tracks (construct contents _length thread_id) ⟨tid, []⟩
  | push (contents : Nat → UInt32) (type : ExecPointType) (value : UInt32) {p q : Object}
      {ep : ExecPoint} (h : Tracks p ep) (hq : p.push contents type value = some q) :
      Tracks q (ep.push type value.toNat)
  | pop {p q : Object} {ep : ExecPoint} (h : Tracks p ep) (hq : p.pop = some q) :
      Tracks q ep.pop
  | reset {p : Object} {ep : ExecPoint} (h : Tracks p ep) : Tracks p.reset ⟨ep.tid, []⟩
  | copy (contents : Nat → UInt32) {p q : Object} {ep : ExecPoint} (h : Tracks p ep)
      (hq : p.copy contents = some q) : Tracks q ep
  | incrementTop {p q : Object} {ep : ExecPoint} (h : Tracks p ep)
      (hq : p.incrementTop = some q) (hwrap : ∀ entry ∈ ep.pairs, entry.2 + 1 < 2 ^ 32) :
      Tracks q ep.incrementTop

theorem Tracks.obtained (h : Tracks p ep) : p.Obtained := by
  induction h with
  | construct contents _length _ => exact .construct contents _length _
  | push contents type value _ hq ih => exact .push contents type value ih hq
  | pop _ hq ih => exact .pop ih hq
  | reset _ ih => exact .reset ih
  | copy contents _ hq ih => exact .copy contents ih hq
  | incrementTop _ hq _ ih => exact .incrementTop ih hq

theorem Tracks.represents (h : Tracks p ep) : p.Represents ep := by
  induction h with
  | construct contents _length htid => exact construct_represents contents _length htid
  | push _ _ _ _ hq ih => exact ih.push hq
  | pop _ hq ih => exact ih.pop hq
  | reset _ ih => exact ih.reset
  | copy _ _ hq ih => exact ih.copy hq
  | incrementTop _ hq hwrap ih => exact ih.incrementTop hq hwrap

/-- `ExecPointEquals` on the objects is equality of the points they were built alongside. -/
theorem Tracks.execPointEquals_eq (h : Tracks p ep) (h' : Tracks q ep') :
    execPointEquals (some p) (some q) = some (decide (ep = ep')) :=
  h.represents.execPointEquals_eq h'.represents

end Object

end ExecPoint

end SatCheck
