import SatCheck.HashTableLoad
import Mathlib.Data.ZMod.Defs
/-!
# The page snapshotter

`mprot_snapshotter` of `snapshot.cc`.  A snapshot makes the pages of the registered regions
read-only; the first write to such a page copies it to the backing store and makes it
writable.  A page is named by its address and its content is any value.  `none` is the exit
of the program at one of the limits.
-/

namespace SatCheck

def pageSize : Nat := 4096

structure MemoryRegion where
  basePtr : Nat
  sizeInPages : Nat

structure Snapshotter (P : Type) where
  memory : Nat → P
  readOnly : Nat → Bool
  regionsToSnapShot : List MemoryRegion
  backingStore : Nat → P
  basePtrOfPage : Nat → Nat
  firstBackingPage : Nat → Nat
  lastSnapShot : Nat
  lastBackingPage : Nat
  maxBackingPages : Nat
  maxSnapShots : Nat

namespace Snapshotter

variable {P : Type}

def new (memory : Nat → P) (regions : List MemoryRegion) (backing_pages snapshots : Nat) :
    Snapshotter P where
  memory := memory
  readOnly := fun _ => false
  regionsToSnapShot := regions
  backingStore := memory
  basePtrOfPage := fun _ => 0
  firstBackingPage := fun _ => 0
  lastSnapShot := 0
  lastBackingPage := 0
  maxBackingPages := backing_pages
  maxSnapShots := snapshots

def Registered (s : Snapshotter P) (page : Nat) : Prop :=
  ∃ region ∈ s.regionsToSnapShot, ∃ i < region.sizeInPages, page = region.basePtr + i * pageSize

instance (s : Snapshotter P) (page : Nat) : Decidable (s.Registered page) :=
  inferInstanceAs (Decidable (∃ region ∈ s.regionsToSnapShot, _))

/-- `mprotect` on every registered region. -/
def protect (s : Snapshotter P) (readOnly : Bool) : Snapshotter P :=
  { s with readOnly := fun page => if s.Registered page then readOnly else s.readOnly page }

def mprot_handle_pf (s : Snapshotter P) (addr : Nat) : Option (Snapshotter P) :=
  if s.lastBackingPage = s.maxBackingPages then none
  else some { s with
    lastBackingPage := s.lastBackingPage + 1
    backingStore := Function.update s.backingStore s.lastBackingPage (s.memory addr)
    basePtrOfPage := Function.update s.basePtrOfPage s.lastBackingPage addr
    readOnly := Function.update s.readOnly addr false }

def fault (s : Snapshotter P) (addr : Nat) : Option (Snapshotter P) :=
  if s.readOnly addr then s.mprot_handle_pf addr else some s

def write (s : Snapshotter P) (addr : Nat) (content : P) : Option (Snapshotter P) := do
  let s ← s.fault addr
  some { s with memory := Function.update s.memory addr content }

def mprot_take_snapshot (s : Snapshotter P) : Option (Snapshotter P × Nat) :=
  let s := s.protect true
  let snapshot := s.lastSnapShot
  if snapshot = s.maxSnapShots then none
  else some ({ s with
    lastSnapShot := snapshot + 1
    firstBackingPage := Function.update s.firstBackingPage snapshot s.lastBackingPage }, snapshot)

/-- The loop of the tuned path for at most `fuel` pages. -/
def copyBack : Nat → Nat → Snapshotter P → Option (Snapshotter P)
  | 0, _, _ => none
  | fuel + 1, page, s =>
      if page < s.lastBackingPage then do
        let s ← s.write (s.basePtrOfPage page) (s.backingStore page)
        copyBack fuel (page + 1) s
      else some s

/-- `default_hash_function` of `duplicateMap`, whose keys are shifted by 4. -/
def pageOps : KeyOps Nat where
  hash_function page := (page >>> 4) % 2 ^ 32
  equals a b := a == b

/-- The loop of the general path for at most `fuel` pages. -/
def restore : Nat → Nat → HashTable Nat (Fin 2) → Snapshotter P → Option (Snapshotter P)
  | 0, _, _, _ => none
  | fuel + 1, page, duplicateMap, s =>
      if page < s.lastBackingPage then do
        let found ← duplicateMap.contains pageOps (s.basePtrOfPage page)
        if found then restore fuel (page + 1) duplicateMap s
        else do
          let duplicateMap ← duplicateMap.put pageOps (s.basePtrOfPage page) 1
          let s ← s.write (s.basePtrOfPage page) (s.backingStore page)
          restore fuel (page + 1) duplicateMap s
      else some s

/-- `mprot_roll_back`; `tuned` when it is built with `USE_MPROTECT_SNAPSHOT` 2. -/
def mprot_roll_back (s : Snapshotter P) (theID : Nat) (tuned : Bool) :
    Option (Snapshotter P) :=
  let first := s.firstBackingPage theID
  if tuned ∧ s.lastSnapShot = theID + 1 then s.copyBack (s.maxBackingPages + 1) first
  else do
    let s := s.protect false
    let s ← s.restore (s.maxBackingPages + 1) first (HashTable.new 1024 (1 / 2))
    let s := { s with lastSnapShot := theID, lastBackingPage := s.firstBackingPage theID }
    let (s, _) ← s.mprot_take_snapshot
    some s

end Snapshotter

end SatCheck
