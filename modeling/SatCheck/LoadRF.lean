import SatCheck.ProcessBranch
/-!
# Reading memory

The constraints that `LoadRF` generates for a load or an RMW (SC build), and those of
`processAddresses`.
-/

namespace SatCheck

open Constraint

/-- The tables with those of the memory operations.  `none` is a `NULL` conflict set. -/
structure MemoryTables (R : Type) extends BranchTables R where
  getMayReadFromSet : R → List R
  computeConflictSet : R → R → Option (List R)
  getOrderConstraint : R → R → Constraint
  getAddresses : Nat → List UInt64
  getAddrVars : R → List Nat
  getAddr : R → UInt64
  addrVars : ∀ r, (getAddrVars r).length = numBits (getAddresses (getStoreLoadSet r)).length

namespace MemoryTables

variable {R : Type} (t : MemoryTables R)

/-- `new Constraint(AND, n, array)`. -/
def conj (array : List (Option Constraint)) : Option Constraint := (array.mapM id).map .and

/-- The variables that the constructor of `LoadRF` takes. -/
def rfVars (load : R) : List Nat :=
  List.range' t.varindex (t.getMayReadFromSet load).length.size

def newVar (record : R) : Nat := t.varindex + (t.rfVars record).length

/-- A load that reads from `store` reads its value at its address, after its execution. -/
def storeaddressmatch (load store : R) (rfconst : Constraint) : Option Constraint :=
  EncodingTables.imply (some rfconst) (conj
    [some (t.getOrderConstraint store load),
      some (generateEquivConstraint (t.readVars load) (t.getValVars store)),
      t.getExecutionConstraint store,
      some (generateEquivConstraint (t.getAddrVars load) (t.getAddrVars store))])

/-- No conflicting store to the address stands between `store` and the load. -/
def confstore (load store conflictstore : R) (rfconst : Constraint) : List (Option Constraint) :=
  let storebeforeconflict := t.getOrderConstraint store conflictstore
  let conflictbeforeload := t.getOrderConstraint conflictstore load
  if storebeforeconflict.isFalse || conflictbeforeload.isFalse then []
  else
    [EncodingTables.imply
      (conj [some storebeforeconflict, some conflictbeforeload, some rfconst,
        t.getExecutionConstraint conflictstore])
      (some (generateEquivConstraint (t.getAddrVars load) (t.getAddrVars conflictstore)).negate)]

/-- `LoadRF::genConstraints`. -/
def loadRF (load : R) : List (Option Constraint) :=
  let mrfSet := t.getMayReadFromSet load
  let vars := t.rfVars load
  (mrfSet.zipIdx.flatMap fun (store, storeindex) =>
    let rfconst := generateConstraint vars storeindex
    t.storeaddressmatch load store (if vars.length = 0 then .ctrue else rfconst) ::
      ((t.computeConflictSet store load).getD mrfSet).flatMap fun conflictstore =>
        t.confstore load store conflictstore rfconst) ++
    [EncodingTables.imply (t.getExecutionConstraint load)
      (some (generateLTConstraint vars mrfSet.length))]

def getAddressEncoding (record : R) (addr : UInt64) : Option Constraint :=
  EncodingTables.valueEncoding (t.getAddresses (t.getStoreLoadSet record)) (t.getAddrVars record)
    addr

def processAddresses (record : R) : List (Option Constraint) :=
  match t.getRevDependences record vcAddrIndex with
  | none => [t.getAddressEncoding record (t.getAddr record)]
  | some src => (t.getSet record vcAddrIndex).map fun addr =>
      EncodingTables.imply (t.getRetValueEncoding src (addr - (t.info record).offset))
        (t.getAddressEncoding record addr)

/-! ## Values of an RMW -/

def getRMWRValueEncoding (record : R) (value : UInt64) : Option Constraint :=
  EncodingTables.valueEncoding (t.getValues (t.getStoreLoadSet record)) (t.getRMWRValVars record)
    value

def getMemValueEncoding (record : R) (value : UInt64) : Option Constraint :=
  match (t.info record).event with
  | .store | .rmw =>
      EncodingTables.valueEncoding (t.getValues (t.getStoreLoadSet record)) (t.getValVars record)
        value
  | _ => none

def Writes (ρ : Nat → Bool) (record : R) (value : UInt64) : Prop :=
  value ∈ t.getValues (t.getStoreLoadSet record) ∧
    code ρ (t.getValVars record) = (t.getValues (t.getStoreLoadSet record)).idxOf value

variable {t} {record : R} {ρ : Nat → Bool} {v w : UInt64}

theorem getRMWRValueEncoding_eq (hevent : (t.info record).event = .rmw) (value : UInt64) :
    t.getRMWRValueEncoding record value = t.getRetValueEncoding record value := by
  unfold getRMWRValueEncoding EncodingTables.getRetValueEncoding
  simp [hevent]

theorem mem_of_encodes (hevent : (t.info record).event = .rmw) (h : t.Encodes ρ record v) :
    v ∈ t.getValues (t.getStoreLoadSet record) := by
  have hknown := h.encodable
  unfold EncodingTables.Encodable at hknown
  simpa [hevent] using hknown

theorem exists_memValueEncoding (hevent : (t.info record).event = .rmw)
    (h : v ∈ t.getValues (t.getStoreLoadSet record)) :
    ∃ c, t.getMemValueEncoding record v = some c ∧ c.implicationFree = true ∧
      ∀ ρ, eval ρ c = true ↔ t.Writes ρ record v := by
  obtain ⟨c, hc, hfree, heval⟩ := EncodingTables.eval_valueEncoding (t.valVars record) h
  refine ⟨c, ?_, hfree, fun ρ => ?_⟩
  · unfold getMemValueEncoding
    simp [hevent, hc]
  · rw [heval]
    exact ⟨fun hcode => ⟨h, hcode⟩, fun hcode => hcode.2⟩

theorem Writes.unique (h : t.Writes ρ record v) (h' : t.Writes ρ record w) : v = w :=
  (List.idxOf_inj h.1).mp (h.2.symm.trans h'.2)

theorem writes_of_equiv (hevent : (t.info record).event = .rmw) (hread : t.Encodes ρ record v)
    (heq : code ρ (t.getValVars record) = code ρ (t.getRMWRValVars record)) :
    t.Writes ρ record v := by
  unfold EncodingTables.Encodes EncodingTables.readVars at hread
  simp only [hevent, if_true] at hread
  exact ⟨hread.1, heq.trans hread.2⟩

end MemoryTables

end SatCheck
