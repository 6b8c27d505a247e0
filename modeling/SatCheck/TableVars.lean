import SatCheck.LoadRF
import SatCheck.ConstraintVars
/-!
# The variables of the memory constraints

The constraints for a read and for its addresses have the variables of the tables and those of the
read itself, and none that is taken later.
-/

namespace SatCheck

open Constraint

namespace MemoryTables

variable {R : Type} (t : MemoryTables R)

structure TableVars (p : Nat → Bool) : Prop where
  equals : ∀ r, p (t.equalstable r) = true
  functions : ∀ r, ∀ v ∈ t.functiontable r, p v = true
  values : ∀ r, ∀ v ∈ t.getValVars r, p v = true
  reads : ∀ r, ∀ v ∈ t.getRMWRValVars r, p v = true
  branches : ∀ r, ∀ v ∈ t.branchtable r, p v = true
  addresses : ∀ r, ∀ v ∈ t.getAddrVars r, p v = true
  order : ∀ first second, varsAll p (t.getOrderConstraint first second) = true

/-- The variables of a constraint have the property; a missing constraint has none. -/
def AllVars (p : Nat → Bool) (c : Option Constraint) : Prop := ∀ d, c = some d → varsAll p d = true

variable {t} {p : Nat → Bool} {ρ ρ' : Nat → Bool} {record : R}

theorem AllVars.some {c : Constraint} (h : varsAll p c = true) : AllVars p (some c) := by
  rintro d ⟨⟩
  exact h

theorem AllVars.map {c : Option Constraint} {f : Constraint → Constraint} (h : AllVars p c)
    (hf : ∀ d, varsAll p (f d) = varsAll p d) : AllVars p (c.map f) := by
  intro d hd
  obtain ⟨e, he, rfl⟩ := Option.map_eq_some_iff.mp hd
  rw [hf]
  exact h e he

theorem AllVars.both {l r : Option Constraint} (hl : AllVars p l) (hr : AllVars p r) :
    AllVars p (both l r) := by
  intro d hd
  obtain ⟨l', hl', hd⟩ := Option.bind_eq_some_iff.mp hd
  obtain ⟨r', hr', rfl⟩ := Option.map_eq_some_iff.mp hd
  simp [hl l' hl', hr r' hr']

theorem AllVars.imply {l r : Option Constraint} (hl : AllVars p l) (hr : AllVars p r) :
    AllVars p (EncodingTables.imply l r) := by
  intro d hd
  obtain ⟨l', hl', hd⟩ := Option.bind_eq_some_iff.mp hd
  obtain ⟨r', hr', rfl⟩ := Option.map_eq_some_iff.mp hd
  simp [hl l' hl', hr r' hr']

theorem AllVars.conj {array : List (Option Constraint)} (h : ∀ c ∈ array, AllVars p c) :
    AllVars p (conj array) := by
  intro d hd
  obtain ⟨cs, hcs, rfl⟩ := Option.map_eq_some_iff.mp hd
  rw [varsAll_and, List.all_eq_true]
  exact fun c hc => h _ (BranchTables.mem_of_mapM_id hcs hc) c rfl

theorem added_congr {cs : List (Option Constraint)} (h : Added ρ cs)
    (hvars : ∀ c ∈ cs, AllVars p c) (hagree : ∀ v, p v = true → ρ v = ρ' v) : Added ρ' cs := by
  intro c hc
  rw [← addConstraint_congr hagree (hvars _ hc c rfl)]
  exact h c hc

theorem allVars_valueEncoding {set : List UInt64} {vars : List Nat} (h : ∀ v ∈ vars, p v = true)
    (value : UInt64) : AllVars p (EncodingTables.valueEncoding set vars value) := by
  unfold EncodingTables.valueEncoding
  intro d hd
  split_ifs at hd
  · obtain rfl := Option.some.inj hd
    rfl
  · obtain rfl := Option.some.inj hd
    exact varsAll_generateConstraint h _

theorem allVars_getBranch (t : BranchTables R) {branchval : R × UInt64}
    (h : ∀ v ∈ t.branchtable branchval.1, p v = true) : AllVars p (t.getBranch branchval) := by
  unfold BranchTables.getBranch
  split_ifs
  · exact AllVars.some (varsAll_generateConstraint h _)
  · rintro d ⟨⟩

/-- An execution constraint has the variables of the branches of the record and of its exits. -/
theorem allVars_getExecutionConstraint (t : BranchTables R) {r : R}
    (hexits : ∀ exit ∈ t.execcondtable r, ∀ branchval, t.branch exit = some branchval →
      ∀ v ∈ t.branchtable branchval.1, p v = true)
    (hbranch : ∀ branchval, t.branch r = some branchval →
      ∀ v ∈ t.branchtable branchval.1, p v = true) :
    AllVars p (t.getExecutionConstraint r) := by
  have hconditions : ∀ c ∈ t.conditions r, AllVars p c := by
    intro c hc
    rcases List.mem_append.mp hc with hc | hc
    · obtain ⟨exit, hexit, rfl⟩ := List.mem_map.mp hc
      intro d hd
      obtain ⟨recbranch, hrec, hget⟩ := Option.bind_eq_some_iff.mp hd
      exact (allVars_getBranch t (hexits exit hexit recbranch hrec)).map (varsAll_negate p) d hget
    · obtain ⟨branchval, hmem, rfl⟩ := List.mem_map.mp hc
      exact allVars_getBranch t (hbranch branchval (Option.mem_toList.mp hmem))
  intro d hd
  obtain ⟨array, harray, rfl⟩ := Option.map_eq_some_iff.mp hd
  have hall : ∀ c ∈ array, varsAll p c = true :=
    fun c hc => hconditions _ (BranchTables.mem_of_mapM_id harray hc) c rfl
  split
  · rfl
  · exact hall _ List.mem_cons_self
  · rw [varsAll_and, List.all_eq_true]
    exact hall

namespace TableVars

theorem getRetValueEncoding (h : t.TableVars p) (r : R) (value : UInt64) :
    AllVars p (t.getRetValueEncoding r value) := by
  unfold EncodingTables.getRetValueEncoding
  split
  · apply AllVars.some
    split_ifs
    · exact h.equals r
    · exact h.equals r
  · unfold EncodingTables.functionEncoding
    split_ifs
    · exact AllVars.some (varsAll_generateConstraint (h.functions r) _)
    · rintro d ⟨⟩
  · exact allVars_valueEncoding (h.values r) value
  · exact allVars_valueEncoding (h.reads r) value
  · rintro d ⟨⟩

theorem getExecutionConstraint (h : t.TableVars p) (r : R) :
    AllVars p (t.getExecutionConstraint r) :=
  allVars_getExecutionConstraint t.toBranchTables (fun _ _ branchval _ => h.branches branchval.1)
    fun branchval _ => h.branches branchval.1

theorem readVars (h : t.TableVars p) (r : R) : ∀ v ∈ t.readVars r, p v = true := by
  unfold EncodingTables.readVars
  split_ifs
  · exact h.reads r
  · exact h.values r

theorem encodes_congr (h : t.TableVars p) (hagree : ∀ v, p v = true → ρ v = ρ' v) {r : R}
    {value : UInt64} (hvalue : t.Encodes ρ r value) : t.Encodes ρ' r value := by
  unfold EncodingTables.Encodes at hvalue ⊢
  cases hevent : (t.info r).event <;> simp only [hevent] at hvalue ⊢
  · rwa [← code_congr_vars hagree (h.readVars r)]
  · rwa [← code_congr_vars hagree (h.readVars r)]
  · rwa [← code_congr_vars hagree (h.functions r)]
  · rwa [← hagree _ (h.equals r)]

theorem loadRF (h : t.TableVars p) (hrf : ∀ v ∈ t.rfVars record, p v = true) :
    ∀ c ∈ t.loadRF record, AllVars p c := by
  have hequiv : ∀ {var1 var2 : List Nat}, (∀ v ∈ var1, p v = true) → (∀ v ∈ var2, p v = true) →
      varsAll p (generateEquivConstraint var1 var2) = true := varsAll_generateEquivConstraint
  have hrfconst := varsAll_generateConstraint hrf
  intro c hc
  rcases List.mem_append.mp hc with hc | hc
  · obtain ⟨⟨store, storeindex⟩, -, hc⟩ := List.mem_flatMap.mp hc
    rcases List.mem_cons.mp hc with rfl | hc
    · -- `storeaddressmatch`
      apply AllVars.imply
      · apply AllVars.some
        split_ifs
        · rfl
        · exact hrfconst storeindex
      · apply AllVars.conj
        simp only [List.forall_mem_cons]
        exact ⟨.some (h.order _ _), .some (hequiv (h.readVars _) (h.values _)),
          h.getExecutionConstraint _, .some (hequiv (h.addresses _) (h.addresses _)), by simp⟩
    · -- `confstore`
      obtain ⟨conflictstore, -, hc⟩ := List.mem_flatMap.mp hc
      unfold confstore at hc
      simp only at hc
      split_ifs at hc
      · simp at hc
      · obtain rfl := List.mem_singleton.mp hc
        apply AllVars.imply
        · apply AllVars.conj
          simp only [List.forall_mem_cons]
          exact ⟨.some (h.order _ _), .some (h.order _ _), .some (hrfconst _),
            h.getExecutionConstraint _, by simp⟩
        · apply AllVars.some
          rw [varsAll_negate]
          exact hequiv (h.addresses _) (h.addresses _)
  · obtain rfl := List.mem_singleton.mp hc
    exact (h.getExecutionConstraint record).imply (.some (varsAll_generateLTConstraint hrf _))

theorem processAddresses (h : t.TableVars p) : ∀ c ∈ t.processAddresses record, AllVars p c := by
  intro c hc
  have haddr : ∀ addr, AllVars p (t.getAddressEncoding record addr) :=
    fun addr => allVars_valueEncoding (h.addresses record) addr
  unfold MemoryTables.processAddresses at hc
  cases hdep : t.getRevDependences record vcAddrIndex with
  | none =>
    rw [hdep] at hc
    obtain rfl := List.mem_singleton.mp hc
    exact haddr _
  | some src =>
    rw [hdep] at hc
    obtain ⟨addr, -, rfl⟩ := List.mem_map.mp hc
    exact (h.getRetValueEncoding _ _).imply (haddr _)

end TableVars

end MemoryTables

end SatCheck
