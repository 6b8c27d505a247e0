import SatCheck.RecordedGraph
import SatCheck.Site
import Mathlib.Data.Set.Insert
/-!
# The log of the event graph

Recording adds entries to the event graph and never takes one back, so the graph is known
from the entries as soon as no two of them disagree.
-/

namespace SatCheck

inductive GraphEntry where
  | record (ep : ExecPoint) (event : EventType)
  | next (ep next : ExecPoint)
  | child (ep child : ExecPoint)
  | first (branch : EPValue) (ep : ExecPoint)
  | value (ep : ExecPoint) (value : Nat)
  deriving DecidableEq

theorem log_cons (log : Set GraphEntry) (e : GraphEntry) (added : List GraphEntry) :
    log ∪ {x | x ∈ e :: added} = insert e log ∪ {x | x ∈ added} := by
  ext x
  simp [or_left_comm, or_assoc]

theorem log_nil (log : Set GraphEntry) : log ∪ {x | x ∈ ([] : List GraphEntry)} = log := by
  simp

theorem log_append (log : Set GraphEntry) (added added' : List GraphEntry) :
    log ∪ {x | x ∈ added ++ added'} = (log ∪ {x | x ∈ added}) ∪ {x | x ∈ added'} := by
  ext x
  simp [or_assoc]

/-! ## A graph that follows a log -/

namespace EventGraph

variable (g : EventGraph)

def Holds : GraphEntry → Prop
  | .record ep event => g.getType ep = some event
  | .next ep next => g.getNextRecord ep = some next
  | .child ep child => g.getChildRecord ep = some child
  | .first branch ep => g.firstrecord branch = some ep
  | .value ep value => value ∈ g.valuevector ep

def Decides : GraphEntry → Prop
  | .record ep _ => g.getType ep ≠ none
  | .next ep _ => g.getNextRecord ep ≠ none
  | .child ep _ => g.getChildRecord ep ≠ none
  | .first branch _ => g.firstrecord branch ≠ none
  | .value ep value => value ∈ g.valuevector ep

/-- Every entry of the graph is in the log, and the graph has one for the place of each entry
of the log. -/
structure Logged (log : Set GraphEntry) : Prop where
  mem : ∀ e, g.Holds e → e ∈ log
  decides : ∀ e ∈ log, g.Decides e

variable {g} {g' : EventGraph} {log : Set GraphEntry} {e : GraphEntry}

theorem Logged.extend (h : g.Logged log) (hholds : ∀ e', g'.Holds e' → g.Holds e' ∨ e' = e)
    (hkept : ∀ e', g.Decides e' → g'.Decides e') (hnew : g'.Decides e) :
    g'.Logged (insert e log) where
  mem e' he' := (hholds e' he').elim (fun hold => Or.inr (h.mem e' hold)) Or.inl
  decides e' he' := by
    rcases he' with rfl | he'
    · exact hnew
    · exact hkept e' (h.decides e' he')

theorem Logged.extend_decided (h : g.Logged log) (he : g.Decides e) : g.Logged (insert e log) :=
  h.extend (fun _ => Or.inl) (fun _ => id) he

/-- Two entries of a log that decide the same place, as far as the graph can tell. -/
theorem Logged.getNextRecord (h : g.Logged log) {a b : ExecPoint} (hab : .next a b ∈ log)
    (hunique : ∀ c, .next a c ∈ log → c = b) : g.getNextRecord a = some b := by
  obtain ⟨c, hc⟩ := Option.ne_none_iff_exists'.mp (h.decides _ hab)
  rw [hc, hunique c (h.mem (.next a c) hc)]

theorem Logged.getNextRecord_none (h : g.Logged log) {a : ExecPoint}
    (hnone : ∀ c, .next a c ∉ log) : g.getNextRecord a = none := by
  cases hc : g.getNextRecord a with
  | none => rfl
  | some c => exact absurd (h.mem (.next a c) hc) (hnone c)

theorem Logged.getChildRecord (h : g.Logged log) {a b : ExecPoint} (hab : .child a b ∈ log)
    (hunique : ∀ c, .child a c ∈ log → c = b) : g.getChildRecord a = some b := by
  obtain ⟨c, hc⟩ := Option.ne_none_iff_exists'.mp (h.decides _ hab)
  rw [hc, hunique c (h.mem (.child a c) hc)]

theorem Logged.getType (h : g.Logged log) {a : ExecPoint} {et : EventType}
    (ha : .record a et ∈ log) (hunique : ∀ et', .record a et' ∈ log → et' = et) :
    g.getType a = some et := by
  obtain ⟨et', het⟩ := Option.ne_none_iff_exists'.mp (h.decides _ ha)
  rw [het, hunique et' (h.mem (.record a et') het)]

theorem Logged.firstrecord (h : g.Logged log) {branch : EPValue} {a : ExecPoint}
    (ha : .first branch a ∈ log) (hunique : ∀ c, .first branch c ∈ log → c = a) :
    g.firstrecord branch = some a := by
  obtain ⟨c, hc⟩ := Option.ne_none_iff_exists'.mp (h.decides _ ha)
  rw [hc, hunique c (h.mem (.first branch c) hc)]

theorem Logged.firstrecord_none (h : g.Logged log) {branch : EPValue}
    (hnone : ∀ c, .first branch c ∉ log) : g.firstrecord branch = none := by
  cases hc : g.firstrecord branch with
  | none => rfl
  | some c => exact absurd (h.mem (.first branch c) hc) (hnone c)

end EventGraph

/-! ## What the recorder adds -/

namespace Recorder

/-- The graph of the records follows the log; no entry is about the length of a branch or the
first record. -/
def Logged (s : Recorder) (log : Set GraphEntry) : Prop :=
  ∀ len first, (s.graph len first).Logged log

variable {s s' : Recorder} {log : Set GraphEntry} {a b : ExecPoint}

theorem Logged.congr (h : s.Logged log) (hrecords : s'.records = s.records)
    (hfirst : s'.firstrecord = s.firstrecord) : s'.Logged log := by
  intro len first
  have := h len first
  unfold graph at this ⊢
  rwa [hrecords, hfirst]

/-- A record that keeps its links and directions and gets the one of `e`. -/
theorem Logged.update {r r' : EPRecord} {e : GraphEntry} (h : s.Logged log)
    (ha : s.records a = some r) (hevent : r'.event = r.event)
    (hnext : ∀ x, r'.nextRecord = some x → r.nextRecord = some x ∨ .next a x = e)
    (hchild : ∀ x, r'.childRecord = some x → r.childRecord = some x ∨ .child a x = e)
    (hvalue : ∀ x ∈ r'.valuevector, x ∈ r.valuevector ∨ .value a x = e)
    (hnext' : r.nextRecord ≠ none → r'.nextRecord ≠ none)
    (hchild' : r.childRecord ≠ none → r'.childRecord ≠ none)
    (hvalue' : ∀ x ∈ r.valuevector, x ∈ r'.valuevector)
    (hnew : ∀ len first, EventGraph.Decides
      (graph { s with records := Function.update s.records a (some r') } len first) e) :
    Logged { s with records := Function.update s.records a (some r') } (insert e log) := by
  intro len first
  have hfield : ∀ ep, Function.update s.records a (some r') ep =
      if ep = a then some r' else s.records ep := fun ep => Function.update_apply ..
  apply (h len first).extend
  · intro e he
    cases e with
    | first branch ep => exact Or.inl he
    | record ep et =>
      simp only [EventGraph.Holds, EventGraph.getType, graph, hfield] at he ⊢
      split_ifs at he with hep
      · left
        subst hep
        simpa [ha, ← hevent] using he
      · exact Or.inl he
    | next ep x =>
      simp only [EventGraph.Holds, EventGraph.getNextRecord, graph, hfield] at he ⊢
      split_ifs at he with hep
      · subst hep
        simpa [ha] using hnext x he
      · exact Or.inl he
    | child ep x =>
      simp only [EventGraph.Holds, EventGraph.getChildRecord, graph, hfield] at he ⊢
      split_ifs at he with hep
      · subst hep
        simpa [ha] using hchild x he
      · exact Or.inl he
    | value ep x =>
      simp only [EventGraph.Holds, EventGraph.valuevector, graph, hfield] at he ⊢
      split_ifs at he with hep
      · subst hep
        simpa [ha] using hvalue x he
      · exact Or.inl he
  · intro e he
    cases e with
    | first branch ep => exact he
    | _ ep =>
      simp only [EventGraph.Decides, EventGraph.getType, EventGraph.getNextRecord,
        EventGraph.getChildRecord, EventGraph.valuevector, graph, hfield] at he ⊢
      split_ifs with hep
      · subst hep
        simp_all
      · exact he
  · exact hnew len first

theorem logged_setNextRecord (h : s.Logged log) (ha : s.records a ≠ none) :
    (s.setNextRecord a b).Logged (insert (.next a b) log) := by
  obtain ⟨r, hr⟩ := Option.ne_none_iff_exists'.mp ha
  unfold setNextRecord
  rw [hr]
  apply h.update hr <;> simp [EventGraph.Decides, EventGraph.getNextRecord, graph, eq_comm]

/-- `exitLoop` sets the link to the label unless there is one. -/
def linkLabel (s : Recorder) (loopenter label : ExecPoint) : Recorder :=
  if (s.records loopenter).bind EPRecord.nextRecord = none then s.setNextRecord loopenter label
  else s

theorem logged_linkLabel (h : s.Logged log) (ha : s.records a ≠ none) :
    (s.linkLabel a b).Logged (insert (.next a b) log) := by
  unfold linkLabel
  split_ifs with hnext
  · exact logged_setNextRecord h ha
  · exact fun len first => (h len first).extend_decided hnext

theorem logged_setChildRecord (h : s.Logged log) (ha : s.records a ≠ none) :
    (s.setChildRecord a b).Logged (insert (.child a b) log) := by
  obtain ⟨r, hr⟩ := Option.ne_none_iff_exists'.mp ha
  unfold setChildRecord
  rw [hr]
  apply h.update hr <;> simp [EventGraph.Decides, EventGraph.getChildRecord, graph, eq_comm]

theorem logged_addEPValue {v : Nat} (h : s.Logged log) (ha : s.records a ≠ none) :
    (s.addEPValue a v).Logged (insert (.value a v) log) := by
  obtain ⟨r, hr⟩ := Option.ne_none_iff_exists'.mp ha
  unfold addEPValue
  rw [hr]
  apply h.update hr <;> simp +contextual [EventGraph.Decides, EventGraph.valuevector, graph]

theorem logged_setFirst {v : EPValue} (h : s.Logged log) :
    Logged { s with firstrecord := Function.update s.firstrecord v (some a) }
      (insert (.first v a) log) := by
  intro len first
  apply (h len first).extend
  · intro e he
    cases e with
    | first branch ep =>
      simp only [EventGraph.Holds, graph, Function.update_apply] at he ⊢
      split_ifs at he with hbranch
      · right
        rw [hbranch, Option.some_inj.mp he]
      · exact Or.inl he
    | _ => exact Or.inl he
  · intro e he
    cases e with
    | first branch ep =>
      simp only [EventGraph.Decides, graph, Function.update_apply] at he ⊢
      split_ifs
      · simp
      · exact he
    | _ => exact he
  · simp [EventGraph.Decides, graph]

theorem logged_createRecord (h : s.Logged log) (tid : Nat) (et : EventType) (numinputs : Nat) :
    (s.createRecord tid et numinputs).Logged (insert (.record (s.execpoint tid) et) log) := by
  intro len first
  unfold createRecord
  cases hr : s.records (s.execpoint tid) with
  | some r =>
    apply (h len first).extend_decided
    simp [EventGraph.Decides, EventGraph.getType, graph, hr]
  | none =>
    apply (h len first).extend
    · intro e he
      cases e with
      | first branch ep => exact Or.inl he
      | _ ep =>
        rcases eq_or_ne ep (s.execpoint tid) with rfl | hep <;>
          simp_all [EventGraph.Holds, EventGraph.getType, EventGraph.getNextRecord,
            EventGraph.getChildRecord, EventGraph.valuevector, graph]
    · intro e he
      cases e with
      | first branch ep => exact he
      | _ ep =>
        rcases eq_or_ne ep (s.execpoint tid) with rfl | hep <;>
          simp_all [EventGraph.Decides, EventGraph.getType, EventGraph.getNextRecord,
            EventGraph.getChildRecord, EventGraph.valuevector, graph]
    · simp [EventGraph.Decides, EventGraph.getType, graph]

end Recorder

end SatCheck
