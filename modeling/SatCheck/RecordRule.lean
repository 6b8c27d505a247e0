import SatCheck.ThreadControl
/-!
# Properties of single records

Recording creates records, links them and adds directions to them.  What these three keep for
one record holds for all records of all runs.
-/

namespace SatCheck

namespace Recorder

/-- A property that a new record has and that no step takes from a record. -/
structure Rule (P : EPRecord → Prop) : Prop where
  created : ∀ et branch numinputs, P ⟨et, branch, numinputs, none, none, []⟩
  next : ∀ r x, P r → P { r with nextRecord := some x }
  child : ∀ r x, P r → P { r with childRecord := some x }
  value : ∀ r v, P r → P { r with valuevector := HashSet.add r.valuevector v }

variable {P : EPRecord → Prop} {s : Recorder}

def AllRecords (P : EPRecord → Prop) (s : Recorder) : Prop :=
  ∀ ep r, s.records ep = some r → P r

theorem AllRecords.congr (h : s.AllRecords P) {s' : Recorder} (hs : s'.records = s.records) :
    s'.AllRecords P := by
  unfold AllRecords
  rwa [hs]

theorem AllRecords.incrementTop (h : s.AllRecords P) (tid : Nat) :
    (s.incrementTop tid).AllRecords P := h.congr rfl

theorem AllRecords.update (h : s.AllRecords P) (record : ExecPoint) (f : EPRecord → EPRecord)
    (hf : ∀ r, P r → P (f r)) :
    AllRecords P { s with
      records := Function.update s.records record ((s.records record).map f) } := by
  intro ep r hr
  by_cases hep : ep = record
  · subst hep
    obtain ⟨r', hr', rfl⟩ : ∃ r', s.records ep = some r' ∧ f r' = r := by simpa using hr
    exact hf r' (h ep r' hr')
  · exact h ep r (by simpa [hep] using hr)

theorem AllRecords.getOrCreateCurrRecord (h : s.AllRecords P) (hrule : Rule P) (tid : Nat)
    (et : EventType) (numinputs : Nat) :
    (s.getOrCreateCurrRecord tid et numinputs).AllRecords P := by
  have hcreate : (s.createRecord tid et numinputs).AllRecords P := by
    unfold createRecord
    split
    · exact h
    · intro ep r hr
      by_cases hep : ep = s.execpoint tid
      · subst hep
        obtain rfl : _ = r := by simpa using hr
        exact hrule.created et _ numinputs
      · exact h ep r (by simpa [hep] using hr)
  have hlink : ((s.createRecord tid et numinputs).linkNoted tid et).AllRecords P := by
    unfold linkNoted link
    split_ifs
    · split
      · exact hcreate
      · exact hcreate.update _ _ fun r => hrule.next r _
    · exact hcreate
  rw [getOrCreateCurrRecord_eq]
  exact hlink.congr rfl

theorem AllRecords.exec (h : s.AllRecords P) (hrule : Rule P) (tid : Nat) (call : Annotation) :
    (s.exec tid call).AllRecords P := by
  cases call with
  | event et numinputs => exact (h.getOrCreateCurrRecord hrule tid et numinputs).congr rfl
  | threadCreate => exact (h.getOrCreateCurrRecord hrule tid .threadcreate 0).congr rfl
  | branchDir direction =>
    exact ((h.getOrCreateCurrRecord hrule tid .branchdir 1).update (s.execpoint tid) _
      fun r => hrule.value r direction).congr rfl
  | merge mcid =>
    show (s.merge tid mcid).AllRecords P
    unfold Recorder.merge
    split
    · exact h
    · apply AllRecords.incrementTop
      apply AllRecords.getOrCreateCurrRecord _ hrule
      exact h.congr rfl
  | enterLoop =>
    have hloop : AllRecords P (((s.getOrCreateCurrRecord tid .loopenter 0).setExecPoint tid
        (((s.execpoint tid).push .loop 0).push .counter 0)).getOrCreateCurrRecord
          tid .loopstart 0) := by
      apply AllRecords.getOrCreateCurrRecord _ hrule
      exact (h.getOrCreateCurrRecord hrule tid .loopenter 0).congr rfl
    exact (hloop.update (s.execpoint tid) _ fun r => hrule.child r _).congr rfl
  | exitLoop =>
    have hbreak : (s.breakLoop tid).AllRecords P := by
      unfold breakLoop
      simp only
      exact (h.getOrCreateCurrRecord hrule tid _ 0).congr (popLoop_records _ tid _)
    have hlabel : ∀ s : Recorder, s.AllRecords P → ∀ breakstate,
        (s.labelLoop tid breakstate).AllRecords P := by
      intro s h breakstate
      have hrecord := AllRecords.getOrCreateCurrRecord (s := s.incrementTop tid) (h.congr rfl)
        hrule tid .label 0
      unfold labelLoop
      simp only
      split_ifs
      · exact ((hrecord.update _ _ fun r => hrule.next r _).update breakstate _
          fun r => hrule.next r _).congr rfl
      · exact (hrecord.update breakstate _ fun r => hrule.next r _).congr rfl
    exact hlabel _ hbreak _
  | loopIterate => exact h.congr rfl
  | threadStart parent =>
    have hrecord := h.getOrCreateCurrRecord hrule tid .threadbegin 0
    cases parent with
    | none => exact hrecord.congr rfl
    | some parent => exact (hrecord.update parent _ fun r => hrule.child r _).congr rfl

private theorem allRecords_runs (hrule : Rule P) (executions : List (List (Nat × Annotation))) :
    (empty.runs executions).AllRecords P := by
  have hrun : ∀ (calls : List (Nat × Annotation)) (s : Recorder), s.AllRecords P →
      (s.run calls).AllRecords P := by
    intro calls s h
    have hfoldl : ∀ s : Recorder, s.AllRecords P →
        (calls.foldl (fun s call => s.exec call.1 call.2) s).AllRecords P := by
      induction calls with
      | nil => exact fun _ h => h
      | cons call calls ih => exact fun s h => ih _ (h.exec hrule call.1 call.2)
    exact hfoldl _ (h.congr rfl)
  have hruns : ∀ s : Recorder, s.AllRecords P → (s.runs executions).AllRecords P := by
    induction executions with
    | nil => exact fun _ h => h
    | cons calls executions ih => exact fun s h => ih _ (hrun calls s h)
  exact hruns _ (by simp [AllRecords, empty])

theorem nodup_valuevector (executions : List (List (Nat × Annotation))) (len : ExecPoint → Nat)
    (first record : ExecPoint) :
    (((empty.runs executions).graph len first).valuevector record).Nodup := by
  have hrule : Rule fun r => r.valuevector.Nodup := by
    refine ⟨fun _ _ _ => List.nodup_nil, fun r x h => h, fun r x h => h, fun r v h => ?_⟩
    unfold HashSet.add
    split_ifs with hv
    · exact h
    · exact List.nodup_append.mpr ⟨h, List.pairwise_singleton _ v, by
        rintro x hx y hy rfl
        obtain rfl := List.mem_singleton.mp hy
        exact hv hx⟩
  unfold EventGraph.valuevector
  cases hr : (empty.runs executions).records record with
  | none => simp [graph, hr]
  | some r => simpa [graph, hr] using allRecords_runs hrule executions record r hr

end Recorder

end SatCheck
