import SatCheck.TraverseOrder
/-!
# Records outside all branches

A record that no branch is around is comparable with every record of its thread, so it keeps
apart what the traversal comes to before it and behind it.
-/

namespace SatCheck

namespace ExecPoint

/-- Two comparisons make one where the middle stack has no branch, and the first one has none
where the middle one goes on. -/
theorem comparePairs_trans {ps fs ls : List (ExecPointType × Nat)}
    (happart : ∀ pre v a pre' p b, ps = pre ++ (.branch, v) :: a → fs = pre' ++ p :: b →
      pre.map Prod.snd ≠ pre'.map Prod.snd)
    (hfs : ∀ p ∈ fs, p.1 ≠ .branch)
    (hpf : comparePairs ps fs = .after ∨ comparePairs ps fs = .incomparable)
    (hfl : comparePairs fs ls = .after ∨ comparePairs fs ls = .incomparable) :
    comparePairs ps ls = .after := by
  induction ps generalizing fs ls with
  | nil =>
    cases fs with
    | nil => simp [comparePairs] at hpf
    | cons q fs =>
      cases ls with
      | nil => simp [comparePairs] at hfl
      | cons r ls => rfl
  | cons p ps ih =>
    obtain ⟨type, v⟩ := p
    cases fs with
    | nil => simp [comparePairs] at hpf
    | cons q fs =>
      obtain ⟨type', v'⟩ := q
      cases ls with
      | nil => simp [comparePairs] at hfl
      | cons r ls =>
        obtain ⟨type'', v''⟩ := r
        have hp : type ≠ .branch := by
          rintro rfl
          exact happart [] v ps [] _ fs rfl rfl rfl
        have hq : type' ≠ .branch := hfs (type', v') List.mem_cons_self
        simp only [comparePairs, hp, hq, if_false] at hpf hfl ⊢
        by_cases hvv : v = v'
        · subst hvv
          by_cases hvv : v = v''
          · subst hvv
            simp only [ne_eq, not_true_eq_false, if_false] at hpf hfl ⊢
            refine ih ?_ (fun p hp => hfs p (List.mem_cons_of_mem _ hp)) hpf hfl
            intro pre w a pre' p b hps hfs heq
            apply happart ((type, v) :: pre) w a ((type', v) :: pre') p b
            · rw [hps, List.cons_append]
            · rw [hfs, List.cons_append]
            · simp [heq]
          · simp only [ne_eq, hvv, not_false_eq_true, if_true] at hfl ⊢
            exact hfl.resolve_right (by split_ifs <;> simp)
        · simp only [ne_eq, hvv, not_false_eq_true, if_true] at hpf
          have hlt : v < v' := by
            by_contra hnot
            simp [hnot] at hpf
          have hle : v' ≤ v'' := by
            by_contra hnot
            have hne : v' ≠ v'' := by omega
            simp [hne, show ¬ v' < v'' by omega] at hfl
          simp [show v ≠ v'' by omega, show v < v'' by omega]

end ExecPoint

namespace Path

variable (code : Code)

def Typed (path : Path) : Prop :=
  (∀ b ∈ path.branches, code.type b = some .branchdir) ∧
    ∀ l ∈ path.loops, code.type l = some .loopenter

variable {code} {path path' : Path}

theorem Typed.tail {f : Frame} (h : Typed code (f :: path)) : Typed code path := by
  cases f with
  | arm n d => exact ⟨fun b hb => h.1 b (List.mem_cons_of_mem _ hb), h.2⟩
  | loop n i => exact ⟨h.1, fun l hl => h.2 l (List.mem_cons_of_mem _ hl)⟩

theorem Typed.of_append {inner : Path} (h : Typed code (inner ++ path)) : Typed code path := by
  induction inner with
  | nil => exact h
  | cons f inner ih => exact ih h.tail

theorem mem_branches_append (inner : Path) {b : Site} (h : b ∈ branches path) :
    b ∈ branches (inner ++ path) := by
  induction inner with
  | nil => exact h
  | cons f inner ih =>
    cases f with
    | arm n d => exact List.mem_cons_of_mem _ ih
    | loop n i => exact ih

theorem length_entries (path : Path) : path.entries.length = 2 * path.length := by
  induction path with
  | nil => rfl
  | cons f path ih =>
    simp [ih]
    omega

theorem Typed.eq_of_values (h : Typed code path) (h' : Typed code path')
    (hvalues : path.entries.map Prod.snd = path'.entries.map Prod.snd) : path = path' := by
  induction path generalizing path' with
  | nil =>
    have := congrArg List.length hvalues
    rw [List.length_map, List.length_map, length_entries, length_entries] at this
    cases path' with
    | nil => rfl
    | cons f path' => simp at this
  | cons f path ih =>
    cases path' with
    | nil =>
      have := congrArg List.length hvalues
      rw [List.length_map, List.length_map, length_entries, length_entries] at this
      simp at this
    | cons f' path' =>
      rw [entries_cons, entries_cons, List.map_append, List.map_append] at hvalues
      obtain ⟨hpath, hframe⟩ := List.append_inj' hvalues (by simp)
      obtain rfl := ih h.tail h'.tail hpath
      cases f with
      | arm n d =>
        cases f' with
        | arm n' d' => simp_all [Frame.entries]
        | loop n' i' =>
          obtain ⟨rfl, -⟩ : n = n' ∧ d = i' := by simpa [Frame.entries] using hframe
          have hbranch := h.1 ⟨path, n⟩ (by simp [branches])
          have hloop := h'.2 ⟨path, n⟩ (by simp [loops])
          simp [hbranch] at hloop
      | loop n i =>
        cases f' with
        | arm n' d' =>
          obtain ⟨rfl, -⟩ : n = n' ∧ i = d' := by simpa [Frame.entries] using hframe
          have hloop := h.2 ⟨path, n⟩ (by simp [loops])
          have hbranch := h'.1 ⟨path, n⟩ (by simp [branches])
          simp [hbranch] at hloop
        | loop n' i' => simp_all [Frame.entries]

theorem exists_arm {n v : Nat} {tail pre a : List (ExecPointType × Nat)}
    (h : path.entries ++ (.counter, n) :: tail = pre ++ (.branch, v) :: a) :
    (∃ inner m below, path = inner ++ .arm m v :: below ∧
      pre = entries below ++ [(.counter, m)]) ∨
    ∃ rest, tail = rest ++ (.branch, v) :: a := by
  induction path generalizing n tail with
  | nil =>
    cases pre with
    | nil => simp at h
    | cons p pre =>
      rw [entries_nil, List.nil_append, List.cons_append, List.cons_eq_cons] at h
      exact Or.inr ⟨pre, h.2⟩
  | cons f path ih =>
    have hf : ∃ m type w, f.entries = [(.counter, m), (type, w)] ∧
        (type = .branch → f = .arm m w) := by
      cases f with
      | arm m d => exact ⟨m, .branch, d, rfl, fun _ => rfl⟩
      | loop m i => exact ⟨m, .loop, i, rfl, fun hne => by simp at hne⟩
    obtain ⟨m, type, w, hentries, hbranch⟩ := hf
    rw [entries_cons, hentries, List.append_assoc, List.cons_append, List.cons_append,
      List.nil_append] at h
    rcases ih h with ⟨inner, m', below, rfl, hpre⟩ | ⟨rest, hrest⟩
    · exact Or.inl ⟨f :: inner, m', below, rfl, hpre⟩
    · cases rest with
      | nil =>
        obtain ⟨hframe, -⟩ := List.cons_eq_cons.mp hrest
        obtain ⟨rfl, rfl⟩ := Prod.mk.inj hframe
        refine Or.inl ⟨[], m, path, by rw [hbranch rfl, List.nil_append], ?_⟩
        refine List.append_cancel_right (?_ : _ ++ (ExecPointType.branch, w) :: a = _)
        rw [← h, hrest]
        simp
      | cons p rest =>
        obtain ⟨-, hrest⟩ := List.cons_eq_cons.mp hrest
        cases rest with
        | nil => simp at hrest
        | cons p rest => exact Or.inr ⟨rest, (List.cons_eq_cons.mp hrest).2⟩

theorem exists_frame {n m : Nat} {below : Path} {p : ExecPointType × Nat}
    {pre b : List (ExecPointType × Nat)} (h : path.entries ++ [(.counter, n)] = pre ++ p :: b)
    (hpre : pre.map Prod.snd = (entries below ++ [(ExecPointType.counter, m)]).map Prod.snd) :
    ∃ inner f under, path = inner ++ f :: under ∧
      (entries under).map Prod.snd = (entries below).map Prod.snd ∧
      ∃ w, f.entries.map Prod.snd = [m, w] := by
  have hlength := congrArg List.length h
  have hpreLength := congrArg List.length hpre
  simp only [List.length_append, List.length_map, List.length_cons, List.length_nil,
    length_entries] at hlength hpreLength
  have hsplit : ∃ inner f under, path = inner ++ f :: under ∧ under.length = below.length := by
    have hlt : path.length - below.length - 1 < path.length := by omega
    refine ⟨path.take (path.length - below.length - 1), path[path.length - below.length - 1],
      path.drop (path.length - below.length - 1 + 1), ?_, ?_⟩
    · rw [List.getElem_cons_drop, List.take_append_drop]
    · rw [List.length_drop]
      omega
  obtain ⟨inner, f, under, rfl, hunder⟩ := hsplit
  have hvalues := congrArg (List.map Prod.snd) h
  rw [entries_append, entries_cons] at hvalues
  simp only [List.map_append, List.append_assoc, hpre] at hvalues
  obtain ⟨hbelow, hrest⟩ := List.append_inj hvalues (by simp [length_entries, hunder])
  refine ⟨inner, f, under, rfl, hbelow, ?_⟩
  cases f with
  | arm k d =>
    simp only [Frame.entries, List.map_cons, List.map_nil, List.cons_append, List.cons.injEq]
      at hrest
    exact ⟨d, by simp [Frame.entries, hrest.1]⟩
  | loop k i =>
    simp only [Frame.entries, List.map_cons, List.map_nil, List.cons_append, List.cons.injEq]
      at hrest
    exact ⟨i, by simp [Frame.entries, hrest.1]⟩

end Path

namespace Site

variable {code : Code}

/-- Where the stack of a site outside all branches goes on, no other site is in a branch. -/
theorem apart_of_no_branches {s f : Site} (hs : Path.Typed code s.path)
    (hf : Path.Typed code f.path) (hbranches : f.path.branches = [])
    (pre : List (ExecPointType × Nat)) (v : Nat) (a pre' : List (ExecPointType × Nat))
    (p : ExecPointType × Nat) (b : List (ExecPointType × Nat))
    (hsplit : s.pairs = pre ++ (.branch, v) :: a) (hsplit' : f.pairs = pre' ++ p :: b) :
    pre.map Prod.snd ≠ pre'.map Prod.snd := by
  intro heq
  rcases Path.exists_arm hsplit with ⟨inner, m, below, hpath, rfl⟩ | ⟨rest, hrest⟩
  · obtain ⟨inner', f', under, hpath', hunder, w, hw⟩ := Path.exists_frame hsplit' heq.symm
    rw [hpath] at hs
    rw [hpath'] at hf hbranches
    have harm := hs.of_append
    have hframe := hf.of_append
    obtain rfl := hframe.tail.eq_of_values harm.tail hunder
    cases f' with
    | arm k d =>
      have hmem := Path.mem_branches_append inner'
        (show ⟨under, k⟩ ∈ Path.branches (.arm k d :: under) by
        simp [Path.branches])
      simp [hbranches] at hmem
    | loop k i =>
      obtain ⟨rfl, -⟩ : k = m ∧ i = w := by simpa [Frame.entries] using hw
      have hbranch := harm.1 ⟨under, k⟩ (by simp [Path.branches])
      have hloop := hframe.2 ⟨under, k⟩ (by simp [Path.loops])
      simp [hbranch] at hloop
  · simp at hrest

private theorem ne_branch_of_no_branches {f : Site} (h : f.path.branches = [])
    {p : ExecPointType × Nat} (hp : p ∈ f.pairs) : p.1 ≠ .branch := by
  have hpath : ∀ path : Path, path.branches = [] → ∀ p ∈ path.entries, p.1 ≠ .branch := by
    intro path
    induction path with
    | nil => simp
    | cons f path ih =>
      intro hnone p hp
      cases f with
      | arm n d => simp [Path.branches] at hnone
      | loop n i =>
        rcases List.mem_append.mp hp with hp | hp
        · exact ih hnone p hp
        · have hframe : p = (.counter, n) ∨ p = (.loop, i) := by simpa [Frame.entries] using hp
          rcases hframe with rfl | rfl <;> simp
  rcases List.mem_append.mp hp with hp | hp
  · exact hpath f.path h p hp
  · obtain rfl := List.mem_singleton.mp hp
    simp

end Site

/-- A record outside all branches has what comes before it before what comes behind it. -/
theorem compare_of_between {code : Code} {t : Nat} {s f : Site} {l : ExecPoint}
    (hs : Path.Typed code s.path) (hf : Path.Typed code f.path) (hbranches : f.path.branches = [])
    (hsf : InOrder (s.ep t) (f.ep t)) (hfl : InOrder (f.ep t) l) (hl : l.tid = t) :
    (s.ep t).compare l = .after :=
  ExecPoint.comparePairs_trans (Site.apart_of_no_branches hs hf hbranches)
    (fun _ hp => Site.ne_branch_of_no_branches hbranches hp) (hsf rfl) (hfl hl.symm)

/-! ## Records of a code -/

theorem Control.record_entries {k : Control} {call : Annotation} {tid : Nat} {s : Site}
    {et : EventType} (h : .record (s.ep tid) et ∈ k.entries tid call) :
    (s, et) ∈ k.notes call := by
  have harrive : .record (s.ep tid) et ∉ k.arrive tid := by
    unfold Control.arrive
    split <;> simp
  rcases List.mem_append.mp h with h | h
  · obtain ⟨note, hnote, heq⟩ := List.mem_map.mp h
    simp only [GraphEntry.record.injEq, Site.ep_inj, true_and] at heq
    obtain ⟨rfl, rfl⟩ := heq
    exact hnote
  · exfalso
    cases call with
    | event et' numinputs => exact harrive h
    | threadCreate => exact harrive h
    | merge mcid => simp [Control.links] at h
    | loopIterate => simp [Control.links] at h
    | _ => simp [Control.links, harrive] at h

theorem Code.Reaches.typed_record {code : Code} {k : Control} {tid : Nat} {calls : List Annotation}
    (h : code.Reaches k) (hruns : code.Runs k calls) {s : Site} {et : EventType}
    (hs : .record (s.ep tid) et ∈ k.log tid calls) : Path.Typed code s.path := by
  induction calls generalizing k with
  | nil => simp [Control.log] at hs
  | cons call calls ih =>
    obtain ⟨⟨i, hi, hallows⟩, hlegal, hrest⟩ := hruns
    rcases List.mem_append.mp hs with hs | hs
    · have hsite : Path.Typed code k.site.path := ⟨h.branches, h.loops⟩
      have hnote := Control.record_entries hs
      cases call with
      | merge mcid =>
        obtain ⟨b, hb, hmem⟩ := hlegal
        obtain ⟨rfl, -⟩ : s = b.next ∧ et = .merge := by simpa [Control.notes, hb] using hnote
        have hbranch := Path.mergeable_subset hmem
        exact ⟨fun c hc => hsite.1 c (Path.branches_subset hbranch hc),
          fun l hl => hsite.2 l (Path.loops_subset hbranch hl)⟩
      | enterLoop =>
        have hloop : code.type k.site = some .loopenter := by
          cases i <;> simp only [Instruction.Allows] at hallows
          simp [Code.type_of_free h.free, hi, Instruction.type]
        have hcases : s = k.site ∨ s = k.site.body := by
          simp only [Control.notes, List.mem_cons, Prod.mk.injEq, List.not_mem_nil, or_false]
            at hnote
          exact hnote.imp And.left And.left
        rcases hcases with rfl | rfl
        · exact hsite
        · refine ⟨hsite.1, fun l hl => ?_⟩
          rcases List.mem_cons.mp hl with rfl | hl
          · exact hloop
          · exact hsite.2 l hl
      | exitLoop =>
        obtain ⟨l, loops, hloops, hmem⟩ := hlegal.exists_loop
        have hcases : s = k.site ∨ s = l.next := by
          simp only [Control.notes, hloops, List.head?_cons, Option.toList_some,
            List.flatMap_cons, List.flatMap_nil, List.append_nil, List.mem_cons, Prod.mk.injEq,
            List.not_mem_nil, or_false] at hnote
          exact hnote.imp And.left And.left
        rcases hcases with rfl | rfl
        · exact hsite
        · exact ⟨fun b hb => hsite.1 b (Path.branches_of_loops hmem hb),
            fun m hm => hsite.2 m (Path.loops_of_loops hmem hm)⟩
      | loopIterate => simp [Control.notes] at hnote
      | _ =>
        obtain ⟨rfl, -⟩ := Prod.mk.inj (List.mem_singleton.mp hnote)
        exact hsite
    · exact ih (h.move hi hallows hlegal) hrest hs

/-- The records of the graph lie in frames of the codes of their threads. -/
theorem Recorded.typed {executions : List (List (Nat × Annotation))} {tid : Nat} {code : Code}
    {g : EventGraph} (h : Recorded executions tid code)
    (hg : g.Logged (Recorder.runsLog executions)) {s : Site}
    (hs : g.getType (s.ep tid) ≠ none) : Path.Typed code s.path := by
  obtain ⟨et, het⟩ := Option.ne_none_iff_exists'.mp hs
  have hmem : .record (s.ep tid) et ∈ threadLog executions tid :=
    Recorded.mem_threadLog_of_ne (hg.mem (.record (s.ep tid) et) het) rfl (by simp)
  obtain ⟨calls, hcalls, hrecord⟩ := hmem
  by_cases hnil : threadCalls tid calls = []
  · simp [hnil, Control.log] at hrecord
  · exact Code.reaches_start.typed_record (h.runs calls hcalls hnil) hrecord

end SatCheck
