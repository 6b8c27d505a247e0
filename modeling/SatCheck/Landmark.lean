import SatCheck.RunParts
/-!
# Landmarks

In front of a record, a run that notes the record has merged the branches that it took, and has
gone on to the next iteration of the loops.  So another run that takes the directions around the
record comes to it too, unless it leaves a loop around it out of a branch.
-/

namespace SatCheck

namespace Site

variable {q s : Site}

theorem Covers.of_next (h : q.Covers s.next) : q = s.next ∨ q.Surrounds s :=
  h.imp_left Eq.symm

theorem Surrounds.of_frame {f : Frame} {path : Path} {n : Nat}
    (h : q.Surrounds ⟨f :: path, n⟩) : q.Covers ⟨path, f.n⟩ := by
  rcases h with h | h
  · cases f with
    | arm m d => exact (List.mem_cons.mp h).imp Eq.symm Or.inl
    | loop m i => exact .inr (.inl h)
  · cases f with
    | arm m d => exact .inr (.inr h)
    | loop m i => exact (List.mem_cons.mp h).imp Eq.symm Or.inr

theorem Covers.surrounds_frame {f : Frame} {path : Path} {n : Nat}
    (h : q.Covers ⟨path, f.n⟩) : q.Surrounds ⟨f :: path, n⟩ := by
  rcases h with rfl | h
  · exact surrounds_iff.mpr ⟨[], f, rfl, rfl⟩
  · rcases h with h | h
    · exact .inl (Path.mem_branches_append [f] h)
    · exact .inr (Path.mem_loops_append [f] h)

theorem Surrounds.append {path : Path} {n m : Nat} (inner : Path)
    (h : q.Surrounds ⟨path, n⟩) : q.Surrounds ⟨inner ++ path, m⟩ :=
  h.imp (Path.mem_branches_append inner) (Path.mem_loops_append inner)

end Site

namespace Code

/-- What lies in front of a site on its branch and on the branches around: branches that are in
`M`, and iterations that the thread goes through to the next one. -/
structure Cleared (code : Code) (M : Set Site) (s : Site) : Prop where
  merged : ∀ q : Site, q.Covers s → ∀ m < q.n, code.type ⟨q.path, m⟩ = some .branchdir →
    (⟨q.path, m⟩ : Site) ∈ M
  iterated : ∀ inner n j below, s.path = inner ++ .loop n j :: below → ∀ i < j, ∃ m,
    code.slot (.loop n i :: below) m = none ∧ code ⟨.loop n i :: below, m⟩ = some .loopIterate ∧
      ∀ m' < m, code.Through ⟨.loop n i :: below, m'⟩

variable {code : Code} {M : Set Site} {s b : Site}

theorem Cleared.next (h : code.Cleared M s) (hs : code.type s = some .branchdir → s ∈ M) :
    code.Cleared M s.next where
  merged q hq m hm htype := by
    rcases hq.of_next with rfl | hq
    · rcases Nat.lt_succ_iff_lt_or_eq.mp hm with hm | rfl
      · exact h.merged s (.inl rfl) m hm htype
      · exact hs htype
    · exact h.merged q (.inr hq) m hm htype
  iterated := h.iterated

theorem Cleared.enter (h : code.Cleared M s) {f : Frame} (hn : f.n = s.n)
    (hloop : ∀ n j, f = .loop n j → j = 0) : code.Cleared M ⟨f :: s.path, 0⟩ where
  merged q hq m hm htype := by
    rcases hq with rfl | hq
    · exact absurd hm (Nat.not_lt_zero m)
    · apply h.merged q _ m hm htype
      have hcovers := hq.of_frame
      rwa [hn] at hcovers
  iterated inner n j below hpath i hi := by
    cases inner with
    | nil =>
      obtain ⟨rfl, -⟩ := List.cons_eq_cons.mp hpath
      rw [hloop n j rfl] at hi
      exact absurd hi (Nat.not_lt_zero i)
    | cons g inner => exact h.iterated inner n j below (List.cons_eq_cons.mp hpath).2 i hi

theorem Cleared.outer {inner path : Path} {f : Frame} {n m : Nat}
    (h : code.Cleared M ⟨inner ++ f :: path, n⟩) (hm : f.n = m) : code.Cleared M ⟨path, m⟩ where
  merged q hq := by
    subst hm
    exact h.merged q (.inr (hq.surrounds_frame.append inner (m := n) (n := n)))
  iterated inner' n' j below hpath := by
    apply h.iterated (inner ++ f :: inner')
    rw [show path = inner' ++ .loop n' j :: below from hpath]
    simp

theorem Cleared.of_branches (h : code.Cleared M s) (hb : b ∈ s.path.branches) :
    code.Cleared M b := by
  obtain ⟨inner, d, hpath⟩ := Path.exists_of_mem_branches hb
  have hs : s = ⟨inner ++ .arm b.n d :: b.path, s.n⟩ := by rw [← hpath]
  rw [hs] at h
  exact h.outer rfl

theorem Cleared.of_loops (h : code.Cleared M s) (hb : b ∈ s.path.loops) : code.Cleared M b := by
  obtain ⟨inner, i, hpath⟩ := Path.exists_of_mem_loops hb
  have hs : s = ⟨inner ++ .loop b.n i :: b.path, s.n⟩ := by rw [← hpath]
  rw [hs] at h
  exact h.outer rfl

theorem Cleared.iterate {n i m : Nat} {path : Path} (h : code.Cleared M ⟨.loop n i :: path, m⟩)
    (hfree : code.slot (.loop n i :: path) m = none)
    (hcode : code ⟨.loop n i :: path, m⟩ = some .loopIterate)
    (hthrough : code.ThroughTo (.loop n i :: path) m) :
    code.Cleared M ⟨.loop n (i + 1) :: path, 0⟩ where
  merged q hq m' hm htype := by
    rcases hq with rfl | hq
    · exact absurd hm (Nat.not_lt_zero m')
    · exact h.merged q (.inr (Site.Covers.surrounds_frame (f := .loop n i) hq.of_frame)) m' hm htype
  iterated inner n' j below hpath i' hi := by
    cases inner with
    | nil =>
      obtain ⟨hframe, rfl⟩ := List.cons_eq_cons.mp hpath
      obtain ⟨rfl, rfl⟩ := Frame.loop.inj hframe
      rcases Nat.lt_succ_iff_lt_or_eq.mp hi with hi | rfl
      · exact h.iterated [] n i path rfl i' hi
      · exact ⟨m, hfree, hcode, hthrough.front⟩
    | cons g inner =>
      obtain ⟨rfl, hrest⟩ := List.cons_eq_cons.mp hpath
      exact h.iterated (.loop n i :: inner) n' j below (congrArg (Frame.loop n i :: ·) hrest) i' hi

theorem Cleared.past (h : code.Cleared M b)
    (htype : code.type b = some .branchdir ∧ b ∈ M ∨ code.type b = some .loopenter) :
    code.Cleared M b.next ∧ code.Cleared M b.next.next := by
  have hb : code.type b = some .branchdir → b ∈ M := by
    intro hbranch
    rcases htype with htype | htype
    · exact htype.2
    · simp [htype] at hbranch
  have hnext : code.type b.next = some .branchdir → b.next ∈ M := by
    intro hbranch
    rcases htype with htype | htype
    · simp [(type_next_of_branchdir htype.1).1] at hbranch
    · simp [(type_next_of_loopenter htype).1] at hbranch
  exact ⟨h.next hb, (h.next hb).next hnext⟩

variable {k : Control} {call : Annotation} {calls : List Annotation}

/-- A call leads to where the front is clear, and notes records there. -/
theorem Cleared.move (h : code.Cleared M k.site) (hreach : code.Reaches k)
    (hthrough : code.ThroughTo k.site.path k.site.n) {i : Instruction} (hi : code k.site = some i)
    (hallows : i.Allows k call) (hlegal : k.Legal call)
    (hmerged : ∀ mcid b, call = .merge mcid → k.values[mcid]? = some b → b ∈ M) :
    code.Cleared M (k.move call).site ∧ ∀ note ∈ k.notes call, code.Cleared M note.1 := by
  have hplain : i ≠ .branch → code.Cleared M k.site.next := by
    intro hbranch
    apply h.next
    intro htype
    obtain ⟨-, hcode⟩ := type_eq_branchdir.mp htype
    exact absurd (Option.some_inj.mp (hi.symm.trans hcode)) hbranch
  cases i <;> cases call <;> simp only [Instruction.Allows] at hallows
  case event.event => simpa [Control.move, Control.notes] using ⟨hplain (by simp), h⟩
  case threadCreate.threadCreate => simpa [Control.move, Control.notes] using ⟨hplain (by simp), h⟩
  case threadStart.threadStart => simpa [Control.move, Control.notes] using ⟨hplain (by simp), h⟩
  case branch.branchDir direction =>
    have harm : code.Cleared M (k.site.arm direction) := h.enter rfl (by simp)
    simpa [Control.move, Control.notes] using ⟨harm, h⟩
  case merge.merge b mcid =>
    obtain ⟨b', hb', hmem⟩ := hlegal
    have hbranch := Path.mergeable_subset hmem
    have hpast := (h.of_branches hbranch).past
      (.inl ⟨hreach.branches b' hbranch, hmerged mcid b' rfl hb'⟩)
    simpa [Control.move, Control.notes, hb', Control.behind] using hpast.symm
  case enterLoop.enterLoop =>
    have hbody : code.Cleared M k.site.body := h.enter rfl (by simp)
    have hnext : code.Cleared M k.site.body.next := by
      apply hbody.next
      simp [(type_body k.site).1]
    simpa [Control.move, Control.notes, Control.behind] using ⟨hnext, h, hbody⟩
  case exitLoop.exitLoop =>
    obtain ⟨l, loops, hloops, hmem⟩ := hlegal.exists_loop
    have hpast := (h.of_loops hmem).past (.inr (hreach.loops l hmem))
    simpa [Control.move, Control.notes, hloops, Control.behind] using ⟨hpast.2, h, hpast.1⟩
  case loopIterate.loopIterate =>
    obtain ⟨n, j, path, hpath⟩ := hlegal
    have hsite : k.site = ⟨.loop n j :: path, k.site.n⟩ := by rw [← hpath]
    have hfree := hreach.free
    rw [hsite] at h hi hthrough hfree
    have hiterate : k.site.iterate = ⟨.loop n (j + 1) :: path, 0⟩ := by
      simp [Site.iterate, hpath]
    have hnext := h.iterate hfree hi hthrough
    simpa [Control.move, Control.notes, hiterate] using hnext

/-- The front of a record that a run notes is clear, up to the branches that the run merges. -/
theorem Runs.cleared (hruns : code.Runs k calls) (hreach : code.Reaches k)
    (hthrough : code.ThroughTo k.site.path k.site.n) (h : code.Cleared M k.site)
    (hmerged : ∀ b ∈ k.merged calls, b ∈ M) : ∀ note ∈ k.trace calls, code.Cleared M note.1 := by
  induction calls generalizing k with
  | nil => simp [Control.trace]
  | cons call calls ih =>
    obtain ⟨⟨i, hi, hallows⟩, hlegal, hrest⟩ := hruns
    have hcall : ∀ mcid b, call = .merge mcid → k.values[mcid]? = some b → b ∈ M := by
      rintro mcid b rfl hb
      apply hmerged
      simp [Control.merged, hb]
    have hrestMerged : ∀ b ∈ (k.move call).merged calls, b ∈ M := by
      intro b hb
      apply hmerged
      cases call <;> simp [Control.merged, hb]
    obtain ⟨hmove, hnotes⟩ := h.move hreach hthrough hi hallows hlegal hcall
    intro note hnote
    rcases List.mem_append.mp hnote with hnote | hnote
    · exact hnotes note hnote
    · exact ih hrest (hreach.move hi hallows hlegal)
        (hthrough.move hreach hi hallows hlegal).1 hmove
        hrestMerged note hnote

theorem cleared_start : code.Cleared M Control.start.site where
  merged q hq m hm := by
    rcases hq with rfl | hq | hq
    · exact absurd hm (Nat.not_lt_zero m)
    · simp [Control.start, Site.start, Path.branches] at hq
    · simp [Control.start, Site.start, Path.loops] at hq
  iterated inner n j below hpath := by simp [Control.start, Site.start] at hpath

theorem throughTo_start :
    code.ThroughTo Control.start.site.path Control.start.site.n :=
  fun _ hm => absurd hm (Nat.not_lt_zero _)

end Code

/-! ## Coming to a landmark -/

namespace Control

structure Landmark (code : Code) (M : Set Site) (x : Site) : Prop extends
    Target code x, Code.Cleared code M x

variable {code : Code} {M : Set Site} {x s : Site} {k : Control} {calls : List Annotation}

/-- Where the thread does not go on behind a site, the record is in a later iteration, or behind
the innermost frame. -/
theorem Target.ahead_of_stop (hx : Target code x) (hfree : code.slot s.path s.n = none)
    (hstop : ∀ i, code s = some i → ¬ i.GoesOn) (hne : x ≠ s) (hahead : x.Ahead s) :
    (∃ n i j m below, s.path = .loop n i :: below ∧ i < j ∧
      Site.Covers ⟨.loop n j :: below, m⟩ x) ∨
    ∃ f below, s.path = f :: below ∧ x.Ahead ⟨below, f.n + 1⟩ := by
  cases hahead with
  | here hlater hcovers =>
    cases hlater with
    | @same n hle =>
      exfalso
      rcases Nat.eq_or_lt_of_le hle with rfl | hlt
      · rcases hcovers with rfl | hframe
        · exact hne rfl
        · rcases (hx.surrounds hframe).2 with hcode | hcode <;> exact hstop _ hcode trivial
      · obtain ⟨i, hcode, hgoes⟩ := (hx.throughTo hcovers).front _ hlt hfree
        exact hstop i hcode hgoes
    | @iteration n i j m below hpath hlt => exact .inl ⟨n, i, j, m, below, hpath, hlt, hcovers⟩
  | @out f below n h => exact .inr ⟨f, below, rfl, h⟩

/-- A branch that is left open has nothing behind it but later iterations and what is behind the
frame around it. -/
theorem Landmark.ahead_of_open (hx : Landmark code M x) {c : Site}
    (hc : code.type c = some .branchdir) (hopen : c ∉ M) (hahead : x.Ahead c.next) :
    (∃ n i below, c.path = .loop n i :: below) ∨
      ∃ f below, c.path = f :: below ∧ x.Ahead ⟨below, f.n + 1⟩ := by
  obtain ⟨path, n⟩ := c
  cases hahead with
  | here hlater hcovers =>
    cases hlater with
    | same hle => exact absurd (hx.merged _ hcovers n hle hc) hopen
    | iteration hpath _ => exact .inl ⟨_, _, _, hpath⟩
  | out h => exact .inr ⟨_, _, rfl, h⟩

theorem not_surrounds_of_ahead {c : Site} (hahead : x.Ahead c.next) : ¬ c.Surrounds x := by
  intro hframe
  have hlt := hframe.values_lt.2
  rcases hahead.eq_or_values_lt with rfl | hlt'
  · exact lt_irrefl _ hlt
  · exact lt_asymm hlt hlt'

theorem Landmark.not_mem_branches (hx : Landmark code M x) {f : Frame} {below : Path} {b : Site}
    (htyped : ∀ c ∈ Path.branches (f :: below), code.type c = some .branchdir)
    (hmem : b ∈ Path.mergeable (f :: below))
    (hopen : ∀ c ∈ (Path.branches (f :: below)).takeWhile (· ≠ b), c ∉ M)
    (hahead : x.Ahead ⟨below, f.n + 1⟩) : b ∉ x.path.branches := by
  induction below generalizing f with
  | nil =>
    cases f with
    | loop n i => simp [Path.mergeable] at hmem
    | arm n d =>
      obtain rfl : b = ⟨[], n⟩ := by simpa [Path.mergeable] using hmem
      exact fun h => not_surrounds_of_ahead hahead (.inl h)
  | cons g below ih =>
    cases f with
    | loop n i => simp [Path.mergeable] at hmem
    | arm n d =>
      by_cases hb : b = ⟨g :: below, n⟩
      · subst hb
        exact fun h => not_surrounds_of_ahead hahead (.inl h)
      · have hinner : b ∈ Path.mergeable (g :: below) := (List.mem_cons.mp hmem).resolve_left hb
        rw [Path.branches, List.takeWhile_cons_of_pos (by simpa using Ne.symm hb)] at hopen
        rcases hx.ahead_of_open (htyped _ List.mem_cons_self) (hopen _ List.mem_cons_self)
            hahead with
          ⟨n', i, path, hpath⟩ | ⟨f', path, hpath, hout⟩
        · obtain ⟨rfl, rfl⟩ := List.cons_eq_cons.mp hpath
          simp [Path.mergeable] at hinner
        · obtain ⟨rfl, rfl⟩ := List.cons_eq_cons.mp hpath
          exact ih (fun c hc => htyped c (List.mem_cons_of_mem _ hc)) hinner
            (fun c hc => hopen c (List.mem_cons_of_mem _ hc)) hout

theorem Landmark.not_ahead_of_end (hx : Landmark code M x) {f : Frame} {below : Path}
    (htyped : ∀ c ∈ Path.branches (f :: below), code.type c = some .branchdir)
    (hloops : Path.loops (f :: below) = [])
    (hopen : ∀ c ∈ Path.branches (f :: below), c ∉ M) : ¬ x.Ahead ⟨below, f.n + 1⟩ := by
  intro hahead
  induction below generalizing f with
  | nil =>
    cases f with
    | loop n i => simp [Path.loops] at hloops
    | arm n d =>
      rcases hx.ahead_of_open (htyped _ List.mem_cons_self) (hopen _ List.mem_cons_self) hahead with
        ⟨n', i, path, hpath⟩ | ⟨f', path, hpath, -⟩ <;> simp at hpath
  | cons g below ih =>
    cases f with
    | loop n i => simp [Path.loops] at hloops
    | arm n d =>
      rcases hx.ahead_of_open (htyped _ List.mem_cons_self) (hopen _ List.mem_cons_self) hahead with
        ⟨n', i, path, hpath⟩ | ⟨f', path, hpath, hout⟩
      · obtain ⟨rfl, rfl⟩ := List.cons_eq_cons.mp hpath
        simp [Path.loops] at hloops
      · obtain ⟨rfl, rfl⟩ := List.cons_eq_cons.mp hpath
        exact ih (fun c hc => htyped c (List.mem_cons_of_mem _ hc)) hloops
          (fun c hc => hopen c (List.mem_cons_of_mem _ hc)) hout

/-- A loop that the thread leaves directly has no later iteration with the record in it. -/
theorem Landmark.not_mem_loops (hx : Landmark code M x) (hreach : code.Reaches k)
    (hthrough : code.ThroughTo k.site.path k.site.n) (hahead : x.Ahead k.site) (hne : x ≠ k.site)
    (hcode : code k.site = some .exitLoop) {n i : Nat} {below : Path}
    (hpath : k.site.path = .loop n i :: below) : (⟨below, n⟩ : Site) ∉ x.path.loops := by
  have hsite : k.site = ⟨.loop n i :: below, k.site.n⟩ := by rw [← hpath]
  have hstop : ∀ i, code k.site = some i → ¬ i.GoesOn := by
    intro i hi
    rw [hcode, Option.some_inj] at hi
    subst hi
    exact id
  rcases hx.ahead_of_stop hreach.free hstop hne hahead with
    ⟨n', i', j, m, below', hpath', hlt, hcovers⟩ | ⟨f, below', hpath', hout⟩
  · exfalso
    obtain ⟨hframe, rfl⟩ := List.cons_eq_cons.mp (hpath.symm.trans hpath')
    obtain ⟨rfl, rfl⟩ := Frame.loop.inj hframe
    obtain ⟨inner, hx'⟩ := hcovers.exists_suffix
    obtain ⟨m', hfree, hiterate, hfront⟩ := hx.iterated inner n j below hx' i hlt
    rcases Nat.lt_trichotomy m' k.site.n with hm | hm | hm
    · rw [hpath] at hthrough
      obtain ⟨i, hi, hgoes⟩ := hthrough.front m' hm hfree
      rw [hiterate, Option.some_inj] at hi
      subst hi
      exact hgoes
    · rw [hm, ← hsite, hcode] at hiterate
      simp at hiterate
    · have hfree' := hreach.free
      rw [hsite] at hfree'
      obtain ⟨i, hi, hgoes⟩ := hfront _ hm hfree'
      exact hstop i (hsite ▸ hi) hgoes
  · obtain ⟨rfl, rfl⟩ := List.cons_eq_cons.mp (hpath.symm.trans hpath')
    exact fun h => not_surrounds_of_ahead (c := ⟨below, n⟩) hout (.inr h)

private theorem Landmark.toward_exitLoop (hx : Landmark code M x) (hreach : code.Reaches k)
    (hthrough : code.ThroughTo k.site.path k.site.n) (hahead : x.Ahead k.site)
    (hne : x ≠ k.site) (hcode : code k.site = some .exitLoop)
    (hexit : k.site.exitType = .nonlocaltrans →
      ∀ l, k.site.path.loops.head? = some l → l ∉ x.path.loops) : k.Toward x .exitLoop := by
  intro l hl
  cases hpath : k.site.path with
  | nil => simp [hpath, Path.loops] at hl
  | cons f below =>
    cases f with
    | loop n i =>
      obtain rfl : ⟨below, n⟩ = l := by simpa [hpath, Path.loops] using hl
      exact hx.not_mem_loops hreach hthrough hahead hne hcode hpath
    | arm n d => exact hexit (by simp [Site.exitType, hpath]) l hl

private theorem Landmark.toward_merge (hx : Landmark code M x) (hreach : code.Reaches k)
    (hahead : x.Ahead k.site) (hne : x ≠ k.site) {mcid : Nat} (hlegal : k.Legal (.merge mcid))
    (hstop : ∀ i, code k.site = some i → ¬ i.GoesOn)
    (hopen : ∀ b ∈ k.leftOpen false (.merge mcid :: calls), b ∉ M) :
    k.Toward x (.merge mcid) := by
  intro b hb
  obtain ⟨b', hb', hmem⟩ := hlegal
  obtain rfl := Option.some_inj.mp (hb'.symm.trans hb)
  rcases hx.ahead_of_stop hreach.free hstop hne hahead with
    ⟨n, i, j, m, below, hpath, -⟩ | ⟨f, below, hpath, hout⟩
  · simp [hpath, Path.mergeable] at hmem
  · have htyped := hreach.branches
    have hleft : ∀ c ∈ k.site.path.branches.takeWhile (· ≠ b'), c ∉ M := by
      intro c hc
      apply hopen
      simp only [leftOpen, hb', Option.toList_some, List.flatMap_cons, List.flatMap_nil,
        List.append_nil]
      exact List.mem_append_left _ hc
    rw [hpath] at hmem hleft htyped
    exact hx.not_mem_branches htyped hmem hleft hout

/-- A run that leaves no branch open that is in `M`, and leaves its loops before it ends, does
nothing that leads past the record, unless it leaves a loop around it out of a branch. -/
theorem Landmark.keeps (hx : Landmark code M x) (hreach : code.Reaches k)
    (hthrough : code.ThroughTo k.site.path k.site.n) (hahead : x.Ahead k.site)
    (hruns : code.Runs k calls) (hopen : ∀ b ∈ k.leftOpen false calls, b ∉ M)
    (hend : (k.after calls).site.path.loops = [])
    (hexits : ∀ s, (s, .nonlocaltrans) ∈ k.trace calls → s.values < x.values →
      ∀ l, s.path.loops.head? = some l → l ∉ x.path.loops)
    (hdirections : ∀ b d d', (b, d) ∈ x.path.arms → (b, d') ∈ k.taken calls → d = d') :
    Keeps x k calls := by
  induction calls generalizing k with
  | nil =>
    intro hlt
    have hcode : code k.site = none := hruns
    have hne : x ≠ k.site := fun heq => lt_irrefl _ (heq ▸ hlt)
    have hloops : k.site.path.loops = [] := hend
    rcases hx.ahead_of_stop hreach.free (by simp [hcode]) hne hahead with
      ⟨n, i, j, m, below, hpath, -⟩ | ⟨f, below, hpath, hout⟩
    · simp [hpath, Path.loops] at hloops
    · have htyped := hreach.branches
      rw [Control.leftOpen, hpath] at hopen
      rw [hpath] at htyped hloops
      exact hx.not_ahead_of_end htyped hloops hopen hout
  | cons call calls ih =>
    obtain ⟨⟨i, hi, hallows⟩, hlegal, hrest⟩ := hruns
    have htoward : k.site.values < x.values → k.Toward x call := by
      intro hlt
      have hne : x ≠ k.site := fun heq => lt_irrefl _ (heq ▸ hlt)
      cases call with
      | exitLoop =>
        have hcode : code k.site = some .exitLoop := by
          cases i <;> simp only [Instruction.Allows] at hallows
          exact hi
        refine hx.toward_exitLoop hreach hthrough hahead hne hcode fun htype l hl => ?_
        apply hexits k.site _ hlt l hl
        apply List.mem_append_left
        simp [notes, hl, htype]
      | merge mcid =>
        refine hx.toward_merge hreach hahead hne hlegal (fun i' hi' => ?_) hopen
        rw [hi, Option.some_inj] at hi'
        subst hi'
        cases i <;> simp only [Instruction.Allows] at hallows
        exact id
      | _ => trivial
    refine ⟨htoward, ?_⟩
    have hstep := hx.toTarget.step hreach hahead hi hallows hlegal htoward (by
      rintro d d' harm rfl
      exact hdirections _ _ _ harm List.mem_cons_self)
    rcases hstep with ⟨et, hnote⟩ | hmove
    · obtain ⟨-, hnotes, -⟩ := notes_sorted hlegal
      exact keeps_of_trace hrest (.inl (hnotes _ hnote).2)
    · have hrestOpen : ∀ b ∈ (k.move call).leftOpen false calls, b ∉ M := by
        intro b hb
        apply hopen
        cases call with
        | event et numinputs =>
          rw [ScheduleBuilder.leftOpen_event]
          simpa using hb
        | merge mcid => exact List.mem_append_right _ hb
        | _ => exact hb
      exact ih (hreach.move hi hallows hlegal)
        (hthrough.move hreach hi hallows hlegal).1 hmove hrest
        hrestOpen hend (fun s hs => hexits s (List.mem_append_right _ hs))
        fun b d d' harm htaken =>
          hdirections b d d' harm (ScheduleBuilder.taken_subset k call calls htaken)

end Control

/-! ## Recorded landmarks -/

def mergedBy (executions : List (List (Nat × Annotation))) (tid : Nat) : Set Site :=
  {b | ∃ calls ∈ executions, b ∈ Control.start.merged (threadCalls tid calls)}

theorem Recorded.landmark {executions : List (List (Nat × Annotation))} {tid : Nat} {code : Code}
    {g : EventGraph} (h : Recorded executions tid code)
    (hg : g.Logged (Recorder.runsLog executions)) {s : Site} (hs : g.getType (s.ep tid) ≠ none) :
    Control.Landmark code (mergedBy executions tid) s := by
  obtain ⟨et, het⟩ := Option.ne_none_iff_exists'.mp hs
  have hmem : .record (s.ep tid) et ∈ threadLog executions tid :=
    Recorded.mem_threadLog_of_ne (hg.mem (.record (s.ep tid) et) het) rfl (by simp)
  obtain ⟨calls, hcalls, hrecord⟩ := hmem
  have hne : threadCalls tid calls ≠ [] := by
    intro hnil
    simp [hnil, Control.log] at hrecord
  have hcleared := (h.runs calls hcalls hne).cleared (M := mergedBy executions tid)
    Code.reaches_start Code.throughTo_start Code.cleared_start (fun b hb => ⟨calls, hcalls, hb⟩) _
    (Control.mem_trace_of_log hrecord)
  exact ⟨h.target hg hs, hcleared⟩

end SatCheck
