import SatCheck.SiteAhead
import SatCheck.RecordWalk
import Mathlib.Data.List.Nodup
/-!
# The runs that come to a record

A record that one run of a code has noted is noted by another one exactly if nothing that the
other one does in front of the record leads past it.
-/

namespace SatCheck

/-! ## Sites that a run goes through -/

namespace Instruction

/-- The thread goes on behind the instruction, on the same branch and in the same iteration. -/
def GoesOn : Instruction → Prop
  | merge _ | exitLoop | loopIterate => False
  | _ => True

end Instruction

namespace Code

variable (code : Code)

def Through (s : Site) : Prop :=
  code.slot s.path s.n = none → ∃ i, code s = some i ∧ i.GoesOn

/-- The sites in front of a site, on its branch and on the branches around it. -/
def ThroughTo : Path → Nat → Prop
  | [], n => ∀ m < n, code.Through ⟨[], m⟩
  | f :: path, n => (∀ m < n, code.Through ⟨f :: path, m⟩) ∧ ThroughTo path f.n

variable {code} {path inner : Path} {f : Frame} {n : Nat}

theorem ThroughTo.front (h : code.ThroughTo path n) : ∀ m < n, code.Through ⟨path, m⟩ := by
  cases path with
  | nil => exact h
  | cons f path => exact h.1

theorem ThroughTo.out (h : code.ThroughTo (inner ++ f :: path) n) : code.ThroughTo path f.n := by
  induction inner generalizing n with
  | nil => exact h.2
  | cons g inner ih => exact ih h.2

theorem ThroughTo.next (h : code.ThroughTo path n) (hsite : code.Through ⟨path, n⟩) :
    code.ThroughTo path (n + 1) := by
  have hfront : ∀ m < n + 1, code.Through ⟨path, m⟩ := by
    intro m hm
    rcases Nat.lt_succ_iff_lt_or_eq.mp hm with hm | rfl
    · exact h.front m hm
    · exact hsite
  cases path with
  | nil => exact hfront
  | cons f path => exact ⟨hfront, h.2⟩

theorem ThroughTo.enter (h : code.ThroughTo path f.n) : code.ThroughTo (f :: path) 0 :=
  ⟨fun _ hm => absurd hm (Nat.not_lt_zero _), h⟩

theorem slot_of_type {s : Site} {et : EventType} (h : code.type s = some et)
    (het : et = .loopstart ∨ et = .merge ∨ et = .label) : code.slot s.path s.n = some et := by
  cases hslot : code.slot s.path s.n with
  | some et' => simpa [type, hslot] using h
  | none =>
    rw [type_of_free hslot] at h
    obtain ⟨i, -, htype⟩ := Option.bind_eq_some_iff.mp h
    exfalso
    cases i with
    | event et' numinputs =>
      simp only [Instruction.type] at htype
      split_ifs at htype with hplain
      obtain rfl := Option.some_inj.mp htype
      rcases het with rfl | rfl | rfl <;> exact hplain
    | exitLoop =>
      have hexit : s.exitType = et := Option.some_inj.mp htype
      rcases exitType_cases s with hs | hs <;> rw [hs] at hexit <;> subst hexit <;> simp at het
    | _ =>
      simp only [Instruction.type, Option.some_inj, reduceCtorEq] at htype <;> subst htype <;>
        simp at het

theorem through_of_slot {s : Site} {et : EventType} (h : code.slot s.path s.n = some et) :
    code.Through s := by
  intro hnone
  simp [h] at hnone

theorem ThroughTo.past {b : Site} (h : code.ThroughTo b.path b.n)
    (htype : code.type b = some .branchdir ∨ code.type b = some .loopenter) :
    code.ThroughTo b.next.path b.next.n ∧ code.ThroughTo b.next.next.path b.next.next.n := by
  have hsites : code.Through b ∧ code.Through b.next := by
    rcases htype with htype | htype
    · have hnext := slot_of_type (type_next_of_branchdir htype).1 (.inr (.inl rfl))
      exact ⟨fun _ => ⟨_, (type_eq_branchdir.mp htype).2, trivial⟩, through_of_slot hnext⟩
    · have hnext := slot_of_type (type_next_of_loopenter htype).1 (.inr (.inr rfl))
      exact ⟨fun _ => ⟨_, (type_eq_loopenter.mp htype).2, trivial⟩, through_of_slot hnext⟩
  have hnext : code.ThroughTo b.next.path b.next.n := h.next hsites.1
  exact ⟨hnext, hnext.next hsites.2⟩

theorem ThroughTo.of_branches {b : Site} (h : code.ThroughTo path n) (hb : b ∈ path.branches) :
    code.ThroughTo b.path b.n := by
  obtain ⟨inner, d, rfl⟩ := Path.exists_of_mem_branches hb
  exact h.out

theorem ThroughTo.of_loops {l : Site} (h : code.ThroughTo path n) (hl : l ∈ path.loops) :
    code.ThroughTo l.path l.n := by
  obtain ⟨inner, i, rfl⟩ := Path.exists_of_mem_loops hl
  exact h.out

variable {k : Control}

/-- A call leads to where the thread has gone through all sites in front, and notes records
there. -/
theorem ThroughTo.move (h : code.ThroughTo k.site.path k.site.n) (hreach : code.Reaches k)
    {i : Instruction} {call : Annotation} (hi : code k.site = some i) (hallows : i.Allows k call)
    (hlegal : k.Legal call) :
    code.ThroughTo (k.move call).site.path (k.move call).site.n ∧
      ∀ note ∈ k.notes call, code.ThroughTo note.1.path note.1.n := by
  have hplain : i.GoesOn → code.ThroughTo k.site.next.path k.site.next.n :=
    fun hgoes => h.next fun _ => ⟨i, hi, hgoes⟩
  cases i <;> cases call <;> simp only [Instruction.Allows] at hallows
  case event.event => simpa [Control.move, Control.notes] using ⟨hplain trivial, h⟩
  case threadCreate.threadCreate => simpa [Control.move, Control.notes] using ⟨hplain trivial, h⟩
  case threadStart.threadStart => simpa [Control.move, Control.notes] using ⟨hplain trivial, h⟩
  case branch.branchDir direction =>
    have harm : code.ThroughTo (k.site.arm direction).path (k.site.arm direction).n :=
      ThroughTo.enter h
    simpa [Control.move, Control.notes] using ⟨harm, h⟩
  case merge.merge b mcid =>
    obtain ⟨b', hb', hmem⟩ := hlegal
    have hbranch := Path.mergeable_subset hmem
    have hpast := (h.of_branches hbranch).past (.inl (hreach.branches b' hbranch))
    simpa [Control.move, Control.notes, hb', Control.behind] using hpast.symm
  case enterLoop.enterLoop =>
    have hbody : code.ThroughTo k.site.body.path k.site.body.n := ThroughTo.enter h
    have hnext : code.ThroughTo k.site.body.next.path k.site.body.next.n :=
      hbody.next (through_of_slot (slot_of_type (type_body k.site).1 (.inl rfl)))
    simpa [Control.move, Control.notes, Control.behind] using ⟨hnext, h, hbody⟩
  case exitLoop.exitLoop =>
    obtain ⟨l, loops, hloops, hmem⟩ := hlegal.exists_loop
    have hpast := (h.of_loops hmem).past (.inr (hreach.loops l hmem))
    simpa [Control.move, Control.notes, hloops, Control.behind] using ⟨hpast.2, h, hpast.1⟩
  case loopIterate.loopIterate =>
    obtain ⟨n, j, path, hpath⟩ := hlegal
    rw [hpath] at h
    have hiterate : k.site.iterate = ⟨.loop n (j + 1) :: path, 0⟩ := by
      simp [Site.iterate, hpath]
    have hnext : code.ThroughTo k.site.iterate.path k.site.iterate.n := by
      rw [hiterate]
      exact ThroughTo.enter h.2
    simpa [Control.move, Control.notes] using hnext

/-- In front of a record that a run notes the run has gone through all sites. -/
theorem Runs.throughTo {calls : List Annotation} (hruns : code.Runs k calls)
    (hreach : code.Reaches k) (h : code.ThroughTo k.site.path k.site.n) :
    ∀ note ∈ k.trace calls, code.ThroughTo note.1.path note.1.n := by
  induction calls generalizing k with
  | nil => simp [Control.trace]
  | cons call calls ih =>
    obtain ⟨⟨i, hi, hallows⟩, hlegal, hrest⟩ := hruns
    obtain ⟨hmove, hnotes⟩ := h.move hreach hi hallows hlegal
    intro note hnote
    rcases List.mem_append.mp hnote with hnote | hnote
    · exact hnotes note hnote
    · exact ih hrest (hreach.move hi hallows hlegal) hmove note hnote

end Code

/-! ## Directions of a run -/

namespace Control

variable {code : Code} {k : Control} {call : Annotation} {calls : List Annotation}

/-- What a call notes and where it leads is in the directions around its site, or in the one
that it takes. -/
theorem arms_move (hlegal : k.Legal call) :
    (∀ note ∈ k.notes call, note.1.path.arms ⊆ k.site.path.arms) ∧
      ∀ a ∈ (k.move call).site.path.arms,
        a ∈ k.site.path.arms ∨ ∀ calls, a ∈ k.taken (call :: calls) := by
  cases call with
  | branchDir direction =>
    refine ⟨by simp [notes], fun a ha => ?_⟩
    rcases List.mem_cons.mp ha with rfl | ha
    · exact .inr fun _ => List.mem_cons_self
    · exact .inl ha
  | merge mcid =>
    obtain ⟨b, hb, hmem⟩ := hlegal
    have harms := Path.arms_of_branches (Path.mergeable_subset hmem)
    refine ⟨by simpa [notes, hb, Site.next] using harms, fun a ha => .inl (harms ?_)⟩
    simpa [move, hb, behind, Site.next] using ha
  | enterLoop =>
    refine ⟨by simp [notes, Site.body, Path.arms], fun a ha => .inl ?_⟩
    simpa [move, behind, Site.next, Site.body, Path.arms] using ha
  | exitLoop =>
    obtain ⟨l, loops, hloops, hmem⟩ := hlegal.exists_loop
    have harms := Path.arms_of_loops hmem
    refine ⟨by simpa [notes, hloops, Site.next] using harms, fun a ha => .inl (harms ?_)⟩
    simpa [move, hloops, behind, Site.next] using ha
  | loopIterate =>
    obtain ⟨n, i, path, hpath⟩ := hlegal
    refine ⟨by simp [notes], fun a ha => .inl ?_⟩
    simpa [move, Site.iterate, hpath, Path.arms] using ha
  | _ => exact ⟨by simp [notes], fun a ha => .inl ha⟩

theorem arms_of_trace (hruns : code.Runs k calls) {note : Site × EventType}
    (hnote : note ∈ k.trace calls) {a : Site × Nat} (ha : a ∈ note.1.path.arms) :
    a ∈ k.site.path.arms ∨ a ∈ k.taken calls := by
  induction calls generalizing k with
  | nil => simp [trace] at hnote
  | cons call calls ih =>
    obtain ⟨-, hlegal, hrest⟩ := hruns
    obtain ⟨hnotes, hmove⟩ := arms_move hlegal
    rcases List.mem_append.mp hnote with hnote | hnote
    · exact .inl (hnotes note hnote ha)
    · rcases ih hrest hnote with ha | ha
      · exact (hmove a ha).imp_right fun htaken => htaken calls
      · exact .inr (ScheduleBuilder.taken_subset k call calls ha)

private theorem taken_sorted (hruns : code.Runs k calls) :
    (k.taken calls).Pairwise (fun a b => a.1.values < b.1.values) ∧
      ∀ a ∈ k.taken calls, k.site.values ≤ a.1.values := by
  induction calls generalizing k with
  | nil => simp [taken]
  | cons call calls ih =>
    obtain ⟨-, hlegal, hrest⟩ := hruns
    obtain ⟨-, -, hmove⟩ := notes_sorted hlegal
    obtain ⟨hsorted, hbound⟩ := ih hrest
    have hbehind : ∀ a ∈ (k.move call).taken calls, k.site.values < a.1.values :=
      fun a ha => hmove.trans_le (hbound a ha)
    cases call with
    | branchDir direction =>
      refine ⟨List.pairwise_cons.mpr ⟨hbehind, hsorted⟩, fun a ha => ?_⟩
      rcases List.mem_cons.mp ha with rfl | ha
      · exact le_rfl
      · exact (hbehind a ha).le
    | _ => exact ⟨hsorted, fun a ha => (hbehind a ha).le⟩

theorem direction_unique (hruns : code.Runs k calls) {b : Site} {d d' : Nat}
    (h : (b, d) ∈ k.taken calls) (h' : (b, d') ∈ k.taken calls) : d = d' := by
  have hnodup : ((k.taken calls).map Prod.fst).Nodup := by
    rw [List.nodup_iff_pairwise_ne, List.pairwise_map]
    apply (taken_sorted hruns).1.imp
    intro a a' hlt heq
    rw [heq] at hlt
    exact lt_irrefl _ hlt
  exact (Prod.mk.inj (List.inj_on_of_nodup_map hnodup h h' rfl)).2

/-! ## Past a record -/

/-- The call does not lead out of a loop or a branch around `x`. -/
def Toward (k : Control) (x : Site) : Annotation → Prop
  | .exitLoop => ∀ l, k.site.path.loops.head? = some l → l ∉ x.path.loops
  | .merge mcid => ∀ b, k.values[mcid]? = some b → b ∉ x.path.branches
  | _ => True

/-- In front of `x`, a thread leaves no loop around `x`, merges no branch around `x`, and does
not end. -/
def Keeps (x : Site) : Control → List Annotation → Prop
  | k, [] => ¬ k.site.values < x.values
  | k, call :: calls =>
    (k.site.values < x.values → k.Toward x call) ∧ Keeps x (k.move call) calls

variable {x : Site}

theorem toward_of_values_le (h : (k.move call).site.values ≤ x.values) : k.Toward x call := by
  have hpast : ∀ b : Site, (k.move call).site = b.next.next → ¬ b.Surrounds x := by
    intro b heq hb
    rw [heq] at h
    exact absurd (hb.values_lt.2.trans b.next.values_lt_next) (not_lt.mpr h)
  cases call with
  | merge mcid => exact fun b hb hmem => hpast b (by simp [move, hb, behind]) (.inl hmem)
  | exitLoop => exact fun l hl hmem => hpast l (by simp [move, hl, behind]) (.inr hmem)
  | _ => trivial

private theorem toward_of_notes (hlegal : k.Legal call) (hlt : k.site.values < x.values)
    {et : EventType} (h : (x, et) ∈ k.notes call) : k.Toward x call := by
  have hnext : ∀ b : Site, b.Surrounds x → x ≠ b.next := by
    rintro b hb rfl
    exact lt_irrefl _ hb.values_lt.2
  cases call with
  | merge mcid =>
    intro b hb hmem
    have hx : x = b.next ∧ et = .merge := by simpa [notes, hb] using h
    exact hnext b (.inl hmem) hx.1
  | exitLoop =>
    intro l hl hmem
    have hx : x = k.site ∧ et = k.site.exitType ∨ x = l.next ∧ et = .label := by
      simpa [notes, hl] using h
    rcases hx with ⟨rfl, -⟩ | ⟨hx, -⟩
    · exact lt_irrefl _ hlt
    · exact hnext l (.inr hmem) hx
  | _ => trivial

/-- In front of a record that it notes, or has come past, a run does nothing that leads past
the record. -/
theorem keeps_of_trace (hruns : code.Runs k calls)
    (h : x.values < k.site.values ∨ ∃ et, (x, et) ∈ k.trace calls) : Keeps x k calls := by
  induction calls generalizing k with
  | nil =>
    rcases h with h | ⟨et, h⟩
    · exact not_lt.mpr h.le
    · simp [trace] at h
  | cons call calls ih =>
    obtain ⟨-, hlegal, hrest⟩ := hruns
    obtain ⟨-, hnotes, hmove⟩ := notes_sorted hlegal
    rcases h with h | ⟨et, h⟩
    · exact ⟨fun hlt => absurd h (not_lt.mpr hlt.le), ih hrest (.inl (h.trans hmove))⟩
    · rcases List.mem_append.mp h with h | h
      · exact ⟨fun hlt => toward_of_notes hlegal hlt h, ih hrest (.inl (hnotes _ h).2)⟩
      · have hbound := (trace_sorted hrest).2 _ h
        exact ⟨fun _ => toward_of_values_le hbound, ih hrest (.inr ⟨et, h⟩)⟩

structure Target (code : Code) (x : Site) : Prop where
  type : code.type x ≠ none
  typed : Path.Typed code x.path
  through : code.ThroughTo x.path x.n

/-- Where a record lies in a frame, the code has the branch or the loop of the frame. -/
theorem Target.surrounds (hx : Target code x) {s : Site} (h : s.Surrounds x) :
    code.slot s.path s.n = none ∧ (code s = some .branch ∨ code s = some .enterLoop) := by
  rcases h with h | h
  · obtain ⟨hfree, hcode⟩ := Code.type_eq_branchdir.mp (hx.typed.1 s h)
    exact ⟨hfree, .inl hcode⟩
  · obtain ⟨hfree, hcode⟩ := Code.type_eq_loopenter.mp (hx.typed.2 s h)
    exact ⟨hfree, .inr hcode⟩

theorem Target.past (hx : Target code x) {s : Site} {et : EventType} (hahead : x.Ahead s)
    (hslot : code.slot s.path s.n = some et) : x = s ∨ x.Ahead s.next := by
  by_cases hne : x = s
  · exact .inl hne
  · right
    apply hahead.next hne
    intro hframe
    simp [(hx.surrounds hframe).1] at hslot

theorem Target.throughTo (hx : Target code x) {s : Site} (h : s.Covers x) :
    code.ThroughTo s.path s.n := by
  rcases h with rfl | h | h
  · exact hx.through
  · exact hx.through.of_branches h
  · exact hx.through.of_loops h

private theorem Target.notes_site (hx : Target code k.site) {i : Instruction}
    (htype : code.type k.site = i.type k.site) (hallows : i.Allows k call)
    (hlegal : k.Legal call) : ∃ et, (k.site, et) ∈ k.notes call := by
  have htype' : i.type k.site ≠ none := htype ▸ hx.type
  cases i <;> cases call <;> simp only [Instruction.Allows] at hallows
  case merge.merge => simp [Instruction.type] at htype'
  case loopIterate.loopIterate => simp [Instruction.type] at htype'
  case exitLoop.exitLoop =>
    obtain ⟨l, loops, hloops, -⟩ := hlegal.exists_loop
    exact ⟨k.site.exitType, by simp [notes, hloops]⟩
  all_goals exact ⟨_, List.mem_cons_self⟩

theorem Target.ahead_arm (hx : Target code x) (hahead : x.Ahead k.site) (hne : x ≠ k.site)
    (htype : code.type k.site = some .branchdir) {direction : Nat}
    (hdirection : ∀ d, (k.site, d) ∈ x.path.arms → d = direction) :
    x.Ahead (k.site.arm direction) := by
  apply hahead.arm hne
  intro inner f hn hpath
  cases f with
  | arm n d =>
    obtain rfl : n = k.site.n := hn
    have harm : (k.site, d) ∈ x.path.arms := by
      rw [hpath]
      exact Path.mem_arms_append inner List.mem_cons_self
    rw [hdirection d harm]
  | loop n j =>
    obtain rfl : n = k.site.n := hn
    have hloop := hx.typed.2 k.site (by
      rw [hpath]
      exact Path.mem_loops_append inner List.mem_cons_self)
    simp [htype] at hloop

theorem Target.ahead_merge (hx : Target code x) (hreach : code.Reaches k)
    (hahead : x.Ahead k.site) {b : Site} (hbranch : b ∈ k.site.path.branches)
    (hout : b ∉ x.path.branches) : x = b.next ∨ x.Ahead b.next.next := by
  have htype := hreach.branches b hbranch
  have hframe : ¬ b.Surrounds x := by
    rintro (h | h)
    · exact hout h
    · simp [hx.typed.2 b h] at htype
  obtain ⟨inner, d, hpath⟩ := Path.exists_of_mem_branches hbranch
  have hsite : k.site = ⟨inner ++ .arm b.n d :: b.path, k.site.n⟩ := by rw [← hpath]
  rw [hsite] at hahead
  have hnext : x.Ahead b.next := hahead.leave hframe
  exact hx.past hnext (Code.slot_of_type (Code.type_next_of_branchdir htype).1 (.inr (.inl rfl)))

theorem Target.ahead_body (hx : Target code x) (hahead : x.Ahead k.site) (hne : x ≠ k.site)
    (htype : code.type k.site = some .loopenter) :
    x = k.site.body ∨ x.Ahead k.site.body.next := by
  have hbody : x.Ahead k.site.body := by
    apply hahead.body hne
    intro inner f hn hpath
    cases f with
    | arm n d =>
      obtain rfl : n = k.site.n := hn
      have hbranch := hx.typed.1 k.site (by
        rw [hpath]
        exact Path.mem_branches_append inner List.mem_cons_self)
      simp [htype] at hbranch
    | loop n j => exact ⟨j, by rw [show n = k.site.n from hn]⟩
  exact hx.past hbody (Code.slot_of_type (Code.type_body k.site).1 (.inl rfl))

theorem Target.ahead_label (hx : Target code x) (hreach : code.Reaches k)
    (hahead : x.Ahead k.site) {l : Site} (hloop : l ∈ k.site.path.loops)
    (hout : l ∉ x.path.loops) : x = l.next ∨ x.Ahead l.next.next := by
  have htype := hreach.loops l hloop
  have hframe : ¬ l.Surrounds x := by
    rintro (h | h)
    · simp [hx.typed.1 l h] at htype
    · exact hout h
  obtain ⟨inner, j, hpath⟩ := Path.exists_of_mem_loops hloop
  have hsite : k.site = ⟨inner ++ .loop l.n j :: l.path, k.site.n⟩ := by rw [← hpath]
  rw [hsite] at hahead
  have hnext : x.Ahead l.next := hahead.leave hframe
  exact hx.past hnext (Code.slot_of_type (Code.type_next_of_loopenter htype).1 (.inr (.inr rfl)))

theorem Target.ahead_iterate (hx : Target code x) (hreach : code.Reaches k)
    (hahead : x.Ahead k.site) (hi : code k.site = some .loopIterate)
    (hlegal : k.Legal .loopIterate) (hcovers : ¬ k.site.Covers x) :
    x.Ahead (k.move .loopIterate).site := by
  obtain ⟨n, j, path, hpath⟩ := hlegal
  have hsite : k.site = ⟨.loop n j :: path, k.site.n⟩ := by rw [← hpath]
  have hiterate : (k.move .loopIterate).site = ⟨.loop n (j + 1) :: path, 0⟩ := by
    simp [move, Site.iterate, hpath]
  rw [hiterate]
  rw [hsite] at hahead
  apply hahead.iterate
  intro n' hle hcovers'
  rcases Nat.eq_or_lt_of_le hle with rfl | hlt
  · rw [← hsite] at hcovers'
    exact hcovers hcovers'
  · obtain ⟨i, hcode, hgoes⟩ := (hx.throughTo hcovers').front _ hlt (hsite ▸ hreach.free)
    rw [← hsite, hi] at hcode
    obtain rfl := Option.some_inj.mp hcode
    exact hgoes

/-- A call of a thread that has not come to a record notes the record, or leads to where the
thread still has not come to it. -/
theorem Target.step (hx : Target code x) (hreach : code.Reaches k) (hahead : x.Ahead k.site)
    {i : Instruction} (hi : code k.site = some i) (hallows : i.Allows k call)
    (hlegal : k.Legal call) (htoward : k.site.values < x.values → k.Toward x call)
    (hdirection : ∀ d d', (k.site, d') ∈ x.path.arms → call = .branchDir d → d' = d) :
    (∃ et, (x, et) ∈ k.notes call) ∨ x.Ahead (k.move call).site := by
  have htype : code.type k.site = i.type k.site := by
    simp [Code.type_of_free hreach.free, hi]
  have hplain : i ≠ .branch → i ≠ .enterLoop → ¬ k.site.Surrounds x := by
    intro hbranch hloop hframe
    rcases (hx.surrounds hframe).2 with hcode | hcode <;> rw [hi, Option.some_inj] at hcode
    · exact hbranch hcode
    · exact hloop hcode
  by_cases hne : x = k.site
  · subst hne
    exact .inl (hx.notes_site htype hallows hlegal)
  · specialize htoward (hahead.eq_or_values_lt.resolve_left hne)
    cases i <;> cases call <;> simp only [Instruction.Allows] at hallows
    case event.event => exact .inr (hahead.next hne (hplain (by simp) (by simp)))
    case threadCreate.threadCreate => exact .inr (hahead.next hne (hplain (by simp) (by simp)))
    case threadStart.threadStart => exact .inr (hahead.next hne (hplain (by simp) (by simp)))
    case branch.branchDir direction =>
      exact .inr (hx.ahead_arm hahead hne htype fun d hd => hdirection direction d hd rfl)
    case merge.merge b mcid =>
      obtain ⟨b', hb', hmem⟩ := hlegal
      rcases hx.ahead_merge hreach hahead (Path.mergeable_subset hmem) (htoward b' hb') with
        rfl | h
      · exact .inl ⟨.merge, by simp [notes, hb']⟩
      · exact .inr (by simpa [move, hb', behind] using h)
    case enterLoop.enterLoop =>
      rcases hx.ahead_body hahead hne htype with rfl | h
      · exact .inl ⟨.loopstart, by simp [notes]⟩
      · exact .inr h
    case exitLoop.exitLoop =>
      obtain ⟨l, loops, hloops, hmem⟩ := hlegal.exists_loop
      rcases hx.ahead_label hreach hahead hmem (htoward l (by rw [hloops]; rfl)) with rfl | h
      · exact .inl ⟨.label, by simp [notes, hloops]⟩
      · exact .inr (by simpa [move, hloops, behind] using h)
    case loopIterate.loopIterate =>
      exact .inr (hx.ahead_iterate hreach hahead hi hlegal fun hcovers =>
        hcovers.elim hne (hplain (by simp) (by simp)))

/-- A run comes to the record if it takes the directions around it, and does nothing in front of
it that leads past it. -/
theorem Target.mem_trace (hx : Target code x) (hreach : code.Reaches k) (hahead : x.Ahead k.site)
    (hruns : code.Runs k calls) (hkeeps : Keeps x k calls)
    (hdirections : ∀ b d d', (b, d) ∈ x.path.arms → (b, d') ∈ k.taken calls → d = d') :
    ∃ et, (x, et) ∈ k.trace calls := by
  induction calls generalizing k with
  | nil =>
    exfalso
    rcases hahead.eq_or_values_lt with rfl | hlt
    · have hend : code k.site = none := hruns
      exact hx.type (by simp [Code.type_of_free hreach.free, hend])
    · exact hkeeps hlt
  | cons call calls ih =>
    obtain ⟨⟨i, hi, hallows⟩, hlegal, hrest⟩ := hruns
    obtain ⟨htoward, hkeeps⟩ := hkeeps
    have hstep := hx.step hreach hahead hi hallows hlegal htoward (by
      rintro d d' harm rfl
      exact hdirections _ _ _ harm List.mem_cons_self)
    rcases hstep with ⟨et, hnote⟩ | hahead
    · exact ⟨et, List.mem_append_left _ hnote⟩
    · obtain ⟨et, hnote⟩ := ih (hreach.move hi hallows hlegal) hahead hrest hkeeps
        fun b d d' harm htaken =>
          hdirections b d d' harm (ScheduleBuilder.taken_subset k call calls htaken)
      exact ⟨et, List.mem_append_right _ hnote⟩

theorem mem_trace_of_log {tid : Nat} {s : Site} {et : EventType}
    (h : .record (s.ep tid) et ∈ k.log tid calls) : (s, et) ∈ k.trace calls := by
  induction calls generalizing k with
  | nil => simp [log] at h
  | cons call calls ih =>
    rcases List.mem_append.mp h with h | h
    · exact List.mem_append_left _ (record_entries h)
    · exact List.mem_append_right _ (ih h)

end Control

theorem Recorded.target {executions : List (List (Nat × Annotation))} {tid : Nat} {code : Code}
    {g : EventGraph} (h : Recorded executions tid code)
    (hg : g.Logged (Recorder.runsLog executions)) {s : Site} (hs : g.getType (s.ep tid) ≠ none) :
    Control.Target code s := by
  obtain ⟨et, het⟩ := Option.ne_none_iff_exists'.mp hs
  have hmem : .record (s.ep tid) et ∈ threadLog executions tid :=
    Recorded.mem_threadLog_of_ne (hg.mem (.record (s.ep tid) et) het) rfl (by simp)
  constructor
  · simp [(h.leaves hmem).type]
  · exact h.typed hg hs
  · obtain ⟨calls, hcalls, hrecord⟩ := hmem
    by_cases hnil : threadCalls tid calls = []
    · simp [hnil, Control.log] at hrecord
    · have hstart : code.ThroughTo Control.start.site.path Control.start.site.n :=
        fun _ hm => absurd hm (Nat.not_lt_zero _)
      exact Code.Runs.throughTo (h.runs calls hcalls hnil) Code.reaches_start hstart _
        (Control.mem_trace_of_log hrecord)

end SatCheck
