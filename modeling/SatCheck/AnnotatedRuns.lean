import SatCheck.AnnotatedCode
/-!
# Runs of annotated code

A block leaves its thread where it began, up to arms that were left without a merge.  A `return`
leaves the loops of its function.  So the calls of every run are well nested.
-/

namespace SatCheck

namespace Path

theorem loops_append (inner outer : Path) :
    (loops (inner ++ outer)).length = (loops inner).length + (loops outer).length := by
  induction inner with
  | nil => simp [loops]
  | cons f inner ih =>
    cases f with
    | arm n d => simpa [loops] using ih
    | loop n i => simp [loops, ih, Nat.add_right_comm]

theorem exists_split (path : Path) (down : Nat) (h : down ≤ (loops path).length) :
    ∃ inner outer, path = inner ++ outer ∧ (loops inner).length = down := by
  induction path generalizing down with
  | nil => exact ⟨[], [], rfl, by simpa [loops, eq_comm] using h⟩
  | cons f path ih =>
    cases f with
    | arm n d =>
      obtain ⟨inner, outer, rfl, hinner⟩ := ih down (by simpa [loops] using h)
      exact ⟨.arm n d :: inner, outer, rfl, by simpa [loops] using hinner⟩
    | loop n i =>
      cases down with
      | zero => exact ⟨[], .loop n i :: path, rfl, rfl⟩
      | succ down =>
        obtain ⟨inner, outer, rfl, hinner⟩ := ih down (by simpa [loops] using h)
        exact ⟨.loop n i :: inner, outer, rfl, by simp [loops, hinner]⟩

theorem exists_of_loops {inner outer : Path} {l : Site} {ls : List Site} {down : Nat}
    (hl : loops (inner ++ outer) = l :: ls) (hdown : (loops inner).length = down + 1) :
    ∃ rest, l.path = rest ++ outer ∧ (loops rest).length = down := by
  induction inner with
  | nil => simp [loops] at hdown
  | cons f inner ih =>
    cases f with
    | arm n d => exact ih hl (by simpa [loops] using hdown)
    | loop n i =>
      obtain ⟨rfl, -⟩ := List.cons.inj hl
      exact ⟨inner, rfl, by simpa [loops] using hdown⟩

theorem mem_mergeable_append {arms path : Path} {b : Site} (harms : arms.loops = [])
    (hb : b ∈ mergeable path) : b ∈ mergeable (arms ++ path) := by
  induction arms with
  | nil => exact hb
  | cons f arms ih =>
    cases f with
    | arm n d => exact List.mem_cons_of_mem _ (ih harms)
    | loop n i => simp [loops] at harms

end Path

namespace AnnotatedCode

def control : Command.Monitor Control Annotation := ⟨Control.Legal, Control.move⟩

/-- The MCIDs are counted as the thread has them, and so many loops can be left. -/
def Ready (depth : Nat) (k : Control) (l : Locals) : Prop :=
  l.count = k.values.length ∧ depth ≤ (Path.loops k.site.path).length

/-- The thread stands in some arms inside the frames `outer`.  The variables below `n` have not
been assigned. -/
structure Inside (n : Nat) (outer : Path) (k : Control) (l : Locals) (k' : Control) (l' : Locals) :
    Prop where
  count : l'.count = k'.values.length
  values : k.values <+: k'.values
  br : ∀ var < n, l'.br var = l.br var
  arms : ∃ arms : Path, arms.loops = [] ∧ k'.site.path = arms ++ outer

def Leaves (n down : Nat) (k : Control) (l : Locals) (k' : Control) (l' : Locals) : Prop :=
  ∀ inner outer, k.site.path = inner ++ outer → (Path.loops inner).length = down →
    Inside n outer k l k' l'

/-- How many loops a command has left where it ends, for the ways it ends in.  A stopped one may
stand anywhere. -/
def endsAt (n : Nat) (ends : Outcome → Option Nat) (o : Outcome) (k : Control) (l : Locals)
    (k' : Control) (l' : Locals) : Prop :=
  o = .stopped ∨ ∃ down, ends o = some down ∧ Leaves n down k l k' l'

/-- A `return` leaves all loops of the function. -/
def blockEnds (depth : Nat) : Outcome → Option Nat
  | .done | .broken | .continued => some 0
  | .returned => some depth
  | .stopped => none

def onlyDone (down : Nat) : Outcome → Option Nat
  | .done => some down
  | _ => none

variable {n n' down down' depth : Nat} {k k' k₁ : Control} {l l' l₁ : Locals} {outer : Path}
  {o : Outcome}

theorem endsAt.leaves {ends : Outcome → Option Nat} (h : endsAt n ends o k l k' l')
    (hends : ends o = some down) (ho : o ≠ .stopped) : Leaves n down k l k' l' := by
  rcases h with hstop | ⟨m, hm, hleaves⟩
  · exact absurd hstop ho
  · obtain rfl := Option.some_inj.mp (hends.symm.trans hm)
    exact hleaves

theorem Inside.mono (h : Inside n' outer k l k' l') (hn : n ≤ n') : Inside n outer k l k' l' where
  count := h.count
  values := h.values
  br var hvar := h.br var (by omega)
  arms := h.arms

theorem Leaves.mono (h : Leaves n' down k l k' l') (hn : n ≤ n') : Leaves n down k l k' l' :=
  fun inner outer hpath hinner => (h inner outer hpath hinner).mono hn

theorem Leaves.trans (h : Leaves n down k l k₁ l₁) (h' : Leaves n down' k₁ l₁ k' l') :
    Leaves n (down + down') k l k' l' := by
  intro inner outer hpath hinner
  obtain ⟨front, back, rfl, hfront⟩ := Path.exists_split inner down (by omega)
  rw [Path.loops_append, hfront] at hinner
  have hinside := h front (back ++ outer) (by rw [hpath, List.append_assoc]) hfront
  obtain ⟨arms, harms, hpath₁⟩ := hinside.arms
  have hleft := h' (arms ++ back) outer (by rw [hpath₁, List.append_assoc])
    (by rw [Path.loops_append, harms, List.length_nil]; omega)
  exact ⟨hleft.count, hinside.values.trans hleft.values,
    fun var hvar => (hleft.br var hvar).trans (hinside.br var hvar), hleft.arms⟩

theorem endsAt.mono {ends : Outcome → Option Nat} (h : endsAt n' ends o k l k' l') (hn : n ≤ n') :
    endsAt n ends o k l k' l' :=
  h.imp_right fun ⟨m, hm, hleft⟩ => ⟨m, hm, hleft.mono hn⟩

theorem Leaves.endsAt {ends : Outcome → Option Nat} (h : Leaves n 0 k l k₁ l₁)
    (h' : endsAt n ends o k₁ l₁ k' l') : endsAt n ends o k l k' l' := by
  rcases h' with hstop | ⟨m, hm, hleft⟩
  · exact .inl hstop
  · have hboth := h.trans hleft
    rw [Nat.zero_add] at hboth
    exact .inr ⟨m, hm, hboth⟩

theorem Leaves.ready (h : Leaves n down k l k₁ l₁) (hk : Ready (down + depth) k l) :
    Ready depth k₁ l₁ := by
  obtain ⟨inner, outer, hpath, hinner⟩ :=
    Path.exists_split k.site.path down (by have hdepth := hk.2; omega)
  have hinside := h inner outer hpath hinner
  obtain ⟨arms, -, hpath₁⟩ := hinside.arms
  refine ⟨hinside.count, ?_⟩
  have hdepth := hk.2
  rw [hpath, Path.loops_append] at hdepth
  rw [hpath₁, Path.loops_append]
  omega

theorem Ready.refl (hk : Ready depth k l) : Leaves n 0 k l k l := by
  intro inner outer hpath hinner
  exact ⟨hk.1, List.prefix_rfl, fun _ _ => rfl, inner, List.length_eq_zero_iff.mp hinner, hpath⟩

theorem leaves_of_arms (arms : Path) (hcount : l'.count = k'.values.length)
    (hvalues : k.values <+: k'.values) (hbr : ∀ var < n, l'.br var = l.br var)
    (harms : arms.loops = []) (hpath : k'.site.path = arms ++ k.site.path) :
    Leaves n 0 k l k' l' := by
  intro inner outer hk hinner
  refine ⟨hcount, hvalues, hbr, arms ++ inner, ?_, by rw [hpath, hk, List.append_assoc]⟩
  rw [← List.length_eq_zero_iff, Path.loops_append, harms, hinner]
  rfl

theorem Ready.leaves_exitLoop (hk : Ready (depth + 1) k l) :
    k.Legal .exitLoop ∧ Leaves n 1 k l (k.move .exitLoop) l := by
  obtain ⟨site, sites, hloops⟩ : ∃ site sites, Path.loops k.site.path = site :: sites := by
    apply List.exists_cons_of_ne_nil
    have hdepth := hk.2
    intro hnil
    rw [hnil, List.length_nil] at hdepth
    omega
  refine ⟨by simp [Control.Legal, hloops], ?_⟩
  intro inner outer hpath hinner
  obtain ⟨arms, hsite, harms⟩ := Path.exists_of_loops (hpath ▸ hloops) hinner
  have hmove : k.move .exitLoop = k.behind site.next := by simp [Control.move, hloops]
  rw [hmove]
  exact ⟨hk.1, List.prefix_rfl, fun _ _ => rfl, arms, List.length_eq_zero_iff.mp harms, hsite⟩

theorem Leaves.of_enterLoop (h : Leaves n (down + 1) (k.move .enterLoop) l k' l') :
    Leaves n down k l k' l' := by
  intro inner outer hpath hinner
  have hinside := h (.loop k.site.n 0 :: inner) outer (by simp [Control.move, Control.behind,
    Site.body, Site.next, hpath]) (by simp [Path.loops, hinner])
  exact ⟨hinside.count, hinside.values, hinside.br, hinside.arms⟩

/-! ## Blocks -/

open Command

section

variable {callee : Nat → Command Locals Annotation}

private theorem stoppable_command {Stmt : Type} (stmtCommand : Stmt → Command Locals Annotation)
    (block : Block Stmt) : stoppable (block.command stmtCommand callee) =
      block.command stmtCommand callee := by
  cases block <;> exact stoppable_stoppable _

theorem command_append {Stmt : Type} (stmtCommand : Stmt → Command Locals Annotation)
    (block block' : Block Stmt) : (block.append block').command stmtCommand callee =
      seq (block.command stmtCommand callee) (block'.command stmtCommand callee) := by
  induction block with
  | empty => simp only [Block.append, Block.command, stoppable_seq, skip_seq, stoppable_command]
  | jump j rest =>
    have hj : j.outcome ≠ .done := by cases j <;> simp [Jump.outcome]
    simp only [Block.append, Block.command, stoppable_seq, leave_seq hj]
  | plain stmt rest ih => simp only [Block.append, Block.command, stoppable_seq, seq_assoc, ih]
  | call function rest ih => simp only [Block.append, Block.command, stoppable_seq, seq_assoc, ih]
  | ifThen interesting thenArm rest _ ih =>
    simp only [Block.append, Block.command, stoppable_seq, seq_assoc, ih]
  | ifElse interesting thenArm elseArm rest _ _ ih =>
    simp only [Block.append, Block.command, stoppable_seq, seq_assoc, ih]
  | loop body rest _ ih => simp only [Block.append, Block.command, stoppable_seq, seq_assoc, ih]

theorem branchHandler_exitLoops (depth n : Nat) (block : Block AnnotatedStmt) :
    (Block.exitLoops depth block).branchHandler n =
      Block.exitLoops depth (block.branchHandler n) := by
  induction depth with
  | zero => rfl
  | succ depth ih => rw [Block.exitLoops, Block.branchHandler, ih, Block.exitLoops]

variable {c c₁ c₂ : Command Locals Annotation} {ends ends₁ ends₂ : Outcome → Option Nat}

theorem meets_imp (h : Meets control (Ready depth) c (endsAt n' ends₁)) (hn : n ≤ n')
    (hends : ∀ o down, ends₁ o = some down → ends o = some down) :
    Meets control (Ready depth) c (endsAt n ends) := by
  apply h.imp (fun _ _ hk => hk)
  rintro o k l k' l' - hends₁
  exact (hends₁.mono hn).imp_right fun ⟨m, hm, hleft⟩ => ⟨m, hends o m hm, hleft⟩

/-- The second command goes on behind the loops that the first one leaves. -/
theorem meets_seq (h₁ : Meets control (Ready (down + depth)) c₁ (endsAt n ends₁))
    (h₂ : Meets control (Ready depth) c₂ (endsAt n ends₂)) (hdone : ends₁ .done = some down)
    (hleaves : ∀ o ≠ .done, ∀ m, ends₁ o = some m → ends o = some m)
    (hboth : ∀ o m, ends₂ o = some m → ends o = some (down + m)) :
    Meets control (Ready (down + depth)) (seq c₁ c₂) (endsAt n ends) := by
  apply Meets.seq h₁
  · intro k l hk
    apply h₂.imp
    · intro k₁ l₁ hfirst
      exact (hfirst.leaves hdone (by simp)).ready hk
    · rintro o k₁ l₁ k' l' hfirst (hstop | ⟨m, ho, hleft⟩)
      · exact .inl hstop
      · exact .inr ⟨down + m, hboth o m ho, (hfirst.leaves hdone (by simp)).trans hleft⟩
  · rintro o k l k' l' ho - (hstop | ⟨m, hm, hleft⟩)
    · exact .inl hstop
    · exact .inr ⟨m, hleaves o ho m hm, hleft⟩

theorem meets_stoppable (h : Meets control (Ready depth) c (endsAt n ends)) :
    Meets control (Ready depth) (stoppable c) (endsAt n ends) :=
  h.stoppable fun _ _ _ => .inl rfl

theorem meets_emit {label : Locals → Annotation} {next : Locals → Locals}
    (h : ∀ k l, Ready depth k l → k.Legal (label l) ∧
      Leaves n down k l (k.move (label l)) (next l)) :
    Meets control (Ready depth) (emit label next) (endsAt n (onlyDone down)) :=
  .emit (fun k l hk => (h k l hk).1) fun k l hk => .inr ⟨down, rfl, (h k l hk).2⟩

theorem meets_rest (h₁ : Meets control (Ready depth) c₁ (endsAt n (blockEnds depth)))
    (h₂ : Meets control (Ready depth) c₂ (endsAt n' (blockEnds depth))) (hn : n ≤ n') :
    Meets control (Ready depth) (stoppable (seq c₁ c₂)) (endsAt n (blockEnds depth)) := by
  apply meets_stoppable
  have h₂ : Meets control (Ready depth) c₂ (endsAt n (blockEnds depth)) :=
    meets_imp h₂ hn fun _ _ ho => ho
  have hseq : Meets control (Ready (0 + depth)) (seq c₁ c₂) (endsAt n (blockEnds depth)) := by
    apply meets_seq (by rwa [Nat.zero_add]) h₂ rfl
    · exact fun _ _ _ ho => ho
    · intro o m ho
      rwa [Nat.zero_add]
  rwa [Nat.zero_add] at hseq

theorem meets_call_rest {label : Locals → Annotation} {next : Locals → Locals}
    (h : ∀ k l, Ready depth k l → k.Legal (label l) ∧
      Leaves n 0 k l (k.move (label l)) (next l))
    (h₂ : Meets control (Ready depth) c₂ (endsAt n' (blockEnds depth))) (hn : n ≤ n') :
    Meets control (Ready depth) (stoppable (seq (emit label next) c₂))
      (endsAt n (blockEnds depth)) := by
  refine meets_rest (meets_imp (meets_emit h) le_rfl fun o m ho => ?_) h₂ hn
  cases o with
  | done => exact ho
  | _ => cases ho

theorem meets_exitLoop : Meets control (Ready (1 + depth))
    (emit (fun _ => .exitLoop) id : Command Locals Annotation) (endsAt n (onlyDone 1)) := by
  apply meets_emit
  intro k l hk
  rw [Nat.add_comm] at hk
  exact hk.leaves_exitLoop

theorem meets_empty : Meets control (Ready depth)
    (stoppable skip : Command Locals Annotation) (endsAt n (blockEnds depth)) :=
  meets_stoppable (.leave fun _ _ hk => .inr ⟨0, rfl, hk.refl⟩)

theorem meets_exitLoops (depth : Nat) (rest : Block AnnotatedStmt) : Meets control (Ready depth)
    ((Block.exitLoops depth (.jump .returnStmt rest)).command AnnotatedStmt.command callee)
    (endsAt n fun o => if o = .returned then some depth else none) := by
  induction depth with
  | zero =>
    rw [Block.exitLoops, Block.command]
    exact meets_stoppable (.leave fun _ _ hk => .inr ⟨0, rfl, hk.refl⟩)
  | succ depth ih =>
    rw [Block.exitLoops, Block.command]
    apply meets_stoppable
    rw [Nat.add_comm]
    apply meets_seq meets_exitLoop ih rfl
    · intro o ho m hm
      cases o <;> simp_all [onlyDone]
    · intro o m hm
      cases o <;> simp_all

private theorem meets_rounds (h : Meets control (Ready depth) c (endsAt n (blockEnds depth))) :
    Meets control (Ready depth) (Loop c) (endsAt n fun o =>
      if o = .done then some 0 else if o = .returned then some depth else none) := by
  have hround : ∀ o k l k₁ l₁, o = Outcome.done ∨ o = .continued →
      endsAt n (blockEnds depth) o k l k₁ l₁ → Leaves n 0 k l k₁ l₁ := by
    rintro o k l k₁ l₁ (rfl | rfl) hends
    · exact hends.leaves rfl (by simp)
    · exact hends.leaves rfl (by simp)
  apply Meets.loop h
  · exact fun k l hk => .inr ⟨0, rfl, hk.refl⟩
  · intro o k l k₁ l₁ ho hk hends
    exact (hround o k l k₁ l₁ ho hends).ready (by rwa [Nat.zero_add])
  · intro o₁ o k l k₁ l₁ k' l' ho hk hends hrest
    exact (hround o₁ k l k₁ l₁ ho hends).endsAt hrest
  · intro k l k' l' hk hends
    exact .inr ⟨0, rfl, hends.leaves rfl (by simp)⟩
  · rintro o k l k' l' (rfl | rfl) hk hends
    · exact .inr ⟨depth, rfl, hends.leaves rfl (by simp)⟩
    · exact .inl rfl

theorem meets_loop (body rest : Block AnnotatedStmt)
    (hbody : Meets control (Ready (depth + 1)) (body.command AnnotatedStmt.command callee)
      (endsAt n (blockEnds (depth + 1))))
    (hrest : Meets control (Ready depth) (rest.command AnnotatedStmt.command callee)
      (endsAt n' (blockEnds depth))) (hn : n ≤ n') : Meets control (Ready depth)
    (Block.command AnnotatedStmt.command callee
      (.plain (.mc2 .enterLoop) (.loop body (.plain (.mc2 .exitLoop) rest))))
    (endsAt n (blockEnds depth)) := by
  have hexit : Meets control (Ready (1 + depth))
      (Block.command AnnotatedStmt.command callee (.plain (.mc2 .exitLoop) rest))
      (endsAt n fun o => (blockEnds depth o).map (1 + ·)) := by
    apply meets_stoppable
    apply meets_seq meets_exitLoop (meets_imp hrest hn fun _ _ ho => ho) rfl
    · intro o ho m hm
      cases o <;> simp_all [onlyDone]
    · intro o m ho
      rw [ho, Option.map_some]
  have hloop : Meets control (Ready (0 + (1 + depth)))
      (Block.command AnnotatedStmt.command callee (.loop body (.plain (.mc2 .exitLoop) rest)))
      (endsAt n fun o => (blockEnds depth o).map (1 + ·)) := by
    apply meets_stoppable
    rw [Nat.add_comm depth] at hbody
    apply meets_seq (by rw [Nat.zero_add]; exact meets_rounds hbody) hexit rfl
    · intro o ho m hm
      cases o <;> simp_all [blockEnds]
    · intro o m ho
      rwa [Nat.zero_add]
  rw [Nat.zero_add] at hloop
  have henter : Meets control (Ready depth) (AnnotatedStmt.mc2 .enterLoop).command
      fun o k l k₁ l₁ => o = .done ∧ k₁ = k.move .enterLoop ∧ l₁ = l :=
    .emit (fun _ _ _ => trivial) fun _ _ _ => ⟨rfl, rfl, rfl⟩
  apply meets_stoppable
  apply henter.seq
  · intro k l hk
    apply hloop.imp
    · rintro k₁ l₁ ⟨-, rfl, rfl⟩
      refine ⟨hk.1, ?_⟩
      have hdepth := hk.2
      simp only [Control.move, Control.behind, Site.body, Site.next, Path.loops, List.length_cons]
      omega
    · rintro o k₁ l₁ k' l' ⟨-, rfl, rfl⟩ (hstop | ⟨m, hm, hleft⟩)
      · exact .inl hstop
      · obtain ⟨down, hdown, rfl⟩ := Option.map_eq_some_iff.mp hm
        rw [Nat.add_comm] at hleft
        exact .inr ⟨down, hdown, hleft.of_enterLoop⟩
  · rintro o k l k' l' ho - ⟨hdone, -⟩
    exact absurd hdone ho

/-! ## Branches -/

theorem Ready.leaves_branchDir (hk : Ready depth k l) (var direction : Nat) :
    Leaves var 0 k l (k.move (.branchDir direction))
      ⟨l.count + 1, Function.update l.br var l.count⟩ := by
  apply leaves_of_arms [.arm k.site.n direction]
  · simp [Control.move, hk.1]
  · exact List.prefix_append _ _
  · intro v hv
    exact Function.update_of_ne (by omega) _ _
  · rfl
  · rfl

/-- The merge of an arm names the record of its branch, however the thread got through the arm. -/
theorem Leaves.merge {var direction : Nat} (hk : Ready depth k l)
    (h : Leaves (var + 1) 0 (k.move (.branchDir direction))
      ⟨l.count + 1, Function.update l.br var l.count⟩ k₁ l₁) :
    k₁.Legal (.merge (l₁.br var)) ∧ Leaves var 0 k l (k₁.move (.merge (l₁.br var))) l₁ := by
  have hinside := h [] _ rfl rfl
  obtain ⟨arms, harms, hpath⟩ := hinside.arms
  have hvar : l₁.br var = k.values.length := by
    rw [hinside.br var (by omega)]
    simpa using hk.1
  have hvalue : k₁.values[l₁.br var]? = some k.site := by
    obtain ⟨more, hvalues⟩ := hinside.values
    rw [hvar, ← hvalues]
    simp [Control.move]
  constructor
  · refine ⟨k.site, hvalue, ?_⟩
    rw [hpath]
    apply Path.mem_mergeable_append harms
    simp [Path.mergeable]
  · have hmove : k₁.move (.merge (l₁.br var)) = k₁.behind k.site.next := by
      simp [Control.move, hvalue]
    rw [hmove]
    apply leaves_of_arms []
    · exact hinside.count
    · exact (List.prefix_append _ _).trans hinside.values
    · intro v hv
      rw [hinside.br v (by omega)]
      exact Function.update_of_ne (by omega) _ _
    · rfl
    · rfl

/-- The call at the end of an arm, for a thread that has gone into the arm from `k`. -/
theorem meets_merge {var direction : Nat} (hk : Ready depth k l) :
    Meets control (Leaves (var + 1) 0 (k.move (.branchDir direction))
        ⟨l.count + 1, Function.update l.br var l.count⟩)
      (Block.command AnnotatedStmt.command callee (.plain (.mc2 (.merge var)) .empty))
      fun o _ _ k' l' => endsAt var (blockEnds depth) o k l k' l' := by
  have hmerge : Meets control (Leaves (var + 1) 0 (k.move (.branchDir direction))
      ⟨l.count + 1, Function.update l.br var l.count⟩)
      (AnnotatedStmt.mc2 (.merge var)).command
      fun o _ _ k' l' => o = .done ∧ Leaves var 0 k l k' l' :=
    .emit (fun _ _ h => (h.merge hk).1) fun _ _ h => ⟨rfl, (h.merge hk).2⟩
  refine .stoppable (hmerge.seq (fun _ _ _ => ?_) ?_) fun _ _ _ => .inl rfl
  · refine .stoppable (.leave ?_) fun _ _ _ => .inl rfl
    rintro k' l' ⟨-, hleft⟩
    exact .inr ⟨0, rfl, hleft⟩
  · rintro o k₁ l₁ k' l' ho - ⟨hdone, -⟩
    exact absurd hdone ho

theorem meets_arm {var : Nat} (direction : Nat) (arm : Block AnnotatedStmt) (leaves : Bool)
    (harm : Meets control (Ready depth) (arm.command AnnotatedStmt.command callee)
      (endsAt (var + 1) (blockEnds depth))) : Meets control (Ready depth)
    ((Block.annotatedArm var direction arm leaves).command AnnotatedStmt.command callee)
    (endsAt var (blockEnds depth)) := by
  unfold Block.annotatedArm
  cases leaves with
  | true =>
    apply meets_call_rest _ (by simpa using harm) (Nat.le_succ var)
    exact fun k l hk => ⟨trivial, hk.leaves_branchDir var direction⟩
  | false =>
    have hfirst : Meets control (Ready depth)
        (AnnotatedStmt.mc2 (.branchUsesID var direction)).command fun o k l k₁ l₁ => o = .done ∧
          k₁ = k.move (.branchDir direction) ∧
            l₁ = ⟨l.count + 1, Function.update l.br var l.count⟩ :=
      .emit (fun _ _ _ => trivial) fun _ _ _ => ⟨rfl, rfl, rfl⟩
    simp only [Bool.false_eq_true, if_false]
    rw [Block.command, command_append]
    apply meets_stoppable
    apply hfirst.seq
    · intro k l hk
      have hinside : Meets control (fun k₁ l₁ => Outcome.done = .done ∧
          k₁ = k.move (.branchDir direction) ∧
            l₁ = ⟨l.count + 1, Function.update l.br var l.count⟩)
          (arm.command AnnotatedStmt.command callee) fun o _ _ => endsAt (var + 1)
            (blockEnds depth) o (k.move (.branchDir direction))
              ⟨l.count + 1, Function.update l.br var l.count⟩ := by
        apply harm.imp
        · rintro k₁ l₁ ⟨-, rfl, rfl⟩
          exact (hk.leaves_branchDir var direction).ready (by rwa [Nat.zero_add])
        · rintro o k₁ l₁ k' l' ⟨-, rfl, rfl⟩ hends
          exact hends
      apply hinside.seq
      · rintro k₁ l₁ ⟨-, rfl, rfl⟩
        apply (meets_merge hk).imp
        · exact fun k' l' hends => hends.leaves rfl (by simp)
        · exact fun o k₁ l₁ k' l' _ hends => hends
      · rintro o k₁ l₁ k' l' ho ⟨-, rfl, rfl⟩ hends
        exact (hk.leaves_branchDir var direction).endsAt (hends.mono (Nat.le_succ var))
    · rintro o k l k' l' ho - ⟨hdone, -⟩
      exact absurd hdone ho

private theorem meets_call {c : Command Locals Annotation}
    (h : Meets control (Ready 0) c (endsAt 0 (blockEnds 0))) :
    Meets control (Ready depth) (Command.call .enter .back c) (endsAt n (blockEnds depth)) := by
  apply Meets.call h
  · exact fun k l hk => ⟨hk.1, Nat.zero_le _⟩
  · intro o k l k' l' ho hk hends
    have hleft : Leaves 0 0 k l.enter k' l' := by
      rcases ho with rfl | rfl <;> exact hends.leaves rfl (by simp)
    refine .inr ⟨0, rfl, fun inner outer hpath hinner => ?_⟩
    have hinside := hleft inner outer hpath hinner
    exact ⟨hinside.count, hinside.values, fun _ _ => rfl, hinside.arms⟩
  · exact fun k l k' l' _ _ => .inl rfl

theorem Ready.leaves_source {event : {et : EventType // Control.IsPlain et}} {numinputs : Nat}
    (hk : Ready depth k l) : k.Legal (.event event numinputs) ∧
      Leaves n 0 k l (k.move (.event event numinputs)) l :=
  ⟨event.2, leaves_of_arms [] hk.1 List.prefix_rfl (fun _ _ => rfl) rfl rfl⟩

/-- The calls of an annotated block are legal, and the block leaves the thread where it found it,
up to arms and the loops of a `return`. -/
theorem meets_block (hcallee : ∀ f, Meets control (Ready 0) (callee f) (endsAt 0 (blockEnds 0)))
    (block : Block PlainStmt) (n depth : Nat) : Meets control (Ready depth)
    (((block.loopHandler depth).branchHandler n).command AnnotatedStmt.command callee)
    (endsAt n (blockEnds depth)) := by
  induction block generalizing n depth with
  | empty => exact meets_empty
  | plain stmt rest ih =>
    simp only [Block.loopHandler, Block.branchHandler, Block.command]
    cases stmt with
    | event event numinputs =>
      exact meets_call_rest (fun k l hk => hk.leaves_source) (ih n depth) le_rfl
    | thrd_create =>
      apply meets_call_rest _ (ih n depth) le_rfl
      exact fun k l hk => ⟨trivial, leaves_of_arms [] hk.1 List.prefix_rfl (fun _ _ => rfl) rfl rfl⟩
  | jump j rest ih =>
    cases j with
    | returnStmt =>
      rw [Block.loopHandler, branchHandler_exitLoops, Block.branchHandler]
      apply meets_imp (meets_exitLoops depth _) le_rfl
      intro o m hm
      cases o <;> simp_all [blockEnds]
    | breakStmt => exact meets_stoppable (.leave fun _ _ hk => .inr ⟨0, rfl, hk.refl⟩)
    | continueStmt => exact meets_stoppable (.leave fun _ _ hk => .inr ⟨0, rfl, hk.refl⟩)
  | call function rest ih => exact meets_rest (meets_call (hcallee function)) (ih n depth) le_rfl
  | ifThen interesting thenArm rest ihthen ih =>
    cases interesting with
    | false =>
      simp only [Block.loopHandler, Block.branchHandler, Block.command]
      exact meets_rest (.either (ihthen n depth) meets_empty) (ih _ depth)
        (by omega)
    | true =>
      simp only [Block.loopHandler, Block.branchHandler, Block.command]
      exact meets_rest (.either (meets_arm 1 _ _ (ihthen (n + 1) depth))
        (meets_arm 0 .empty _ meets_empty)) (ih _ depth) (by omega)
  | ifElse interesting thenArm elseArm rest ihthen ihelse ih =>
    cases interesting with
    | false =>
      simp only [Block.loopHandler, Block.branchHandler, Block.command]
      exact meets_rest (.either (ihthen n depth)
        (meets_imp (ihelse _ depth) (by omega) fun _ _ ho => ho)) (ih _ depth) (by omega)
    | true =>
      simp only [Block.loopHandler, Block.branchHandler, Block.command]
      exact meets_rest (.either (meets_arm 1 _ _ (ihthen (n + 1) depth)) (meets_arm 0 _ _
        (meets_imp (ihelse _ depth) (by omega) fun _ _ ho => ho))) (ih _ depth) (by omega)
  | loop body rest ihbody ih =>
    exact meets_loop _ _ (ihbody n (depth + 1)) (ih _ depth) (by omega)

end

/-! ## Programs -/

theorem annotate_getElem? (branchCount : Nat) (program : List (Block PlainStmt)) (function : Nat) :
    ∃ n, (annotate branchCount program)[function]? =
      program[function]?.map fun block => (block.loopHandler 0).branchHandler n := by
  induction program generalizing branchCount function with
  | nil => exact ⟨0, rfl⟩
  | cons block program ih =>
    cases function with
    | zero => exact ⟨branchCount, rfl⟩
    | succ function =>
      obtain ⟨n, hn⟩ := ih (branchCount + block.numBranches) function
      exact ⟨n, by simpa [annotate] using hn⟩

/-- The calls of every run of a function of the annotated program are legal, and a run to the end
leaves no loop open. -/
theorem meets_function (program : List (Block PlainStmt)) (branchCount depth function : Nat) :
    Meets control (Ready 0)
      (functionCommand AnnotatedStmt.command (annotate branchCount program) depth function)
      (endsAt 0 (blockEnds 0)) := by
  induction depth generalizing function with
  | zero => exact .leave fun _ _ _ => .inl rfl
  | succ depth ih =>
    obtain ⟨n, hn⟩ := annotate_getElem? branchCount program function
    rw [functionCommand, hn]
    cases program[function]? with
    | none => exact .leave fun _ _ hk => .inr ⟨0, rfl, hk.refl⟩
    | some block =>
      exact meets_imp (meets_block ih block n 0) (Nat.zero_le n) fun _ _ ho => ho

end AnnotatedCode

/-- The calls of a thread that runs a function, and how the function ends. -/
def RunsFunction (program : List (Block AnnotatedStmt)) (o : Outcome) (calls : List Annotation) :
    Prop :=
  ∃ parent function depth out l, calls = .threadStart parent :: out ∧
    functionCommand AnnotatedStmt.command program depth function .start out l o

def Threads.after (ts : Threads) (calls : List (Nat × Annotation)) : Threads :=
  calls.foldl (fun ts call => ts.move call.1 call.2) ts

/-- A run of the program: the calls of its threads in any order, where a thread is started behind
the THREADCREATE of its creator. -/
structure RunsProgram (program : List (Block AnnotatedStmt)) (calls : List (Nat × Annotation)) :
    Prop where
  threads : ∀ tid, threadCalls tid calls = [] ∨
    ∃ o, RunsFunction program o (threadCalls tid calls)
  parents : ∀ i tid parent, calls[i]? = some (tid, .threadStart (some parent)) →
    parent ∈ (Threads.start.after (calls.take i)).created

theorem Threads.wellNested_of_threads {ts : Threads} {calls : List (Nat × Annotation)}
    (hthreads : ∀ tid, AnnotatedCode.control.Accepts (ts.control tid) (threadCalls tid calls))
    (hparents : ∀ (i tid : Nat) (parent : ExecPoint),
      calls[i]? = some (tid, .threadStart (some parent)) →
        parent ∈ (ts.after (calls.take i)).created) : ts.WellNested calls := by
  induction calls generalizing ts with
  | nil => trivial
  | cons call calls ih =>
    obtain ⟨tid, call⟩ := call
    have hfirst := hthreads tid
    rw [threadCalls_cons, if_pos rfl] at hfirst
    refine ⟨⟨hfirst.1, ?_⟩, ih ?_ ?_⟩
    · rintro parent rfl
      exact hparents 0 tid parent rfl
    · intro t
      by_cases ht : t = tid
      · subst ht
        have hrest : AnnotatedCode.control.Accepts ((ts.control t).move call)
            (threadCalls t calls) := hfirst.2
        simpa [Threads.move] using hrest
      · have hrest := hthreads t
        rw [threadCalls_cons, if_neg ht] at hrest
        simpa [Threads.move, ht] using hrest
    · exact fun i => hparents (i + 1)

theorem Threads.control_after (ts : Threads) (calls : List (Nat × Annotation)) (tid : Nat) :
    (ts.after calls).control tid =
      AnnotatedCode.control.after (ts.control tid) (threadCalls tid calls) := by
  induction calls generalizing ts with
  | nil => rfl
  | cons call calls ih =>
    obtain ⟨t, call⟩ := call
    have hcons : ts.after ((t, call) :: calls) = (ts.move t call).after calls := rfl
    rw [hcons, ih, threadCalls_cons]
    split_ifs with ht
    · subst ht
      simp [Threads.move, AnnotatedCode.control]
    · simp [Threads.move, ht]

open AnnotatedCode in
/-- A thread of the annotated program makes legal calls, and has no loop open behind its
function. -/
theorem RunsFunction.accepts {branchCount : Nat} {program : List (Block PlainStmt)} {o : Outcome}
    {calls : List Annotation} (h : RunsFunction (annotate branchCount program) o calls) :
    control.Accepts Control.start calls ∧ (o = .done ∨ o = .returned →
      Path.loops (control.after Control.start calls).site.path = []) := by
  obtain ⟨parent, function, depth, out, l, rfl, hout⟩ := h
  have hready : Ready 0 (Control.start.move (.threadStart parent)) Locals.start :=
    ⟨rfl, Nat.zero_le _⟩
  obtain ⟨haccepts, hends⟩ :=
    meets_function program branchCount depth function _ _ hready _ _ _ hout
  refine ⟨⟨trivial, haccepts⟩, fun ho => ?_⟩
  have hleft : Leaves 0 0 (Control.start.move (.threadStart parent)) Locals.start
      (control.after (Control.start.move (.threadStart parent)) out) l := by
    rcases ho with rfl | rfl <;> exact hends.leaves rfl (by simp)
  obtain ⟨arms, harms, hpath⟩ := (hleft [] [] rfl rfl).arms
  rw [List.append_nil] at hpath
  rwa [← hpath] at harms

/-- Whatever its threads do and however they are interleaved, the calls of the annotated program
are well nested, and the threads that have come to the end of their functions have left all
loops. -/
theorem annotate_wellNested {branchCount : Nat} {program : List (Block PlainStmt)}
    {calls : List (Nat × Annotation)} (h : RunsProgram (annotate branchCount program) calls) :
    Threads.start.WellNested calls ∧ ∀ tid o, o = .done ∨ o = .returned →
      RunsFunction (annotate branchCount program) o (threadCalls tid calls) →
        Path.loops ((Threads.start.after calls).control tid).site.path = [] := by
  constructor
  · apply Threads.wellNested_of_threads _ h.parents
    intro tid
    rcases h.threads tid with hnone | ⟨o, hruns⟩
    · rw [hnone]
      trivial
    · exact hruns.accepts.1
  · intro tid o ho hruns
    rw [Threads.control_after]
    exact hruns.accepts.2 ho

/-- A function that creates a thread and polls until its load is positive, and the function of that
thread. -/
def pollProgram : List (Block PlainStmt) :=
  [.plain .thrd_create (.loop (.plain (.event ⟨.load, trivial⟩ 0)
    (.ifThen true (.jump .breakStmt .empty) .empty)) .empty),
   .plain (.event ⟨.store, trivial⟩ 2) .empty]

def pollRun : List (Nat × Annotation) :=
  [(0, .threadStart none), (0, .threadCreate), (0, .enterLoop),
    (1, .threadStart (some (Site.ep 0 ⟨[], 1⟩))), (0, .event .load 0), (0, .branchDir 0),
    (0, .merge 0), (1, .event .store 2), (0, .event .load 0), (0, .branchDir 1), (0, .exitLoop)]

theorem functionCommand_poll : functionCommand AnnotatedStmt.command (annotate 0 pollProgram) 1 0
    .start (threadCalls 0 pollRun).tail
    ⟨2, Function.update (Function.update (fun _ => 0) 0 0) 0 1⟩ .done := by
  refine .inr (.inr ⟨[.threadCreate], _, _, ⟨rfl, rfl, rfl⟩, ?_, rfl⟩)
  refine .inr (.inr ⟨[.enterLoop], _, _, ⟨rfl, rfl, rfl⟩, ?_, rfl⟩)
  refine .inr (.inr ⟨[.event .load 0, .branchDir 0, .merge 0, .event .load 0, .branchDir 1], _, _,
    ?_, .inr (.inr ⟨[.exitLoop], _, _, ⟨rfl, rfl, rfl⟩, .inr ⟨rfl, rfl, rfl⟩, rfl⟩), rfl⟩)
  change Command.Loop _ _ ([.event .load 0, .branchDir 0, .merge 0] ++
    [.event .load 0, .branchDir 1] : List Annotation) _ _
  refine @Command.Loop.again _ _ _ _ ⟨1, Function.update (fun _ => 0) 0 0⟩ _ _ _ _ _ ?_ (.inl rfl)
    (.breaks ?_)
  · refine .inr (.inr ⟨[.event .load 0], _, _, ⟨rfl, rfl, rfl⟩, ?_, rfl⟩)
    refine .inr (.inr ⟨[.branchDir 0, .merge 0], _, [], .inr ?_, .inr ⟨rfl, rfl, rfl⟩, rfl⟩)
    refine .inr (.inr ⟨[.branchDir 0], _, _, ⟨rfl, rfl, rfl⟩, ?_, rfl⟩)
    exact .inr (.inr ⟨[.merge 0], _, [], ⟨rfl, rfl, rfl⟩, .inr ⟨rfl, rfl, rfl⟩, rfl⟩)
  · refine .inr (.inr ⟨[.event .load 0], _, _, ⟨rfl, rfl, rfl⟩, ?_, rfl⟩)
    refine .inr (.inl ⟨by simp, .inl ?_⟩)
    exact .inr (.inr ⟨[.branchDir 1], _, [], ⟨rfl, rfl, rfl⟩, .inr ⟨rfl, rfl, rfl⟩, rfl⟩)

theorem runsFunction_poll :
    RunsFunction (annotate 0 pollProgram) .done (threadCalls 0 pollRun) :=
  ⟨none, 0, 1, _, _, rfl, functionCommand_poll⟩

theorem runsProgram_poll : RunsProgram (annotate 0 pollProgram) pollRun where
  threads tid := by
    match tid with
    | 0 => exact .inr ⟨.done, runsFunction_poll⟩
    | 1 =>
      refine .inr ⟨.done, some (Site.ep 0 ⟨[], 1⟩), 1, 1, _, .start, rfl, ?_⟩
      exact .inr (.inr ⟨[.event .store 2], _, [], ⟨rfl, rfl, rfl⟩, .inr ⟨rfl, rfl, rfl⟩, rfl⟩)
    | tid + 2 => exact .inl (by simp [threadCalls, pollRun])
  parents := by
    intro i tid parent hi
    obtain _ | _ | _ | _ | i := i
    · simp [pollRun] at hi
    · simp [pollRun] at hi
    · simp [pollRun] at hi
    · obtain ⟨rfl, rfl⟩ : tid = 1 ∧ parent = Site.ep 0 ⟨[], 1⟩ := by
        simpa [pollRun, eq_comm] using hi
      decide
    · have hmem : (tid, Annotation.threadStart (some parent)) ∈ pollRun.drop 4 :=
        List.mem_of_getElem? hi
      simp [pollRun] at hmem

/-- The run of the polling program, with its two threads. -/
theorem annotate_wellNested_poll : Threads.start.WellNested pollRun ∧
    Path.loops ((Threads.start.after pollRun).control 0).site.path = [] :=
  have hboth := annotate_wellNested runsProgram_poll
  ⟨hboth.1, hboth.2 0 .done (.inl rfl) runsFunction_poll⟩

/-- The graph of the runs has what the threads of the annotated program leave, and no more. -/
theorem annotate_logged {branchCount : Nat} {program : List (Block PlainStmt)}
    {executions : List (List (Nat × Annotation))}
    (h : ∀ calls ∈ executions, RunsProgram (annotate branchCount program) calls) :
    (Recorder.empty.runs executions).Linked ∧
      (Recorder.empty.runs executions).Logged (Recorder.runsLog executions) :=
  Recorder.logged_runs fun calls hcalls => (annotate_wellNested (h calls hcalls)).1

theorem annotate_logged_poll : (Recorder.empty.runs [pollRun, pollRun]).Linked ∧
    (Recorder.empty.runs [pollRun, pollRun]).Logged (Recorder.runsLog [pollRun, pollRun]) := by
  apply annotate_logged
  intro calls hcalls
  obtain rfl : calls = pollRun := by simpa using hcalls
  exact runsProgram_poll

end SatCheck
