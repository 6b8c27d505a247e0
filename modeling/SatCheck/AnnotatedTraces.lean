import SatCheck.AnnotatedRuns
/-!
# What annotation keeps

Apart from the inserted calls, the annotated program makes the calls of the program and ends in the
same ways.
-/

namespace SatCheck

open Command

def Annotation.isSource : Annotation → Bool
  | .event _ _ | .threadCreate => true
  | _ => false

namespace AnnotatedCode

variable {callee callee' : Nat → Command Locals Annotation}

theorem interruptible (block : Block PlainStmt) :
    Interruptible (block.command PlainStmt.command callee) := by
  induction block with
  | empty => exact .skip
  | jump j rest => exact .leave (by cases j <;> simp [Jump.outcome])
  | plain stmt rest ih => exact .seq _ ih
  | call function rest ih => exact .seq _ ih
  | ifThen interesting thenArm rest _ ih => exact .seq _ ih
  | ifElse interesting thenArm elseArm rest _ _ ih => exact .seq _ ih
  | loop body rest _ ih => exact .seq _ ih

theorem sameTraces_insert {c c' : Command Locals Annotation} (call : MC2Call)
    (h : SameTraces Annotation.isSource c c') (hc' : Interruptible c') :
    SameTraces Annotation.isSource (stoppable (seq (AnnotatedStmt.mc2 call).command c)) c' := by
  apply SameTraces.stop_of_front _ hc'.front
  apply SameTraces.hidden_seq _ h
  cases call <;> exact .emit_skip fun _ => rfl

private theorem sameTraces_append {c c' : Command Locals Annotation} (call : MC2Call)
    (h : SameTraces Annotation.isSource c c') (hc' : Interruptible c') :
    SameTraces Annotation.isSource
      (seq c (Block.command AnnotatedStmt.command callee (.plain (.mc2 call) .empty))) c' := by
  have hcall := sameTraces_insert call (.stoppable (.leave .done)) Interruptible.skip
  exact (SameTraces.seq (h.trans h.symm) hcall).trans (h.seq_stop hc')

private theorem sameTraces_exitLoops (depth : Nat) (rest : Block AnnotatedStmt) :
    SameTraces Annotation.isSource
      ((Block.exitLoops depth (.jump .returnStmt rest)).command AnnotatedStmt.command callee)
      (stoppable (leave .returned)) := by
  induction depth with
  | zero => exact .stoppable (.leave .returned)
  | succ depth ih => exact sameTraces_insert .exitLoop ih (.leave (by simp))

theorem sameTraces_arm {var direction : Nat} {arm : Block AnnotatedStmt} (leaves : Bool)
    {c : Command Locals Annotation}
    (h : SameTraces Annotation.isSource (arm.command AnnotatedStmt.command callee) c)
    (hc : Interruptible c) : SameTraces Annotation.isSource
      ((Block.annotatedArm var direction arm leaves).command AnnotatedStmt.command callee) c := by
  apply sameTraces_insert (.branchUsesID var direction) _ hc
  cases leaves with
  | true => exact h
  | false =>
    simp only [Bool.false_eq_true, if_false]
    rw [command_append]
    exact sameTraces_append (.merge var) h hc

/-- Annotation keeps the runs of a block when it keeps those of the functions called. -/
theorem sameTraces_block (hcallee : ∀ f, SameTraces Annotation.isSource (callee f) (callee' f))
    (block : Block PlainStmt) (n depth : Nat) : SameTraces Annotation.isSource
    (((block.loopHandler depth).branchHandler n).command AnnotatedStmt.command callee)
    (block.command PlainStmt.command callee') := by
  induction block generalizing n depth with
  | empty => exact .stoppable (.leave .done)
  | plain stmt rest ih =>
    cases stmt <;> exact .stoppable (.seq (.emit _ _ _) (ih n depth))
  | jump j rest ih =>
    cases j with
    | returnStmt =>
      rw [Block.loopHandler, branchHandler_exitLoops, Block.branchHandler]
      exact sameTraces_exitLoops depth _
    | breakStmt => exact .stoppable (.leave .broken)
    | continueStmt => exact .stoppable (.leave .continued)
  | call function rest ih => exact .stoppable (.seq (.call (hcallee function)) (ih n depth))
  | ifThen interesting thenArm rest ihthen ih =>
    cases interesting with
    | false =>
      exact .stoppable (.seq (.either (ihthen n depth) (.stoppable (.leave .done))) (ih _ depth))
    | true =>
      have helse : SameTraces Annotation.isSource
          ((Block.annotatedArm n 0 .empty false).command AnnotatedStmt.command callee)
          (.stoppable (.leave .done)) :=
        sameTraces_arm false (.stoppable (.leave .done)) Interruptible.skip
      exact .stoppable (.seq (.either
        (sameTraces_arm _ (ihthen (n + 1) depth) (interruptible thenArm)) helse) (ih _ depth))
  | ifElse interesting thenArm elseArm rest ihthen ihelse ih =>
    cases interesting with
    | false => exact .stoppable (.seq (.either (ihthen n depth) (ihelse _ depth)) (ih _ depth))
    | true =>
      exact .stoppable (.seq (.either
        (sameTraces_arm _ (ihthen (n + 1) depth) (interruptible thenArm))
        (sameTraces_arm _ (ihelse _ depth) (interruptible elseArm))) (ih _ depth))
  | loop body rest ihbody ih =>
    have hexit := sameTraces_insert .exitLoop (ih (n + (body.loopHandler (depth + 1)).numBranches)
      depth) (interruptible rest)
    exact sameTraces_insert .enterLoop (.stoppable (.seq (.loop (ihbody n (depth + 1))) hexit))
      (.seq _ (interruptible rest))

def sources : Monitor Unit Annotation := ⟨fun _ call => call.isSource, fun _ _ => ()⟩

abbrev OnlySources (c : Command Locals Annotation) : Prop :=
  Meets sources (fun _ _ => True) c fun _ _ _ _ _ => True

private theorem onlySources_rest {c c' : Command Locals Annotation} (h : OnlySources c)
    (h' : OnlySources c') : OnlySources (stoppable (seq c c')) := by
  refine .stoppable (h.seq (fun _ _ _ => ?_) fun _ _ _ _ _ _ _ _ => trivial) fun _ _ _ => trivial
  exact h'.imp (fun _ _ _ => trivial) fun _ _ _ _ _ _ _ => trivial

private theorem onlySources_empty : OnlySources (stoppable skip) :=
  .stoppable (.leave fun _ _ _ => trivial) fun _ _ _ => trivial

private theorem onlySources_block (hcallee : ∀ f, OnlySources (callee f))
    (block : Block PlainStmt) :
    OnlySources (block.command PlainStmt.command callee) := by
  induction block with
  | empty => exact onlySources_empty
  | plain stmt rest ih =>
    apply onlySources_rest _ ih
    cases stmt <;> exact .emit (fun _ _ _ => rfl) fun _ _ _ => trivial
  | jump j rest => exact .stoppable (.leave fun _ _ _ => trivial) fun _ _ _ => trivial
  | call function rest ih =>
    apply onlySources_rest _ ih
    exact .call (hcallee function) (fun _ _ _ => trivial) (fun _ _ _ _ _ _ _ _ => trivial)
      fun _ _ _ _ _ _ => trivial
  | ifThen interesting thenArm rest ihthen ih =>
    exact onlySources_rest (.either ihthen onlySources_empty) ih
  | ifElse interesting thenArm elseArm rest ihthen ihelse ih =>
    exact onlySources_rest (.either ihthen ihelse) ih
  | loop body rest ihbody ih =>
    apply onlySources_rest _ ih
    exact .loop ihbody (fun _ _ _ => trivial) (fun _ _ _ _ _ _ _ _ => trivial)
      (fun _ _ _ _ _ _ _ _ _ _ _ _ => trivial) (fun _ _ _ _ _ _ => trivial)
      fun _ _ _ _ _ _ _ _ => trivial

private theorem onlySources_function (program : List (Block PlainStmt)) (depth function : Nat) :
    OnlySources (functionCommand PlainStmt.command program depth function) := by
  induction depth generalizing function with
  | zero => exact .leave fun _ _ _ => trivial
  | succ depth ih =>
    rw [functionCommand]
    cases program[function]? with
    | none => exact .leave fun _ _ _ => trivial
    | some block => exact onlySources_block ih block

private theorem accepts_sources {k : Unit} {calls : List Annotation} (h : sources.Accepts k calls) :
    calls.filter Annotation.isSource = calls := by
  induction calls generalizing k with
  | nil => rfl
  | cons call calls ih => rw [List.filter_cons_of_pos h.1, ih h.2]

private theorem sameTraces_function (program : List (Block PlainStmt))
    (branchCount depth function : Nat) :
    SameTraces Annotation.isSource
      (functionCommand AnnotatedStmt.command (annotate branchCount program) depth function)
      (functionCommand PlainStmt.command program depth function) := by
  induction depth generalizing function with
  | zero => exact .leave .stopped
  | succ depth ih =>
    obtain ⟨n, hn⟩ := annotate_getElem? branchCount program function
    rw [functionCommand, functionCommand, hn]
    cases program[function]? with
    | none => exact .leave .done
    | some block => exact sameTraces_block ih block n 0

end AnnotatedCode

/-- The runs of a function of the annotated program are those of the function, with the inserted
calls between its own: each run of the one is a run of the other, to the same end. -/
theorem annotate_traces (program : List (Block PlainStmt)) (branchCount depth function : Nat)
    (l l' : Locals) (calls : List Annotation) (o : Outcome) :
    (∃ annotated l₁, functionCommand AnnotatedStmt.command (annotate branchCount program) depth
        function l annotated l₁ o ∧ annotated.filter Annotation.isSource = calls) ↔
      ∃ l₁, functionCommand PlainStmt.command program depth function l' calls l₁ o := by
  rw [AnnotatedCode.sameTraces_function program branchCount depth function l l' calls o]
  have honly := AnnotatedCode.onlySources_function program depth function () l' trivial
  constructor
  · rintro ⟨source, l₁, hruns, rfl⟩
    rw [AnnotatedCode.accepts_sources (honly source l₁ o hruns).1]
    exact ⟨l₁, hruns⟩
  · rintro ⟨l₁, hruns⟩
    exact ⟨calls, l₁, hruns, AnnotatedCode.accepts_sources (honly calls l₁ o hruns).1⟩

/-- The run of the annotated polling program is one of the program: it creates the thread and
loads twice. -/
theorem annotate_traces_poll : ∃ l₁, functionCommand PlainStmt.command pollProgram 1 0 .start
    [.threadCreate, .event .load 0, .event .load 0] l₁ .done :=
  (annotate_traces pollProgram 0 1 0 .start .start _ .done).mp
    ⟨_, _, functionCommand_poll, rfl⟩

end SatCheck
