import SatCheck.ThreadRuns
import SatCheck.Library.Commands
/-!
# Annotated code

The control flow that the annotator sees, with the calls that `LoopHandler` and
`BranchAnnotationHandler` insert.  The handlers insert text, and the tree has it where the arms of
a branch and the bodies of the loops are braced, with white space behind the braces: in front of a
statement without braces it would leave the arm or the body.  There is no `switch`, and the
operations in a condition stand in front of the statement.
-/

namespace SatCheck

/-- The inserted calls.  `var` is the number of a variable `_br`. -/
inductive MC2Call where
  | branchUsesID (var direction : Nat)
  | merge (var : Nat)
  | enterLoop
  | exitLoop
  deriving DecidableEq, Repr

/-- A statement of the program that is annotated with one call, or `thrd_create`. -/
inductive PlainStmt where
  | event (event : {et : EventType // Control.IsPlain et}) (numinputs : Nat)
  | thrd_create
  deriving DecidableEq, Repr

inductive AnnotatedStmt where
  | source (stmt : PlainStmt)
  | mc2 (call : MC2Call)
  deriving DecidableEq, Repr

inductive Jump where
  | breakStmt
  | continueStmt
  | returnStmt
  deriving DecidableEq, Repr

/-- The statements of a block, each with the ones behind it.  `interesting` tells that the condition
mentions a variable, and `call` names a function of the program by its place. -/
inductive Block (Stmt : Type) where
  | empty
  | plain (stmt : Stmt) (rest : Block Stmt)
  | jump (j : Jump) (rest : Block Stmt)
  | call (function : Nat) (rest : Block Stmt)
  | ifThen (interesting : Bool) (thenArm rest : Block Stmt)
  | ifElse (interesting : Bool) (thenArm elseArm rest : Block Stmt)
  | loop (body rest : Block Stmt)
  deriving DecidableEq, Repr

namespace Block

variable {Stmt : Type}

def append : Block Stmt → Block Stmt → Block Stmt
  | empty, block => block
  | plain stmt rest, block => plain stmt (rest.append block)
  | jump j rest, block => jump j (rest.append block)
  | call function rest, block => call function (rest.append block)
  | ifThen interesting thenArm rest, block => ifThen interesting thenArm (rest.append block)
  | ifElse interesting thenArm elseArm rest, block =>
      ifElse interesting thenArm elseArm (rest.append block)
  | loop body rest, block => loop body (rest.append block)

/-- `isa<ReturnStmt>(tls) || isa<BreakStmt>(tls)` for the last statement, if there is one. -/
def lastLeaves : Block Stmt → Bool
  | empty => false
  | jump j empty => j == .breakStmt || j == .returnStmt
  | plain _ rest | jump _ rest | call _ rest | ifThen _ _ rest | ifElse _ _ _ rest
  | loop _ rest => rest.lastLeaves

def numBranches : Block Stmt → Nat
  | empty => 0
  | plain _ rest | jump _ rest | call _ rest => rest.numBranches
  | ifThen interesting thenArm rest =>
      interesting.toNat + thenArm.numBranches + rest.numBranches
  | ifElse interesting thenArm elseArm rest =>
      interesting.toNat + thenArm.numBranches + elseArm.numBranches + rest.numBranches
  | loop body rest => body.numBranches + rest.numBranches

/-! ## The annotator -/

def exitLoops : Nat → Block AnnotatedStmt → Block AnnotatedStmt
  | 0, block => block
  | depth + 1, block => plain (.mc2 .exitLoop) (exitLoops depth block)

/-- `LoopHandler`, run for every loop.  `depth` is the number of loops around. -/
def loopHandler (depth : Nat) : Block PlainStmt → Block AnnotatedStmt
  | empty => empty
  | plain stmt rest => plain (.source stmt) (rest.loopHandler depth)
  | jump .returnStmt rest => exitLoops depth (jump .returnStmt (rest.loopHandler depth))
  | jump j rest => jump j (rest.loopHandler depth)
  | call function rest => call function (rest.loopHandler depth)
  | ifThen interesting thenArm rest =>
      ifThen interesting (thenArm.loopHandler depth) (rest.loopHandler depth)
  | ifElse interesting thenArm elseArm rest =>
      ifElse interesting (thenArm.loopHandler depth) (elseArm.loopHandler depth)
        (rest.loopHandler depth)
  | loop body rest =>
      plain (.mc2 .enterLoop) (loop (body.loopHandler (depth + 1))
        (plain (.mc2 .exitLoop) (rest.loopHandler depth)))

/-- An arm begins with its direction and ends with the merge, unless its last statement leaves
it. -/
def annotatedArm (var direction : Nat) (arm : Block AnnotatedStmt) (leaves : Bool) :
    Block AnnotatedStmt :=
  plain (.mc2 (.branchUsesID var direction))
    (if leaves then arm else arm.append (plain (.mc2 (.merge var)) empty))

/-- `BranchAnnotationHandler`, run for every `if` with the next number for its variable.  A missing
`else` arm is added. -/
def branchHandler (branchCount : Nat) : Block AnnotatedStmt → Block AnnotatedStmt
  | empty => empty
  | plain stmt rest => plain stmt (rest.branchHandler branchCount)
  | jump j rest => jump j (rest.branchHandler branchCount)
  | call function rest => call function (rest.branchHandler branchCount)
  | ifThen false thenArm rest =>
      ifThen false (thenArm.branchHandler branchCount)
        (rest.branchHandler (branchCount + thenArm.numBranches))
  | ifThen true thenArm rest =>
      ifElse true
        (annotatedArm branchCount 1 (thenArm.branchHandler (branchCount + 1)) thenArm.lastLeaves)
        (annotatedArm branchCount 0 empty false)
        (rest.branchHandler (branchCount + 1 + thenArm.numBranches))
  | ifElse false thenArm elseArm rest =>
      ifElse false (thenArm.branchHandler branchCount)
        (elseArm.branchHandler (branchCount + thenArm.numBranches))
        (rest.branchHandler (branchCount + thenArm.numBranches + elseArm.numBranches))
  | ifElse true thenArm elseArm rest =>
      ifElse true
        (annotatedArm branchCount 1 (thenArm.branchHandler (branchCount + 1)) thenArm.lastLeaves)
        (annotatedArm branchCount 0
          (elseArm.branchHandler (branchCount + 1 + thenArm.numBranches)) elseArm.lastLeaves)
        (rest.branchHandler (branchCount + 1 + thenArm.numBranches + elseArm.numBranches))
  | loop body rest =>
      loop (body.branchHandler branchCount) (rest.branchHandler (branchCount + body.numBranches))

end Block

/-- `HandleTranslationUnit`: the loops of all functions first, and then their branches, with one
count. -/
def annotate (branchCount : Nat) : List (Block PlainStmt) → List (Block AnnotatedStmt)
  | [] => []
  | function :: functions =>
      (function.loopHandler 0).branchHandler branchCount ::
        annotate (branchCount + function.numBranches) functions

/-! ## Runs -/

/-- What a function's inserted calls use: how many MCIDs the thread's branches have got, and the
MCIDs in the variables `_br`. -/
structure Locals where
  count : Nat
  br : Nat → Nat

namespace Locals

def start : Locals := ⟨0, fun _ => 0⟩

def enter (l : Locals) : Locals := ⟨l.count, fun _ => 0⟩

def back (l callee : Locals) : Locals := ⟨callee.count, l.br⟩

end Locals

open Command in
def MC2Call.command : MC2Call → Command Locals Annotation
  | branchUsesID var direction =>
      emit (fun _ => .branchDir direction)
        fun l => ⟨l.count + 1, Function.update l.br var l.count⟩
  | merge var => emit (fun l => .merge (l.br var)) id
  | enterLoop => emit (fun _ => .enterLoop) id
  | exitLoop => emit (fun _ => .exitLoop) id

open Command in
def PlainStmt.command : PlainStmt → Command Locals Annotation
  | event et numinputs => emit (fun _ => .event et numinputs) id
  | thrd_create => emit (fun _ => .threadCreate) id

def AnnotatedStmt.command : AnnotatedStmt → Command Locals Annotation
  | source stmt => stmt.command
  | mc2 call => call.command

def Jump.outcome : Jump → Outcome
  | breakStmt => .broken
  | continueStmt => .continued
  | returnStmt => .returned

section

variable {Stmt : Type} (stmtCommand : Stmt → Command Locals Annotation)

open Command in
/-- Every condition may go either way, and a run may stop in front of every statement and at the
end of a block. -/
def Block.command (callee : Nat → Command Locals Annotation) :
    Block Stmt → Command Locals Annotation
  | empty => stoppable skip
  | plain stmt rest => stoppable (seq (stmtCommand stmt) (rest.command callee))
  | jump j _ => stoppable (leave j.outcome)
  | call function rest =>
      stoppable (seq (Command.call .enter .back (callee function)) (rest.command callee))
  | ifThen _ thenArm rest =>
      stoppable (seq (either (thenArm.command callee) (stoppable skip)) (rest.command callee))
  | ifElse _ thenArm elseArm rest =>
      stoppable (seq (either (thenArm.command callee) (elseArm.command callee))
        (rest.command callee))
  | loop body rest => stoppable (seq (Loop (body.command callee)) (rest.command callee))

/-- The runs of a function with calls nested at most `depth` deep.  A function that the program
does not have returns at once. -/
def functionCommand (program : List (Block Stmt)) : Nat → Nat → Command Locals Annotation
  | 0, _ => Command.leave .stopped
  | depth + 1, function =>
      match program[function]? with
      | some body => body.command stmtCommand (functionCommand program depth)
      | none => Command.skip

end

end SatCheck
