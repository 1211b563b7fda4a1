import Treewalk.Eval.Expr
import Treewalk.Sink
import Treewalk.Syntax.Stmt

set_option autoImplicit false
set_option relaxedAutoImplicit false

/-!
Execution of statements and programs.

Statements change variables and write. How a statement ends tells the statements around it whether
to go on: `break` and `continue` reach up to the nearest loop, `exit` up to the end of the program.
Execution recurses on the statement; only the number of rounds of each loop needs a bound, and a run
that meets the bound is told apart from one that fails.
-/

namespace Treewalk

/-- What a running program can change: its variables and what it has written. -/
structure World where
  environment : Environment
  sink : Sink

/-- How a statement ends. -/
inductive Flow where
  | normal
  | breaks
  | continues
  | exits
  deriving DecidableEq, Repr

/-- How a program ends. -/
inductive Completion where
  | finished
  | exited
  deriving DecidableEq, Repr

/-- Why a run stops before its end. -/
inductive Halt where
  | error (e : RuntimeError)
  | outOfRounds
  deriving DecidableEq

/-- A computation on a world. -/
abbrev Run := EStateM Halt World

namespace Run

/-- Evaluates an expression. -/
def evaluate (e : Expr) : Run Value :=
  fun ⟨environment, sink⟩ =>
    match e.eval environment with
    | .ok value environment => .ok value ⟨environment, sink⟩
    | .error e environment => .error (.error e) ⟨environment, sink⟩

/-- Evaluates a condition. -/
def test (e : Expr) : Run Bool := do
  let value ← evaluate e
  pure value.isTruthy

/-- Writes a line of text. -/
def writeLine (text : String) : Run Unit :=
  fun ⟨environment, sink⟩ =>
    match sink.write (text ++ "\n") with
    | (sink, true) => .ok () ⟨environment, sink⟩
    | (sink, false) => .error (.error .sinkFull) ⟨environment, sink⟩

/-- Declares a variable in the current scope. -/
def define (name : String) (value : Value) : Run Unit :=
  fun ⟨environment, sink⟩ => .ok () ⟨environment.define name value, sink⟩

/-- Runs `body` in a scope of its own, which is left however the body ends. -/
def inScope {α : Type} (body : Run α) : Run α :=
  fun ⟨environment, sink⟩ =>
    match body ⟨environment.enter, sink⟩ with
    | .ok a ⟨environment, sink⟩ => .ok a ⟨environment.leave, sink⟩
    | .error h ⟨environment, sink⟩ => .error h ⟨environment.leave, sink⟩

/-- Repeats `body` while `condition` holds, for at most so many rounds. After `continue` the rest of
the body is made up for by `increment`. -/
def loop (condition : Run Bool) (body : Run Flow) (increment : Run Unit) : Nat → Run Flow
  | 0 => throw .outOfRounds
  | rounds + 1 => do
    let goesOn ← condition
    if goesOn then
      let flow ← body
      match flow with
      | .normal => loop condition body increment rounds
      | .breaks => pure .normal
      | .continues => do
        increment
        loop condition body increment rounds
      | .exits => pure .exits
    else pure .normal

end Run

namespace Stmt

mutual

/-- Executes a statement; each loop makes at most `rounds` rounds. -/
def exec (rounds : Nat) : Stmt → Run Flow
  | .expression value => do
    let _ ← Run.evaluate value
    pure .normal
  | .print value => do
    let result ← Run.evaluate value
    Run.writeLine result.text
    pure .normal
  | .declare name initializer => do
    let value ← Run.evaluate initializer
    Run.define name.lexeme value
    pure .normal
  | .block statements => Run.inScope (execAll rounds statements)
  | .branch condition thenBranch elseBranch => do
    let holds ← Run.test condition
    if holds then exec rounds thenBranch else execOption rounds elseBranch
  | .loop .whileLoop condition body =>
    Run.loop (Run.test condition) (exec rounds body) (pure ()) rounds
  | .loop .forLoop condition body =>
    Run.loop (Run.test condition) (exec rounds body) (execIncrement rounds body) rounds
  | .switch subject cases fallback => do
    let value ← Run.evaluate subject
    execCases rounds value (execOption rounds fallback) cases
  | .breakLoop => pure .breaks
  | .continueLoop => pure .continues
  | .exitProgram => pure .exits

/-- Executes statements in order, up to the first that does not end normally. -/
def execAll (rounds : Nat) : List Stmt → Run Flow
  | [] => pure .normal
  | s :: rest => do
    let flow ← exec rounds s
    match flow with
    | .normal => execAll rounds rest
    | other => pure other

/-- Executes a statement if there is one. -/
def execOption (rounds : Nat) : Option Stmt → Run Flow
  | none => pure .normal
  | some s => exec rounds s

/-- Executes the first branch of a switch whose value equals the subject, or else `otherwise`. -/
def execCases (rounds : Nat) (subject : Value) (otherwise : Run Flow) :
    List (Expr × Stmt) → Run Flow
  | [] => otherwise
  | (condition, body) :: rest => do
    let value ← Run.evaluate condition
    if value.equals subject then exec rounds body else execCases rounds subject otherwise rest

/-- Executes the increment of a `for` loop with the given body: the second statement of a block of
two. How it ends does not matter. -/
def execIncrement (rounds : Nat) : Stmt → Run Unit
  | .block [_, increment] => do
    let _ ← exec rounds increment
    pure ()
  | _ => pure ()

end

end Stmt

/-- Executes a program. A `break` or `continue` outside of loops has no effect. -/
def Program.exec (rounds : Nat) : Program → Run Completion
  | [] => pure .finished
  | s :: rest => do
    let flow ← s.exec rounds
    match flow with
    | .exits => pure .exited
    | _ => Program.exec rounds rest

end Treewalk
