import Treewalk.Eval.Stmt
import Treewalk.Parse.Program
import Treewalk.Token.Scan

set_option autoImplicit false
set_option relaxedAutoImplicit false

/-!
Sessions: one source after another, run against variables and output that persist.

The reports of a session are always those about its latest source. A source with reports is not run.
-/

namespace Treewalk

/-- How running a source ended. -/
inductive Outcome where
  | completed
  | exited
  | staticErrors
  | runtimeError (e : RuntimeError)
  | outOfRounds
  deriving DecidableEq

/-- The outcome of a program that came to its end. -/
def Outcome.ofCompletion : Completion → Outcome
  | .finished => .completed
  | .exited => .exited

/-- The outcome of a run that was stopped. -/
def Outcome.ofHalt : Halt → Outcome
  | .error e => .runtimeError e
  | .outOfRounds => .outOfRounds

/-- The variables and output so far, and the reports about the latest source. -/
structure Session where
  world : World
  diagnostics : List Diagnostic

namespace Session

/-- A session in which nothing has been run; its output may be limited. -/
def start (limit : Option Nat) : Session :=
  ⟨⟨.empty, .empty limit⟩, []⟩

/-- Scans a source; its lexical errors become the reports of the session. -/
def scan (s : Session) (source : String) : List Token × Session :=
  let scanned := Scan.ofSource source
  (scanned.tokens, { s with diagnostics := scanned.diagnostics })

/-- Reads a source as a program. -/
def parse (s : Session) (source : String) : Program × Session :=
  let (tokens, s) := s.scan source
  let parsed := parseProgram tokens
  (parsed.program, { s with diagnostics := s.diagnostics ++ parsed.diagnostics })

/-- Reads a source as a line typed at a prompt. -/
def parseLine (s : Session) (source : String) : Entry × Session :=
  let (tokens, s) := s.scan source
  let parsed := parseEntry tokens
  (parsed.entry, { s with diagnostics := s.diagnostics ++ parsed.diagnostics })

/-- Takes the reports out of the session. -/
def takeDiagnostics (s : Session) : List Diagnostic × Session :=
  (s.diagnostics, { s with diagnostics := [] })

/-- Performs a computation on the world of the session. -/
def perform (s : Session) (action : Run Outcome) : Outcome × Session :=
  match action s.world with
  | .ok outcome world => (outcome, { s with world := world })
  | .error h world => (.ofHalt h, { s with world := world })

/-- What running a program does. -/
def execute (rounds : Nat) (p : Program) : Run Outcome := do
  let completion ← p.exec rounds
  pure (.ofCompletion completion)

/-- What running an entry does: of an expression, the value is written. -/
def executeEntry (rounds : Nat) : Entry → Run Outcome
  | .program p => execute rounds p
  | .expression e => do
    let value ← Run.evaluate e
    Run.writeLine value.text
    pure .completed

/-- Runs a source as a program, unless there are reports about it. -/
def run (rounds : Nat) (s : Session) (source : String) : Outcome × Session :=
  let (p, s) := s.parse source
  if s.diagnostics.isEmpty then s.perform (execute rounds p) else (.staticErrors, s)

/-- Runs a source as a line typed at a prompt, unless there are reports about it. -/
def runLine (rounds : Nat) (s : Session) (source : String) : Outcome × Session :=
  let (entry, s) := s.parseLine source
  if s.diagnostics.isEmpty then s.perform (executeEntry rounds entry) else (.staticErrors, s)

end Session

end Treewalk
