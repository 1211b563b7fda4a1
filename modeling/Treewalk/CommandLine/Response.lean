import Treewalk.CommandLine.Invocation
import Treewalk.Session

set_option autoImplicit false
set_option relaxedAutoImplicit false

/-!
What a command answers: its exit status, what it writes, and what it complains about.
-/

namespace Treewalk.CommandLine

/-- The answer of a command. -/
structure Response where
  status : Nat
  output : ByteArray
  errors : String

/-- The exit status of a command with wrong arguments. -/
def usageStatus : Nat := 64

/-- The exit status for a source with reports. -/
def dataStatus : Nat := 65

/-- The exit status for a script that cannot be read. -/
def noInputStatus : Nat := 66

/-- The exit status for a program stopped by an error. -/
def softwareStatus : Nat := 70

/-- Each text on a line of its own. -/
def lines (texts : List String) : String :=
  String.join (texts.map (· ++ "\n"))

/-- The reports of a session, one on each line. -/
def reports (s : Session) : String :=
  lines (s.diagnostics.map Diagnostic.text)

/-- What is complained about after a run: its reports, or the error that stopped it. -/
def complaints (outcome : Outcome) (s : Session) : String :=
  match outcome with
  | .runtimeError e => reports s ++ e.report ++ "\n"
  | _ => reports s

/-- The exit status after a run. -/
def exitStatus : Outcome → Nat
  | .completed => 0
  | .exited => 0
  | .staticErrors => dataStatus
  | .runtimeError _ => softwareStatus
  | .outOfRounds => softwareStatus

/-- A syntax tree or its expressions in reverse Polish order. -/
def entryListing (l : Listing) (entry : Entry) : String :=
  match l, entry with
  | .rpn, .expression e => e.rpn ++ "\n"
  | .rpn, .program p => lines p.rpn
  | _, .expression e => e.text ++ "\n"
  | _, .program p => p.text

/-- The listing of a source and the session with the reports about it. -/
def listing (l : Listing) (interactive : Bool) (s : Session) (source : String) : String × Session :=
  match l with
  | .tokens =>
    let (tokens, s) := s.scan source
    (lines (tokens.map Token.text), s)
  | _ =>
    if interactive then
      let (entry, s) := s.parseLine source
      (entryListing l entry, s)
    else
      let (p, s) := s.parse source
      (entryListing l (.program p), s)

end Treewalk.CommandLine
