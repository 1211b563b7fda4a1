import Treewalk.CommandLine.Response

set_option autoImplicit false
set_option relaxedAutoImplicit false

/-!
The prompt: a session fed line by line, each line run or shown as soon as it is there.
-/

namespace Treewalk.CommandLine

/-- What the prompt does with a line: the session after it, what it writes and complains about, and
whether the line ends the session. -/
structure PromptStep where
  session : Session
  output : ByteArray
  errors : String
  ends : Bool

/-- The session with its output taken away, so that what a line writes can be told apart. -/
def withoutOutput (s : Session) : Session :=
  { s with world := { s.world with sink := .empty none } }

/-- Runs or shows a line. -/
def promptStep (rounds : Nat) (emit : Emit) (s : Session) (line : String) : PromptStep :=
  match emit with
  | .run =>
    let (outcome, s) := s.runLine rounds line
    ⟨withoutOutput s, s.world.sink.written, complaints outcome s, outcome = .exited⟩
  | .listing l =>
    let (shown, s) := listing l true s line
    ⟨s, shown.toUTF8, reports s, false⟩

/-- The complaint about a line that is no text. -/
def notTextComplaint : String :=
  "Error: stream did not contain valid UTF-8\n"

/-- A line whose characters are given backwards, without the carriage return that may end it. -/
def finishLine : List UInt8 → List UInt8
  | 13 :: line => line.reverse
  | line => line.reverse

/-- The lines of an input, behind the beginning of a line given backwards. A line ends with a line
feed, and the last one may also end with the input. -/
def inputLines : List UInt8 → List UInt8 → List (List UInt8)
  | [], [] => []
  | line, [] => [line.reverse]
  | line, 10 :: rest => finishLine line :: inputLines [] rest
  | line, byte :: rest => inputLines (byte :: line) rest

/-- The text of a line. -/
def lineText? (line : List UInt8) : Option String :=
  String.fromUTF8? ⟨line.toArray⟩

/-- What the prompt answers to lines. A line that is no text ends the session. -/
def promptLines (rounds : Nat) (emit : Emit) (s : Session) : List (List UInt8) → Response
  | [] => ⟨0, .empty, ""⟩
  | line :: rest =>
    match lineText? line with
    | none => ⟨0, .empty, notTextComplaint⟩
    | some text =>
      let step := promptStep rounds emit s text
      if step.ends then ⟨0, step.output, step.errors⟩
      else
        let later := promptLines rounds emit step.session rest
        ⟨later.status, step.output ++ later.output, step.errors ++ later.errors⟩

/-- What the prompt answers to an input. -/
def promptResponse (rounds : Nat) (emit : Emit) (input : ByteArray) : Response :=
  promptLines rounds emit (Session.start none) (inputLines [] input.toList)

end Treewalk.CommandLine
