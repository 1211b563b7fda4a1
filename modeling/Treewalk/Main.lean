import Treewalk.CommandLine.Command

set_option autoImplicit false
set_option relaxedAutoImplicit false

/-!
The command-line program: reads files and lines, and writes answers.
-/

namespace Treewalk.CommandLine

/-- More rounds than any loop can make in practice. -/
def roundsLimit : Nat := Nat.pow 2 62

/-- The content of a file. -/
def readScript (path : String) : IO (Except ReadFailure ByteArray) := do
  try
    let content ← IO.FS.readBinFile path
    return .ok content
  catch
    | .noFileOrDirectory .. => return .error .notFound
    | .inappropriateType .. => return .error .isDirectory
    | e => return .error (.other (toString e))

/-- Writes an answer and gives its exit status. -/
def answer (r : Response) : IO UInt32 := do
  let output ← IO.getStdout
  output.write r.output
  output.flush
  IO.eprint r.errors
  return r.status.toUInt32

/-- Reads the rest of a line of which the beginning is given backwards; at the end of the input
there is none. -/
partial def readLine (input : IO.FS.Stream) (line : List UInt8) : IO (Option (List UInt8)) := do
  match (← input.read 1).toList, line with
  | [], [] => return none
  | [], line => return some line.reverse
  | 10 :: _, line => return some (finishLine line)
  | byte :: _, line => readLine input (byte :: line)

/-- Feeds a session line by line. -/
partial def promptLoop (emit : Emit) (s : Session) : IO Unit := do
  let input ← IO.getStdin
  let output ← IO.getStdout
  if ← input.isTty then
    output.putStr "> "
    output.flush
  match ← readLine input [] with
  | none => return
  | some line =>
    match lineText? line with
    | none => IO.eprint notTextComplaint
    | some text =>
      let step := promptStep roundsLimit emit s text
      output.write step.output
      output.flush
      IO.eprint step.errors
      unless step.ends do
        promptLoop emit step.session

end Treewalk.CommandLine

open Treewalk Treewalk.CommandLine in
/-- Does what the arguments ask for. -/
def main (arguments : List String) : IO UInt32 := do
  match Invocation.ofArguments arguments with
  | .script path emit =>
    let content ← readScript path
    answer (scriptResponse roundsLimit path emit content)
  | .prompt emit =>
    promptLoop emit (Session.start none)
    return 0
  | _ => answer (respond roundsLimit (fun _ => .error .notFound) .empty arguments)
