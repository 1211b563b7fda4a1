import Treewalk.CommandLine.Response

set_option autoImplicit false
set_option relaxedAutoImplicit false

/-!
Running a script, or showing it.
-/

namespace Treewalk.CommandLine

/-- Why a script could not be read. -/
inductive ReadFailure where
  | notFound
  | isDirectory
  | notText
  | other (reason : String)
  deriving DecidableEq, Repr

/-- The wording of the failure. -/
def ReadFailure.text : ReadFailure → String
  | .notFound => "No such file or directory (os error 2)"
  | .isDirectory => "Is a directory (os error 21)"
  | .notText => "stream did not contain valid UTF-8"
  | .other reason => reason

/-- The text of a script. -/
def sourceOf (content : Except ReadFailure ByteArray) : Except ReadFailure String :=
  match content with
  | .error failure => .error failure
  | .ok bytes =>
    match String.fromUTF8? bytes with
    | some source => .ok source
    | none => .error .notText

/-- What running or showing a source answers. -/
def sourceResponse (rounds : Nat) (emit : Emit) (source : String) : Response :=
  match emit with
  | .run =>
    let (outcome, s) := (Session.start none).run rounds source
    ⟨exitStatus outcome, s.world.sink.written, complaints outcome s⟩
  | .listing l =>
    let (shown, s) := listing l false (Session.start none) source
    ⟨if s.diagnostics.isEmpty then 0 else dataStatus, shown.toUTF8, reports s⟩

/-- What running or showing the script at a path answers, given what reading it gave. -/
def scriptResponse (rounds : Nat) (path : String) (emit : Emit)
    (content : Except ReadFailure ByteArray) : Response :=
  match sourceOf content with
  | .ok source => sourceResponse rounds emit source
  | .error failure =>
    ⟨noInputStatus, .empty, "Could not read '" ++ path ++ "': " ++ failure.text ++ "\n"⟩

end Treewalk.CommandLine
