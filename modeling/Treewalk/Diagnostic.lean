import Treewalk.Token.Basic

set_option autoImplicit false
set_option relaxedAutoImplicit false

/-!
Reports about a source that cannot be run. They carry a line and, where one is known, a place.
-/

namespace Treewalk

/-- The place that a diagnostic points at. -/
inductive Location where
  | unknown
  | finish
  | lexeme (text : String)
  deriving DecidableEq, Repr

namespace Location

/-- The place of a token; the end-of-input token has no spelling to show. -/
def ofToken (t : Token) : Location :=
  if t.kind = .eof then .finish else .lexeme t.lexeme

/-- How a diagnostic mentions its place. -/
def text : Location → String
  | .unknown => ""
  | .finish => " at end"
  | .lexeme s => " at '" ++ s ++ "'"

end Location

/-- A report about the source. -/
structure Diagnostic where
  line : Nat
  location : Location
  message : String
  deriving DecidableEq, Repr

namespace Diagnostic

/-- A report on a line, without a place on it. -/
def onLine (line : Nat) (message : String) : Diagnostic :=
  ⟨line, .unknown, message⟩

/-- A report at a token. -/
def atToken (t : Token) (message : String) : Diagnostic :=
  ⟨t.line, .ofToken t, message⟩

/-- The line of text that shows a diagnostic. -/
def text (d : Diagnostic) : String :=
  "[line " ++ toString d.line ++ "] Error" ++ d.location.text ++ ": " ++ d.message

end Diagnostic

end Treewalk
