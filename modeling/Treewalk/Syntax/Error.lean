import Treewalk.Diagnostic

set_option autoImplicit false
set_option relaxedAutoImplicit false

/-!
Errors in the order of tokens. Each one knows the token that it is reported at.
-/

namespace Treewalk

/-- What should have stood where another token stands. -/
inductive Expected where
  | expression
  | variableName
  | token (kind : Kind) (context : String)
  deriving DecidableEq, Repr

/-- The wording of an expectation. -/
def Expected.text : Expected → String
  | .expression => "expression"
  | .variableName => "variable name"
  | .token kind context => kind.quoted ++ " " ++ context

/-- A syntax error. -/
inductive SyntaxError where
  | unexpected (expected : Expected) (got : Token)
  | invalidAssignmentTarget (equals : Token)
  | duplicateDefault (keyword : Token)
  | unexpectedSwitchBranch (got : Token)
  | outsideLoop (keyword : Token)
  deriving DecidableEq

namespace SyntaxError

/-- The wording of the error. -/
def message : SyntaxError → String
  | .unexpected expected _ => "Expect " ++ expected.text ++ "."
  | .invalidAssignmentTarget _ => "Invalid assignment target."
  | .duplicateDefault _ => "A switch can only have one 'default' branch."
  | .unexpectedSwitchBranch _ => "Expect 'case' or 'default' in switch body."
  | .outsideLoop keyword => "Can't use '" ++ keyword.lexeme ++ "' outside of a loop."

/-- The token that the error is reported at. -/
def token : SyntaxError → Token
  | .unexpected _ got => got
  | .invalidAssignmentTarget equals => equals
  | .duplicateDefault keyword => keyword
  | .unexpectedSwitchBranch got => got
  | .outsideLoop keyword => keyword

/-- The report of the error. -/
def diagnostic (e : SyntaxError) : Diagnostic :=
  .atToken e.token e.message

end SyntaxError

end Treewalk
