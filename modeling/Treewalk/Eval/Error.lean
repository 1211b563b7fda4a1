import Treewalk.Token.Basic

set_option autoImplicit false
set_option relaxedAutoImplicit false

/-!
Errors that stop a running program.
-/

namespace Treewalk

/-- Why a program was stopped. All but a failure to write know the token to blame. -/
inductive RuntimeError where
  | operandNotNumber (operator : Token)
  | operandsNotNumbers (operator : Token)
  | operandsNotMatching (operator : Token)
  | unknownOperator (operator : Token)
  | undefinedVariable (name : Token)
  | sinkFull
  deriving DecidableEq

namespace RuntimeError

/-- The wording of the error. -/
def message : RuntimeError → String
  | .operandNotNumber operator => "Operand of '" ++ operator.lexeme ++ "' must be a number."
  | .operandsNotNumbers operator => "Operands of '" ++ operator.lexeme ++ "' must be numbers."
  | .operandsNotMatching operator =>
    "Operands of '" ++ operator.lexeme ++ "' must be two numbers or two strings."
  | .unknownOperator operator => "Unknown operator '" ++ operator.lexeme ++ "'."
  | .undefinedVariable name => "Undefined variable '" ++ name.lexeme ++ "'."
  | .sinkFull => "Failed to write output: sink full"

/-- The token to blame. -/
def token? : RuntimeError → Option Token
  | .operandNotNumber operator => some operator
  | .operandsNotNumbers operator => some operator
  | .operandsNotMatching operator => some operator
  | .unknownOperator operator => some operator
  | .undefinedVariable name => some name
  | .sinkFull => none

/-- The line of the token to blame. -/
def line? (e : RuntimeError) : Option Nat :=
  e.token?.map Token.line

/-- The message as shown to the user, with the line it belongs to below it. -/
def report (e : RuntimeError) : String :=
  match e.line? with
  | some line => e.message ++ "\n[line " ++ toString line ++ "]"
  | none => e.message

end RuntimeError

end Treewalk
