import Treewalk.Token.Basic

set_option autoImplicit false
set_option relaxedAutoImplicit false

/-!
Expressions, with their two written forms: fully parenthesised, and in reverse Polish order.
-/

namespace Treewalk

/-- An expression. Operators and names are kept as tokens, so that errors can point at them. -/
inductive Expr where
  | literal (value : Value)
  | grouping (inner : Expr)
  | unary (operator : Token) (operand : Expr)
  | binary (left : Expr) (operator : Token) (right : Expr)
  | logical (left : Expr) (operator : Token) (right : Expr)
  | ternary (condition ifTrue ifFalse : Expr)
  | reference (name : Token)
  | assign (name : Token) (value : Expr)
  deriving DecidableEq

namespace Expr

/-- The expression with a pair of parentheses around every operation; groupings leave no trace. -/
def text : Expr → String
  | .literal value => value.quoted
  | .grouping inner => inner.text
  | .unary operator operand => "(" ++ operator.lexeme ++ operand.text ++ ")"
  | .binary left operator right =>
    "(" ++ left.text ++ " " ++ operator.lexeme ++ " " ++ right.text ++ ")"
  | .logical left operator right =>
    "(" ++ left.text ++ " " ++ operator.lexeme ++ " " ++ right.text ++ ")"
  | .ternary condition ifTrue ifFalse =>
    "(" ++ condition.text ++ " ? " ++ ifTrue.text ++ " : " ++ ifFalse.text ++ ")"
  | .reference name => name.lexeme
  | .assign name value => "(" ++ name.lexeme ++ " = " ++ value.text ++ ")"

/-- The word for a unary operator in reverse Polish order, where its symbol alone could be taken
for a binary one. -/
def unaryWord (operator : Token) : String :=
  match operator.kind with
  | .bang => "not"
  | .minus => "neg"
  | _ => operator.lexeme

/-- The expression in reverse Polish order: operands first, then the operator. -/
def rpn : Expr → String
  | .literal value => value.quoted
  | .grouping inner => inner.rpn
  | .unary operator operand => operand.rpn ++ " " ++ unaryWord operator
  | .binary left operator right => left.rpn ++ " " ++ right.rpn ++ " " ++ operator.lexeme
  | .logical left operator right => left.rpn ++ " " ++ right.rpn ++ " " ++ operator.lexeme
  | .ternary condition ifTrue ifFalse =>
    condition.rpn ++ " " ++ ifTrue.rpn ++ " " ++ ifFalse.rpn ++ " ?:"
  | .reference name => name.lexeme
  | .assign name value => value.rpn ++ " " ++ name.lexeme ++ " ="

end Expr

end Treewalk
