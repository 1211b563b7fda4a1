import Treewalk.Parse.Basic
import Treewalk.Syntax.Expr

set_option autoImplicit false
set_option relaxedAutoImplicit false

/-!
Reading expressions by levels of precedence, from assignment down to primary expressions.

A budget that each call lowers makes the recursion structural. Between two calls that consume a
token at most ten levels are descended, so a budget of twelve for each token is never used up.
-/

namespace Treewalk

/-- The levels of left-associative binary operators, from the loosest to the tightest. -/
inductive Tier where
  | disjunction
  | conjunction
  | equality
  | comparison
  | term
  | factor
  deriving DecidableEq, Repr

/-- The levels of expressions. -/
inductive Level where
  | assignment
  | tier (t : Tier)
  | conditional
  | unary
  | primary
  deriving DecidableEq, Repr

namespace Tier

/-- The operators of a tier. -/
def operators : Tier → List Kind
  | .disjunction => [.orWord]
  | .conjunction => [.andWord]
  | .equality => [.bangEqual, .equalEqual]
  | .comparison => [.greater, .greaterEqual, .less, .lessEqual]
  | .term => [.minus, .plus]
  | .factor => [.slash, .star]

/-- The level of the operands of a tier. -/
def operand : Tier → Level
  | .disjunction => .tier .conjunction
  | .conjunction => .conditional
  | .equality => .tier .comparison
  | .comparison => .tier .term
  | .term => .tier .factor
  | .factor => .unary

/-- The expression that an operator of a tier makes of its operands. -/
def combine : Tier → Expr → Token → Expr → Expr
  | .disjunction => .logical
  | .conjunction => .logical
  | .equality => .binary
  | .comparison => .binary
  | .term => .binary
  | .factor => .binary

end Tier

namespace Parser

/-- The assignment of `value` to what stands left of `equals`. Only a variable can be assigned to;
anything else is an error that does not stop the reader. -/
def assignTo (left : Expr) (equals : Token) (value : Expr) : Parser Expr :=
  match left with
  | .reference name => pure (.assign name value)
  | other => do
    record (.invalidAssignmentTarget equals)
    pure other

mutual

/-- Reads an expression of a level. -/
def expressionAt : Nat → Level → Parser Expr
  | 0, _ => unexpected .expression
  | n + 1, .assignment => do
    let left ← expressionAt n (.tier .disjunction)
    match ← accept? [.equal] with
    | some equals => do
      let value ← expressionAt n .assignment
      assignTo left equals value
    | none => pure left
  | n + 1, .tier t => do
    let left ← expressionAt n t.operand
    operations n t left
  | n + 1, .conditional => do
    let condition ← expressionAt n (.tier .equality)
    match ← accept? [.question] with
    | some _ => do
      let ifTrue ← expressionAt n .conditional
      expect .colon "after then branch of conditional expression"
      let ifFalse ← expressionAt n .conditional
      pure (.ternary condition ifTrue ifFalse)
    | none => pure condition
  | n + 1, .unary => do
    match ← accept? [.bang, .minus] with
    | some operator => do
      let operand ← expressionAt n .unary
      pure (.unary operator operand)
    | none => expressionAt n .primary
  | n + 1, .primary => do
    let token ← current
    match token.kind with
    | .falseWord => do
      advance
      pure (.literal (.boolean false))
    | .trueWord => do
      advance
      pure (.literal (.boolean true))
    | .nilWord => do
      advance
      pure (.literal .nil)
    | .number => do
      advance
      pure (.literal (token.literal.getD .nil))
    | .string => do
      advance
      pure (.literal (token.literal.getD .nil))
    | .identifier => do
      advance
      pure (.reference token)
    | .leftParen => do
      advance
      let inner ← expressionAt n .assignment
      expect .rightParen "after expression"
      pure (.grouping inner)
    | _ => unexpected .expression

/-- Reads the operators of a tier that follow `left`, with their right operands. -/
def operations : Nat → Tier → Expr → Parser Expr
  | 0, _, _ => unexpected .expression
  | n + 1, t, left => do
    match ← accept? t.operators with
    | some operator => do
      let right ← expressionAt n t.operand
      operations n t (t.combine left operator right)
    | none => pure left

end

/-- Reads an expression. -/
def expression : Parser Expr :=
  fun finish tokens => expressionAt (12 * (tokens.length + 1)) .assignment finish tokens

end Parser

end Treewalk
