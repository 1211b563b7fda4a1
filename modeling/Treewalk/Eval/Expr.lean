import Treewalk.Environment
import Treewalk.Eval.Operator
import Treewalk.Syntax.Expr

set_option autoImplicit false
set_option relaxedAutoImplicit false

/-!
Evaluation of expressions. An expression may assign to variables; what it assigned before an error
stays assigned.
-/

namespace Treewalk

/-- A computation on an environment that ends with a value or with an error. -/
abbrev Evaluation := EStateM RuntimeError Environment

namespace Evaluation

/-- A result that does not depend on the environment. -/
def ofExcept {α : Type} (result : Except RuntimeError α) : Evaluation α :=
  fun env =>
    match result with
    | .ok a => .ok a env
    | .error e => .error e env

/-- The value of a variable. -/
def get (name : Token) : Evaluation Value :=
  fun env =>
    match env.get? name.lexeme with
    | some value => .ok value env
    | none => .error (.undefinedVariable name) env

/-- Overwrites a variable. -/
def assign (name : Token) (value : Value) : Evaluation Unit :=
  fun env =>
    match env.assign? name.lexeme value with
    | some env => .ok () env
    | none => .error (.undefinedVariable name) env

end Evaluation

/-- The value of an expression. Operands are evaluated from left to right. -/
def Expr.eval : Expr → Evaluation Value
  | .literal value => pure value
  | .grouping inner => inner.eval
  | .unary operator operand => do
    let value ← operand.eval
    Evaluation.ofExcept (Operator.unary operator value)
  | .binary left operator right => do
    let leftValue ← left.eval
    let rightValue ← right.eval
    Evaluation.ofExcept (Operator.binary operator leftValue rightValue)
  | .logical left operator right => do
    let value ← left.eval
    if Operator.decides operator value then pure value else right.eval
  | .ternary condition ifTrue ifFalse => do
    let value ← condition.eval
    if value.isTruthy then ifTrue.eval else ifFalse.eval
  | .reference name => Evaluation.get name
  | .assign name value => do
    let result ← value.eval
    Evaluation.assign name result
    pure result

end Treewalk
