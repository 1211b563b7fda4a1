import Treewalk.Eval.Error

set_option autoImplicit false
set_option relaxedAutoImplicit false

/-!
What operators do to values, and which values they refuse.
-/

namespace Treewalk.Operator

/-- The value of a unary operation. -/
def unary (operator : Token) (operand : Value) : Except RuntimeError Value :=
  match operator.kind with
  | .bang => .ok (.boolean !operand.isTruthy)
  | .minus =>
    match operand with
    | .number x => .ok (.number (-x))
    | _ => .error (.operandNotNumber operator)
  | _ => .error (.unknownOperator operator)

/-- Adds numbers and joins strings. -/
def sum (operator : Token) : Value → Value → Except RuntimeError Value
  | .number x, .number y => .ok (.number (x + y))
  | .string s, .string t => .ok (.string (s ++ t))
  | _, _ => .error (.operandsNotMatching operator)

/-- Computes with two numbers. -/
def arithmetic (operator : Token) (f : Float → Float → Float) :
    Value → Value → Except RuntimeError Value
  | .number x, .number y => .ok (.number (f x y))
  | _, _ => .error (.operandsNotNumbers operator)

/-- Whether two operands stand in the order that an operator asks for. Any operator but the first
three asks whether the left one is at most the right one. -/
def compare {α : Type} (less atMost : α → α → Bool) (kind : Kind) (left right : α) : Bool :=
  match kind with
  | .greater => less right left
  | .greaterEqual => atMost right left
  | .less => less left right
  | _ => atMost left right

/-- Compares two numbers, or two strings by their characters. -/
def comparison (operator : Token) : Value → Value → Except RuntimeError Value
  | .number x, .number y =>
    .ok (.boolean (compare (fun x y => x < y) (fun x y => x ≤ y) operator.kind x y))
  | .string s, .string t =>
    .ok (.boolean (compare (fun s t => s < t) (fun s t => ¬ t < s) operator.kind s t))
  | _, _ => .error (.operandsNotMatching operator)

/-- The value of a binary operation. Equality takes any two values. -/
def binary (operator : Token) (left right : Value) : Except RuntimeError Value :=
  match operator.kind with
  | .equalEqual => .ok (.boolean (left.equals right))
  | .bangEqual => .ok (.boolean !left.equals right)
  | .plus => sum operator left right
  | .minus => arithmetic operator (fun x y => x - y) left right
  | .star => arithmetic operator (fun x y => x * y) left right
  | .slash => arithmetic operator (fun x y => x / y) left right
  | .greater | .greaterEqual | .less | .lessEqual => comparison operator left right
  | _ => .error (.unknownOperator operator)

/-- Whether the left operand of a logical operator already decides: `or` stops at a true value, any
other operator at a false one. -/
def decides (operator : Token) (left : Value) : Bool :=
  match operator.kind with
  | .orWord => left.isTruthy
  | _ => !left.isTruthy

end Treewalk.Operator
