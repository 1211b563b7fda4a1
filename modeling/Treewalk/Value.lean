import Treewalk.Number

set_option autoImplicit false
set_option relaxedAutoImplicit false

/-!
Values of the language, which are also what its literals denote.
-/

namespace Treewalk

/-- A value: the absence of one, a truth value, a double or a text. -/
inductive Value where
  | nil
  | boolean (b : Bool)
  | number (x : Float)
  | string (s : String)
  deriving DecidableEq

namespace Value

/-- The text that printing a value shows; a string shows its characters as they are. -/
def text : Value → String
  | .nil => "nil"
  | .boolean true => "true"
  | .boolean false => "false"
  | .number x => Number.text x
  | .string s => s

/-- Only `nil` and `false` count as false. -/
def isTruthy : Value → Bool
  | .nil => false
  | .boolean b => b
  | .number _ => true
  | .string _ => true

/-- Equality inside the language: values of different kinds differ, and numbers compare as doubles
do, so a NaN differs from itself and the two zeros are equal. -/
def equals : Value → Value → Bool
  | .nil, .nil => true
  | .boolean a, .boolean b => a == b
  | .number x, .number y => x == y
  | .string s, .string t => s == t
  | _, _ => false

/-- How a literal is written inside an expression: a string stands between quotes. -/
def quoted : Value → String
  | .string s => "\"" ++ s ++ "\""
  | v => v.text

end Value

end Treewalk
