import Treewalk.Token.Kind
import Treewalk.Value

set_option autoImplicit false
set_option relaxedAutoImplicit false

/-!
Tokens: a kind with its spelling, the value of a literal, and the line on which the token ends.
-/

namespace Treewalk

/-- A token of the source. -/
structure Token where
  kind : Kind
  lexeme : String
  literal : Option Value
  line : Nat
  deriving DecidableEq

namespace Token

/-- The token that stands for the end of the input. -/
def eof (line : Nat) : Token :=
  ⟨.eof, "", none, line⟩

/-- A token as listings show it: kind, spelling and literal, `null` where there is none. -/
def text (t : Token) : String :=
  t.kind.name ++ " " ++ t.lexeme ++ " " ++ (t.literal.map Value.text).getD "null"

end Token

end Treewalk
