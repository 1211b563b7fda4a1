import Treewalk.Decimal.Shortest

set_option autoImplicit false
set_option relaxedAutoImplicit false

/-!
Number literals: how digits are read as a double and how a double is written.
-/

namespace Treewalk.Number

/-- The double nearest to the number written with these digits before and behind the point. -/
def ofDigits (whole fraction : List Char) : Float :=
  Binary64.toFloat (Decimal.ofDigits whole fraction).nearest

/-- The text of the magnitude of a double. -/
def magnitudeText (magnitude : Nat) : String :=
  if magnitude = Binary64.infinity then "Infinity" else (Decimal.shortest magnitude).text

/-- Numbers are written with the fewest digits that read back, always positionally, whole numbers
without a point, and with a sign also before a negative zero. -/
def text (x : Float) : String :=
  if Binary64.infinity < Binary64.magnitude x then "NaN"
  else if Binary64.isNegative x then "-" ++ magnitudeText (Binary64.magnitude x)
  else magnitudeText (Binary64.magnitude x)

end Treewalk.Number
