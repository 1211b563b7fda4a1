import Treewalk.Binary64.Nearest

set_option autoImplicit false
set_option relaxedAutoImplicit false

/-!
Decimal fractions `coefficient * 10 ^ exponent`, their positional text and the doubles they denote.
-/

namespace Treewalk

/-- The decimal fraction `coefficient * 10 ^ exponent`. -/
structure Decimal where
  coefficient : Nat
  exponent : Int
  deriving DecidableEq, Repr

namespace Decimal

/-- The decimal written as `whole` and then, behind a point, `fraction`; both hold digits only. -/
def ofDigits (whole fraction : List Char) : Decimal :=
  ⟨Nat.ofDigitChars 10 (whole ++ fraction) 0, -fraction.length⟩

/-- The magnitude of the double nearest to a decimal. -/
def nearest (d : Decimal) : Nat :=
  match d.exponent with
  | .ofNat e => Binary64.nearest (d.coefficient * Nat.pow 10 e) 1
  | .negSucc e => Binary64.nearest d.coefficient (Nat.pow 10 (e + 1))

/-- Digits before the point and digits behind it; a whole number has none behind. -/
def positional (d : Decimal) : List Char × List Char :=
  let digits := Nat.toDigits 10 d.coefficient
  match d.exponent with
  | .ofNat e => (digits ++ List.replicate e '0', [])
  | .negSucc e =>
    let padded := List.replicate (e + 2 - digits.length) '0' ++ digits
    (padded.take (padded.length - (e + 1)), padded.drop (padded.length - (e + 1)))

/-- The decimal in positional notation, never with an exponent. -/
def text (d : Decimal) : String :=
  match d.positional with
  | (whole, []) => String.ofList whole
  | (whole, fraction) => String.ofList (whole ++ '.' :: fraction)

end Decimal

end Treewalk
