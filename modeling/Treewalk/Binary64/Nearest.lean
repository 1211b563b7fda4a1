set_option autoImplicit false
set_option relaxedAutoImplicit false

/-!
Magnitudes of 64-bit floating-point numbers, as natural numbers.

A magnitude is the bit pattern of a non-negative double: 52 fraction bits below 11 exponent bits.
Every finite magnitude is a whole number of units of `2 ^ -1074`, the smallest positive double, so
rounding a quotient of naturals to the nearest double is exact arithmetic on naturals.
-/

namespace Treewalk.Binary64

/-- The magnitude of infinity: all exponent bits set and no fraction bit. -/
def infinity : Nat := 2047 * Nat.pow 2 52

/-- The number of units of `2 ^ -1074` in a finite magnitude. -/
def units (magnitude : Nat) : Nat :=
  let exponent := magnitude / Nat.pow 2 52
  let fraction := magnitude % Nat.pow 2 52
  if exponent = 0 then fraction else (Nat.pow 2 52 + fraction) * Nat.pow 2 (exponent - 1)

/-- The natural nearest to `num / den`; a half goes to the even neighbour. -/
def roundedQuotient (num den : Nat) : Nat :=
  let quotient := num / den
  let remainder := num % den
  if 2 * remainder < den then quotient
  else if 2 * remainder = den then quotient + quotient % 2
  else quotient + 1

/-- The magnitude nearest to `num / den`, ties to even, infinity when the quotient is too large.

The quotient is counted in units; `shift` low bits of that count lie below the 53 bits a double
keeps. A count that rounds up to `2 ^ 53` carries into the exponent bits, which is again the right
pattern. -/
def nearest (num den : Nat) : Nat :=
  let scaled := num * Nat.pow 2 1074
  let shift := (scaled / den).log2 - 52
  min (shift * Nat.pow 2 52 + roundedQuotient scaled (den * Nat.pow 2 shift)) infinity

/-- The non-negative double with the given magnitude. -/
def toFloat (magnitude : Nat) : Float :=
  Float.ofBits magnitude.toUInt64

/-- The magnitude of a double, its sign bit dropped. -/
def magnitude (x : Float) : Nat :=
  x.toBits.toNat % Nat.pow 2 63

/-- Whether the sign bit of a double is set. -/
def isNegative (x : Float) : Bool :=
  Nat.pow 2 63 ≤ x.toBits.toNat

end Treewalk.Binary64
