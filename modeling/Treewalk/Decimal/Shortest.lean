import Treewalk.Decimal.Basic

set_option autoImplicit false
set_option relaxedAutoImplicit false

/-!
The shortest decimal that reads back as a given double.

The multiples of `10 ^ e` form a grid. From coarse to fine, the two neighbours of the value on each
grid are read back; the first grid on which one of them gives the value again has the fewest digits.
-/

namespace Treewalk.Decimal

/-- The neighbours of a magnitude on the grid of multiples of `10 ^ exponent`: the multiple not
above it, and whether the next one is at most as far away. -/
def below (magnitude : Nat) (exponent : Int) : Nat × Bool :=
  let (num, den) :=
    match exponent with
    | .ofNat e => (Binary64.units magnitude, Nat.pow 2 1074 * Nat.pow 10 e)
    | .negSucc e => (Binary64.units magnitude * Nat.pow 10 (e + 1), Nat.pow 2 1074)
  (num / den, den ≤ 2 * (num % den))

/-- The point of the grid of multiples of `10 ^ exponent` that reads back as `magnitude`; of two
such points the nearer one, and the upper one when both are equally near. -/
def onGrid (magnitude : Nat) (exponent : Int) : Option Decimal :=
  let (lower, upperIsNear) := below magnitude exponent
  let down : Decimal := ⟨lower, exponent⟩
  let up : Decimal := ⟨lower + 1, exponent⟩
  if upperIsNear then
    if up.nearest = magnitude then some up
    else if down.nearest = magnitude then some down
    else none
  else
    if down.nearest = magnitude then some down
    else if up.nearest = magnitude then some up
    else none

/-- All digits of a finite magnitude: a unit is `5 ^ 1074 * 10 ^ -1074`. -/
def exactly (magnitude : Nat) : Decimal :=
  ⟨Binary64.units magnitude * Nat.pow 5 1074, -1074⟩

/-- The first of `grids` grids, from `10 ^ exponent` downwards, with a point that reads back; all
digits when there is none. -/
def firstOnGrid (magnitude : Nat) : Nat → Int → Decimal
  | 0, _ => exactly magnitude
  | grids + 1, exponent =>
    match onGrid magnitude exponent with
    | some d => d
    | none => firstOnGrid magnitude grids (exponent - 1)

/-- An exponent of ten above a magnitude, from its exponent of two; `30103 / 100000` is just above
the logarithm of two to base ten. -/
def exponentAbove (magnitude : Nat) : Int :=
  ((Binary64.units magnitude).log2 - 1073 : Int) * 30103 / 100000 + 1

/-- The shortest decimal that reads back as a finite magnitude. No double needs more than seventeen
digits, so twenty grids are enough from a start at most two digits too coarse. -/
def shortest (magnitude : Nat) : Decimal :=
  if magnitude = 0 then ⟨0, 0⟩ else firstOnGrid magnitude 20 (exponentAbove magnitude)

end Treewalk.Decimal
