import Treewalk.Parse.Expr

set_option autoImplicit false
set_option relaxedAutoImplicit false

/-!
The levels of expressions in a row, from assignment with 0 up to primary expressions with 9.
-/

namespace Treewalk

/-- The place of a tier among the levels. -/
def Tier.strength : Tier → Nat
  | .disjunction => 1
  | .conjunction => 2
  | .equality => 4
  | .comparison => 5
  | .term => 6
  | .factor => 7

/-- The place of a level; a higher one holds its operands more tightly. -/
def Level.strength : Level → Nat
  | .assignment => 0
  | .tier t => t.strength
  | .conditional => 3
  | .unary => 8
  | .primary => 9

/-- How many levels are below a level, itself included. -/
def Level.rank (l : Level) : Nat :=
  10 - l.strength

/-- The level that a level turns to first. -/
def Level.next : Level → Level
  | .assignment => .tier .disjunction
  | .tier t => t.operand
  | .conditional => .tier .equality
  | .unary => .primary
  | .primary => .primary

/-- The level at the given place. -/
def Level.ofStrength : Nat → Level
  | 0 => .assignment
  | 1 => .tier .disjunction
  | 2 => .tier .conjunction
  | 3 => .conditional
  | 4 => .tier .equality
  | 5 => .tier .comparison
  | 6 => .tier .term
  | 7 => .tier .factor
  | 8 => .unary
  | _ => .primary

theorem Level.ofStrength_strength (l : Level) : ofStrength l.strength = l := by
  cases l with
  | tier t => cases t <;> rfl
  | _ => rfl

theorem Level.strength_inj {l k : Level} (h : l.strength = k.strength) : l = k := by
  rw [← l.ofStrength_strength, h, k.ofStrength_strength]

theorem Level.strength_le (l : Level) : l.strength ≤ 9 := by
  cases l with
  | tier t => cases t <;> decide
  | _ => decide

theorem Tier.strength_operand (t : Tier) : t.operand.strength = t.strength + 1 := by
  cases t <;> rfl

theorem Level.strength_next {l : Level} (h : l.strength < 8) :
    l.next.strength = l.strength + 1 := by
  cases l with
  | assignment => rfl
  | tier t => exact t.strength_operand
  | conditional => rfl
  | unary => simp [Level.strength] at h
  | primary => simp [Level.strength] at h

theorem Tier.strength_lt (t : Tier) : t.strength < 8 := by
  cases t <;> decide

theorem Tier.strength_ne_three (t : Tier) : t.strength ≠ 3 := by
  cases t <;> decide

theorem Tier.strength_pos (t : Tier) : 0 < t.strength := by
  cases t <;> decide

theorem Level.rank_pos (l : Level) : 0 < l.rank := by
  have hle := l.strength_le
  rw [Level.rank]
  omega

theorem Tier.rank_operand (t : Tier) : t.operand.rank + 1 = (Level.tier t).rank := by
  have hoperand := t.strength_operand
  have hlt := t.strength_lt
  rw [Level.rank, Level.rank, hoperand, Level.strength]
  omega

end Treewalk
