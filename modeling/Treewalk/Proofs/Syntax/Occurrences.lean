import Treewalk.Syntax.Stmt

set_option autoImplicit false
set_option relaxedAutoImplicit false

/-!
Where a program names variables, and which names it has declared there.

A declaration counts for the statements that follow it in its list, and for all that is inside of
them. It does not count for its own initializer.
-/

namespace Treewalk

/-- A place in a syntax tree: which part to go to, from the root on. The parts of a list are counted
from zero, those of a statement or an expression in the order in which they are written. -/
abbrev Place := List Nat

/-- A name that is read or assigned to, with the names that are declared before it in its list of
statements or in one around it. -/
structure Occurrence where
  name : Token
  declared : List String

/-- The name is global, or declared in the program where it occurs. -/
def Occurrence.InScope (isGlobal : String → Prop) (o : Occurrence) : Prop :=
  isGlobal o.name.lexeme ∨ o.name.lexeme ∈ o.declared

namespace Expr

/-- The name that is read or assigned to by the part of an expression at a place. -/
def nameAt? : Expr → Place → Option Token
  | .grouping inner, 0 :: place => inner.nameAt? place
  | .unary _ operand, 0 :: place => operand.nameAt? place
  | .binary left _ _, 0 :: place => left.nameAt? place
  | .binary _ _ right, 1 :: place => right.nameAt? place
  | .logical left _ _, 0 :: place => left.nameAt? place
  | .logical _ _ right, 1 :: place => right.nameAt? place
  | .ternary condition _ _, 0 :: place => condition.nameAt? place
  | .ternary _ ifTrue _, 1 :: place => ifTrue.nameAt? place
  | .ternary _ _ ifFalse, 2 :: place => ifFalse.nameAt? place
  | .reference name, [] => some name
  | .assign name _, [] => some name
  | .assign _ value, 0 :: place => value.nameAt? place
  | _, _ => none

/-- The occurrence at a place of an expression. -/
def occurrenceAt? (declared : List String) (e : Expr) (place : Place) : Option Occurrence :=
  (e.nameAt? place).map (⟨·, declared⟩)

end Expr

namespace Stmt

/-- What a statement declares for those that follow it in a list. -/
def introduced : Stmt → List String
  | .declare name _ => [name.lexeme]
  | _ => []

mutual

/-- The occurrence at a place of a statement, where some names are declared already. -/
def occurrenceAt? (declared : List String) : Stmt → Place → Option Occurrence
  | .expression value, 0 :: place => value.occurrenceAt? declared place
  | .print value, 0 :: place => value.occurrenceAt? declared place
  | .declare _ initializer, 0 :: place => initializer.occurrenceAt? declared place
  | .block statements, position :: place =>
    occurrenceInAll? declared statements position place
  | .branch condition _ _, 0 :: place => condition.occurrenceAt? declared place
  | .branch _ thenBranch _, 1 :: place => thenBranch.occurrenceAt? declared place
  | .branch _ _ elseBranch, 2 :: place => occurrenceInOption? declared elseBranch place
  | .loop _ condition _, 0 :: place => condition.occurrenceAt? declared place
  | .loop _ _ body, 1 :: place => body.occurrenceAt? declared place
  | .switch subject _ _, 0 :: place => subject.occurrenceAt? declared place
  | .switch _ cases _, 1 :: position :: place => occurrenceInCases? declared cases position place
  | .switch _ _ fallback, 2 :: place => occurrenceInOption? declared fallback place
  | _, _ => none

/-- The occurrence at a place of the statement at a position of a list. -/
def occurrenceInAll? (declared : List String) : List Stmt → Nat → Place → Option Occurrence
  | [], _, _ => none
  | s :: _, 0, place => s.occurrenceAt? declared place
  | s :: rest, position + 1, place =>
    occurrenceInAll? (s.introduced ++ declared) rest position place

/-- The occurrence at a place of the branch of a switch at a position. -/
def occurrenceInCases? (declared : List String) :
    List (Expr × Stmt) → Nat → Place → Option Occurrence
  | (condition, _) :: _, 0, 0 :: place => condition.occurrenceAt? declared place
  | (_, body) :: _, 0, 1 :: place => body.occurrenceAt? declared place
  | _ :: rest, position + 1, place => occurrenceInCases? declared rest position place
  | _, _, _ => none

/-- The occurrence at a place of an optional statement. -/
def occurrenceInOption? (declared : List String) : Option Stmt → Place → Option Occurrence
  | none, _ => none
  | some s, place => s.occurrenceAt? declared place

end

end Stmt

/-- The occurrence at a place of a program. -/
def Program.occurrenceAt? (p : Program) : Place → Option Occurrence
  | [] => none
  | position :: place => Stmt.occurrenceInAll? [] p position place

end Treewalk
