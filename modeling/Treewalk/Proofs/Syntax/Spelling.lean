import Treewalk.Proofs.Syntax.Expressions
import Treewalk.Proofs.Syntax.Lines

set_option autoImplicit false
set_option relaxedAutoImplicit false

/-!
What the written forms of an expression do not show.

Neither of the two written forms shows groupings, or more of a token than its kind and spelling. So
groupings can be removed, and lines and literals of tokens changed, without a trace.
-/

namespace Treewalk

namespace Token

/-- The change of tokens leaves kinds and spellings as they are. -/
structure KeepsSpelling (f : Token → Token) : Prop where
  kind : ∀ t, (f t).kind = t.kind
  lexeme : ∀ t, (f t).lexeme = t.lexeme

/-- The token without its line. -/
def withoutLine : Token → Token :=
  mapLine fun _ => 0

/-- The kind and the spelling of a token and nothing else. -/
def bare (t : Token) : Token :=
  ⟨t.kind, t.lexeme, none, 0⟩

theorem keepsSpelling_id : KeepsSpelling id :=
  ⟨fun _ => rfl, fun _ => rfl⟩

theorem keepsSpelling_mapLine (g : Nat → Nat) : KeepsSpelling (mapLine g) :=
  ⟨fun _ => rfl, fun _ => rfl⟩

end Token

namespace Expr

/-- The expression without its groupings and with other tokens as operators and names. -/
def stripped (f : Token → Token) : Expr → Expr
  | .literal value => .literal value
  | .grouping inner => inner.stripped f
  | .unary operator operand => .unary (f operator) (operand.stripped f)
  | .binary left operator right => .binary (left.stripped f) (f operator) (right.stripped f)
  | .logical left operator right => .logical (left.stripped f) (f operator) (right.stripped f)
  | .ternary condition ifTrue ifFalse =>
    .ternary (condition.stripped f) (ifTrue.stripped f) (ifFalse.stripped f)
  | .reference name => .reference (f name)
  | .assign name value => .assign (f name) (value.stripped f)

theorem stripped_mapLines (f : Token → Token) (g : Nat → Nat) (e : Expr) :
    (e.mapLines g).stripped f = e.stripped (f ∘ Token.mapLine g) := by
  induction e with
  | literal value => rfl
  | grouping inner ih => exact ih
  | unary operator operand ih => simp only [mapLines, stripped, ih, Function.comp]
  | binary left operator right ihl ihr =>
    simp only [mapLines, stripped, ihl, ihr, Function.comp]
  | logical left operator right ihl ihr =>
    simp only [mapLines, stripped, ihl, ihr, Function.comp]
  | ternary condition ifTrue ifFalse ihc iht ihf => simp only [mapLines, stripped, ihc, iht, ihf]
  | reference name => rfl
  | assign name value ih => simp only [mapLines, stripped, ih, Function.comp]

/-- Only the tokens that are in the expression count. -/
theorem stripped_congr {f g : Token → Token} {e : Expr}
    (h : ∀ part ∈ e.parts, ∀ t ∈ part.token?, f t = g t) : e.stripped f = e.stripped g := by
  induction e with
  | literal value => rfl
  | grouping inner ih => exact ih (List.forall_mem_cons.mp h).2
  | unary operator operand ih =>
    obtain ⟨hself, hoperand⟩ := List.forall_mem_cons.mp h
    rw [stripped, stripped, hself operator rfl, ih hoperand]
  | binary left operator right ihl ihr =>
    obtain ⟨hself, hparts⟩ := List.forall_mem_cons.mp h
    obtain ⟨hleft, hright⟩ := List.forall_mem_append.mp hparts
    rw [stripped, stripped, hself operator rfl, ihl hleft, ihr hright]
  | logical left operator right ihl ihr =>
    obtain ⟨hself, hparts⟩ := List.forall_mem_cons.mp h
    obtain ⟨hleft, hright⟩ := List.forall_mem_append.mp hparts
    rw [stripped, stripped, hself operator rfl, ihl hleft, ihr hright]
  | ternary condition ifTrue ifFalse ihc iht ihf =>
    obtain ⟨-, hparts⟩ := List.forall_mem_cons.mp h
    obtain ⟨hcondition, hbranches⟩ := List.forall_mem_append.mp hparts
    obtain ⟨htrue, hfalse⟩ := List.forall_mem_append.mp hbranches
    rw [stripped, stripped, ihc hcondition, iht htrue, ihf hfalse]
  | reference name => exact congrArg reference (List.forall_mem_singleton.mp h name rfl)
  | assign name value ih =>
    obtain ⟨hself, hvalue⟩ := List.forall_mem_cons.mp h
    rw [stripped, stripped, hself name rfl, ih hvalue]

variable {f : Token → Token}

end Expr

namespace Stmt

mutual

/-- The statement with its expressions without groupings, and with other tokens as operators and names. -/
def stripped (f : Token → Token) : Stmt → Stmt
  | .expression value => .expression (value.stripped f)
  | .print value => .print (value.stripped f)
  | .declare name initializer => .declare (f name) (initializer.stripped f)
  | .block statements => .block (strippedOfAll f statements)
  | .branch condition thenBranch elseBranch =>
    .branch (condition.stripped f) (thenBranch.stripped f) (strippedOfOption f elseBranch)
  | .loop form condition body => .loop form (condition.stripped f) (body.stripped f)
  | .switch subject cases fallback =>
    .switch (subject.stripped f) (strippedOfCases f cases) (strippedOfOption f fallback)
  | .breakLoop => .breakLoop
  | .continueLoop => .continueLoop
  | .exitProgram => .exitProgram

/-- The statements in a row without groupings. -/
def strippedOfAll (f : Token → Token) : List Stmt → List Stmt
  | [] => []
  | s :: rest => s.stripped f :: strippedOfAll f rest

/-- The branches of a switch without groupings. -/
def strippedOfCases (f : Token → Token) : List (Expr × Stmt) → List (Expr × Stmt)
  | [] => []
  | (condition, body) :: rest =>
    (condition.stripped f, body.stripped f) :: strippedOfCases f rest

/-- An optional statement without groupings. -/
def strippedOfOption (f : Token → Token) : Option Stmt → Option Stmt
  | none => none
  | some s => some (s.stripped f)

end

end Stmt

end Treewalk
