import Treewalk.Syntax.Stmt

set_option autoImplicit false
set_option relaxedAutoImplicit false

/-!
Syntax trees on other lines.

`mapLines g` moves every token of a tree from its line to the one that `g` gives. Kinds, spellings
and literals stay, so only what mentions a line can tell the two trees apart.
-/

namespace Treewalk

/-- The token on another line. -/
def Token.mapLine (g : Nat → Nat) (t : Token) : Token :=
  { t with line := g t.line }

@[simp] theorem Token.mapLine_kind (g : Nat → Nat) (t : Token) : (t.mapLine g).kind = t.kind := rfl

@[simp] theorem Token.mapLine_lexeme (g : Nat → Nat) (t : Token) :
    (t.mapLine g).lexeme = t.lexeme := rfl

@[simp] theorem Token.mapLine_literal (g : Nat → Nat) (t : Token) :
    (t.mapLine g).literal = t.literal := rfl

@[simp] theorem Token.mapLine_line (g : Nat → Nat) (t : Token) :
    (t.mapLine g).line = g t.line := rfl

@[simp] theorem Token.mapLine_id (t : Token) : t.mapLine id = t := rfl

/-- The expression on other lines. -/
def Expr.mapLines (g : Nat → Nat) : Expr → Expr
  | .literal value => .literal value
  | .grouping inner => .grouping (inner.mapLines g)
  | .unary operator operand => .unary (operator.mapLine g) (operand.mapLines g)
  | .binary left operator right =>
    .binary (left.mapLines g) (operator.mapLine g) (right.mapLines g)
  | .logical left operator right =>
    .logical (left.mapLines g) (operator.mapLine g) (right.mapLines g)
  | .ternary condition ifTrue ifFalse =>
    .ternary (condition.mapLines g) (ifTrue.mapLines g) (ifFalse.mapLines g)
  | .reference name => .reference (name.mapLine g)
  | .assign name value => .assign (name.mapLine g) (value.mapLines g)

@[simp] theorem Expr.mapLines_id (e : Expr) : e.mapLines id = e := by
  induction e with
  | literal value => rfl
  | grouping inner ih => rw [mapLines, ih]
  | unary operator operand ih => rw [mapLines, ih, Token.mapLine_id]
  | binary left operator right ihl ihr => rw [mapLines, ihl, ihr, Token.mapLine_id]
  | logical left operator right ihl ihr => rw [mapLines, ihl, ihr, Token.mapLine_id]
  | ternary condition ifTrue ifFalse ihc iht ihf => rw [mapLines, ihc, iht, ihf]
  | reference name => rw [mapLines, Token.mapLine_id]
  | assign name value ih => rw [mapLines, ih, Token.mapLine_id]

namespace Stmt

mutual

/-- The statement on other lines. -/
def mapLines (g : Nat → Nat) : Stmt → Stmt
  | .expression value => .expression (value.mapLines g)
  | .print value => .print (value.mapLines g)
  | .declare name initializer => .declare (name.mapLine g) (initializer.mapLines g)
  | .block statements => .block (mapLinesOfAll g statements)
  | .branch condition thenBranch elseBranch =>
    .branch (condition.mapLines g) (thenBranch.mapLines g) (mapLinesOfOption g elseBranch)
  | .loop form condition body => .loop form (condition.mapLines g) (body.mapLines g)
  | .switch subject cases fallback =>
    .switch (subject.mapLines g) (mapLinesOfCases g cases) (mapLinesOfOption g fallback)
  | .breakLoop => .breakLoop
  | .continueLoop => .continueLoop
  | .exitProgram => .exitProgram

/-- The statements on other lines. -/
def mapLinesOfAll (g : Nat → Nat) : List Stmt → List Stmt
  | [] => []
  | s :: rest => s.mapLines g :: mapLinesOfAll g rest

/-- The branches of a switch on other lines. -/
def mapLinesOfCases (g : Nat → Nat) : List (Expr × Stmt) → List (Expr × Stmt)
  | [] => []
  | (condition, body) :: rest =>
    (condition.mapLines g, body.mapLines g) :: mapLinesOfCases g rest

/-- An optional statement on other lines. -/
def mapLinesOfOption (g : Nat → Nat) : Option Stmt → Option Stmt
  | none => none
  | some s => some (s.mapLines g)

end

theorem mapLinesOfAll_eq_map (g : Nat → Nat) (ss : List Stmt) :
    mapLinesOfAll g ss = ss.map (mapLines g) := by
  induction ss with
  | nil => rfl
  | cons s rest ih => rw [mapLinesOfAll, ih, List.map_cons]

theorem mapLines_block (g : Nat → Nat) (ss : List Stmt) :
    (Stmt.block ss).mapLines g = .block (ss.map (mapLines g)) := by
  rw [mapLines, mapLinesOfAll_eq_map]

mutual

@[simp] theorem mapLines_id (s : Stmt) : s.mapLines id = s := by
  cases s with
  | expression value => rw [mapLines, Expr.mapLines_id]
  | print value => rw [mapLines, Expr.mapLines_id]
  | declare name initializer => rw [mapLines, Expr.mapLines_id, Token.mapLine_id]
  | block statements => rw [mapLines, mapLinesOfAll_id statements]
  | branch condition thenBranch elseBranch =>
    rw [mapLines, Expr.mapLines_id, mapLines_id thenBranch, mapLinesOfOption_id elseBranch]
  | loop form condition body => rw [mapLines, Expr.mapLines_id, mapLines_id body]
  | switch subject cases fallback =>
    rw [mapLines, Expr.mapLines_id, mapLinesOfCases_id cases, mapLinesOfOption_id fallback]
  | breakLoop => rfl
  | continueLoop => rfl
  | exitProgram => rfl

@[simp] theorem mapLinesOfAll_id (ss : List Stmt) : mapLinesOfAll id ss = ss := by
  cases ss with
  | nil => rfl
  | cons s rest => rw [mapLinesOfAll, mapLines_id s, mapLinesOfAll_id rest]

@[simp] theorem mapLinesOfCases_id (cases : List (Expr × Stmt)) :
    mapLinesOfCases id cases = cases := by
  match cases with
  | [] => rfl
  | (condition, body) :: rest =>
    rw [mapLinesOfCases, Expr.mapLines_id, mapLines_id body, mapLinesOfCases_id rest]

@[simp] theorem mapLinesOfOption_id (o : Option Stmt) : mapLinesOfOption id o = o := by
  cases o with
  | none => rfl
  | some s => rw [mapLinesOfOption, mapLines_id s]

end

end Stmt

end Treewalk
