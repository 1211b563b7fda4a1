import Treewalk.Syntax.Expr

set_option autoImplicit false
set_option relaxedAutoImplicit false

/-!
Statements and programs, their written form, and the listing of their expressions in reverse Polish
order.
-/

namespace Treewalk

/-- How a loop was written. A `for` loop keeps its increment as the second statement of a block that
is its body. -/
inductive LoopForm where
  | whileLoop
  | forLoop
  deriving DecidableEq, Repr

/-- A statement. -/
inductive Stmt where
  | expression (value : Expr)
  | print (value : Expr)
  | declare (name : Token) (initializer : Expr)
  | block (statements : List Stmt)
  | branch (condition : Expr) (thenBranch : Stmt) (elseBranch : Option Stmt)
  | loop (form : LoopForm) (condition : Expr) (body : Stmt)
  | switch (subject : Expr) (cases : List (Expr × Stmt)) (fallback : Option Stmt)
  | breakLoop
  | continueLoop
  | exitProgram

/-- A program is a sequence of statements. -/
abbrev Program := List Stmt

/-- The keyword that a loop was written with. -/
def LoopForm.keyword : LoopForm → String
  | .whileLoop => "while"
  | .forLoop => "for"

namespace Stmt

mutual

/-- The statement on one line. -/
def text : Stmt → String
  | .expression value => value.text ++ ";"
  | .print value => "print " ++ value.text ++ ";"
  | .declare name initializer => "var " ++ name.lexeme ++ " = " ++ initializer.text ++ ";"
  | .block statements => "\x7b" ++ textOfAll statements ++ " \x7d"
  | .branch condition thenBranch elseBranch =>
    "if " ++ condition.text ++ " " ++ thenBranch.text ++ textOfOption " else " elseBranch
  | .loop form condition body => form.keyword ++ " " ++ condition.text ++ " " ++ body.text
  | .switch subject cases fallback =>
    "switch " ++ subject.text ++ " \x7b" ++ textOfCases cases
      ++ textOfOption " default: " fallback ++ " \x7d"
  | .breakLoop => "break;"
  | .continueLoop => "continue;"
  | .exitProgram => "exit;"

/-- The statements, each with a blank before it. -/
def textOfAll : List Stmt → String
  | [] => ""
  | s :: rest => " " ++ s.text ++ textOfAll rest

/-- The branches of a switch, each with a blank before it. -/
def textOfCases : List (Expr × Stmt) → String
  | [] => ""
  | (condition, body) :: rest =>
    " case " ++ condition.text ++ ": " ++ body.text ++ textOfCases rest

/-- An optional statement, behind the words that announce it. -/
def textOfOption (announced : String) : Option Stmt → String
  | none => ""
  | some s => announced ++ s.text

end

mutual

/-- Every expression of a statement in reverse Polish order, in the order of the source. -/
def rpn : Stmt → List String
  | .expression value => [value.rpn]
  | .print value => [value.rpn]
  | .declare _ initializer => [initializer.rpn]
  | .block statements => rpnOfAll statements
  | .branch condition thenBranch elseBranch =>
    condition.rpn :: (thenBranch.rpn ++ rpnOfOption elseBranch)
  | .loop _ condition body => condition.rpn :: body.rpn
  | .switch subject cases fallback => subject.rpn :: (rpnOfCases cases ++ rpnOfOption fallback)
  | .breakLoop => []
  | .continueLoop => []
  | .exitProgram => []

/-- The expressions of several statements. -/
def rpnOfAll : List Stmt → List String
  | [] => []
  | s :: rest => s.rpn ++ rpnOfAll rest

/-- The expressions of the branches of a switch. -/
def rpnOfCases : List (Expr × Stmt) → List String
  | [] => []
  | (condition, body) :: rest => condition.rpn :: (body.rpn ++ rpnOfCases rest)

/-- The expressions of an optional statement. -/
def rpnOfOption : Option Stmt → List String
  | none => []
  | some s => s.rpn

end

end Stmt

namespace Program

/-- A program with one statement on each line. -/
def text (p : Program) : String :=
  String.join (p.map fun s => s.text ++ "\n")

/-- Every expression of a program in reverse Polish order, one line each. -/
def rpn (p : Program) : List String :=
  Stmt.rpnOfAll p

end Program

end Treewalk
