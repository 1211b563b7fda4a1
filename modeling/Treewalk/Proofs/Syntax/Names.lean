import Treewalk.Syntax.Stmt

set_option autoImplicit false
set_option relaxedAutoImplicit false

/-!
The names that programs read or assign, and the statements that may declare one.
-/

namespace Treewalk

/-- The names that an expression reads or assigns. -/
def Expr.names : Expr → List String
  | .literal _ => []
  | .grouping inner => inner.names
  | .unary _ operand => operand.names
  | .binary left _ right => left.names ++ right.names
  | .logical left _ right => left.names ++ right.names
  | .ternary condition ifTrue ifFalse => condition.names ++ (ifTrue.names ++ ifFalse.names)
  | .reference name => [name.lexeme]
  | .assign name value => name.lexeme :: value.names

namespace Stmt

mutual

/-- The names that a statement reads or assigns. -/
def names : Stmt → List String
  | .expression value => value.names
  | .print value => value.names
  | .declare _ initializer => initializer.names
  | .block statements => namesOfAll statements
  | .branch condition thenBranch elseBranch =>
    condition.names ++ (thenBranch.names ++ namesOfOption elseBranch)
  | .loop _ condition body => condition.names ++ body.names
  | .switch subject cases fallback =>
    subject.names ++ (namesOfCases cases ++ namesOfOption fallback)
  | .breakLoop => []
  | .continueLoop => []
  | .exitProgram => []

/-- The names that several statements read or assign. -/
def namesOfAll : List Stmt → List String
  | [] => []
  | s :: rest => s.names ++ namesOfAll rest

/-- The names that the branches of a switch read or assign. -/
def namesOfCases : List (Expr × Stmt) → List String
  | [] => []
  | (condition, body) :: rest => condition.names ++ (body.names ++ namesOfCases rest)

/-- The names that an optional statement reads or assigns. -/
def namesOfOption : Option Stmt → List String
  | none => []
  | some s => s.names

end

mutual

/-- Whether a statement may declare a variable in the scope that it is run in. A block has a scope
of its own. The increment of a `for` loop stands in one, but `continue` runs it outside of that. -/
def declares : Stmt → Bool
  | .expression _ => false
  | .print _ => false
  | .declare _ _ => true
  | .block _ => false
  | .branch _ thenBranch elseBranch => thenBranch.declares || declaresOption elseBranch
  | .loop .whileLoop _ body => body.declares
  | .loop .forLoop _ body => body.declares || declaresIncrement body
  | .switch _ cases fallback => declaresCases cases || declaresOption fallback
  | .breakLoop => false
  | .continueLoop => false
  | .exitProgram => false

/-- Whether a branch of a switch may declare a variable around it. -/
def declaresCases : List (Expr × Stmt) → Bool
  | [] => false
  | (_, body) :: rest => body.declares || declaresCases rest

/-- Whether an optional statement may declare a variable around it. -/
def declaresOption : Option Stmt → Bool
  | none => false
  | some s => s.declares

/-- Whether the increment of a `for` loop with the given body may declare a variable around it. -/
def declaresIncrement : Stmt → Bool
  | .block [_, increment] => increment.declares
  | _ => false

end

end Stmt

/-- What can be the initializer of a `for` loop. -/
def Stmt.isInitializer : Stmt → Bool
  | .declare _ _ => true
  | .expression _ => true
  | _ => false

end Treewalk
