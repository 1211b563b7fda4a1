import Treewalk.Parse.Expr
import Treewalk.Syntax.Stmt

set_option autoImplicit false
set_option relaxedAutoImplicit false

/-!
Reading statements and declarations.

As with expressions, a budget makes the recursion structural. A `for` loop is read as a loop whose
body is a block that ends with the increment, inside a block that starts with the initializer.
-/

namespace Treewalk.Parser

/-- Reads a variable declaration behind `var`; without an initializer the variable is `nil`. -/
def variableDeclaration : Parser Stmt := do
  match ← accept? [.identifier] with
  | none => unexpected .variableName
  | some name => do
    match ← accept? [.equal] with
    | some _ => do
      let initializer ← expression
      expect .semicolon "after variable declaration"
      pure (.declare name initializer)
    | none => do
      expect .semicolon "after variable declaration"
      pure (.declare name (.literal .nil))

/-- Reads an expression statement. -/
def expressionStatement : Parser Stmt := do
  let value ← expression
  expect .semicolon "after expression"
  pure (.expression value)

/-- Reads a `print` statement. -/
def printStatement : Parser Stmt := do
  advance
  let value ← expression
  expect .semicolon "after value"
  pure (.print value)

/-- Reads an `exit` statement. -/
def exitStatement : Parser Stmt := do
  advance
  expect .semicolon "after 'exit'"
  pure .exitProgram

/-- Records the use of a loop keyword outside of loops. -/
def checkInLoop (inLoop : Bool) (keyword : Token) : Parser Unit :=
  if inLoop then pure () else record (.outsideLoop keyword)

/-- Reads a `break` statement. -/
def breakStatement (inLoop : Bool) : Parser Stmt := do
  let keyword ← current
  advance
  checkInLoop inLoop keyword
  expect .semicolon "after 'break'"
  pure .breakLoop

/-- Reads a `continue` statement. -/
def continueStatement (inLoop : Bool) : Parser Stmt := do
  let keyword ← current
  advance
  checkInLoop inLoop keyword
  expect .semicolon "after 'continue'"
  pure .continueLoop

/-- What stands between the parentheses of a `for` loop. -/
structure ForClauses where
  initializer : Option Stmt
  condition : Option Expr
  increment : Option Expr

/-- Reads the initializer of a `for` loop and the semicolon behind it. -/
def forInitializer : Parser (Option Stmt) := do
  match ← accept? [.semicolon] with
  | some _ => pure none
  | none => do
    match ← accept? [.varWord] with
    | some _ => do
      let declaration ← variableDeclaration
      pure (some declaration)
    | none => do
      let statement ← expressionStatement
      pure (some statement)

/-- Reads an expression, unless a token of the given kind stands in its place. -/
def expressionUnless (kind : Kind) : Parser (Option Expr) := do
  let next ← currentKind
  if next = kind then pure none
  else do
    let e ← expression
    pure (some e)

/-- Reads the head of a `for` loop. -/
def forClauses : Parser ForClauses := do
  advance
  expect .leftParen "after 'for'"
  let initializer ← forInitializer
  let condition ← expressionUnless .semicolon
  expect .semicolon "after loop condition"
  let increment ← expressionUnless .rightParen
  expect .rightParen "after for clauses"
  pure ⟨initializer, condition, increment⟩

/-- The loop that a `for` loop stands for. The increment is the second statement of the body, where
`continue` looks for it. -/
def ForClauses.loop (clauses : ForClauses) (body : Stmt) : Stmt :=
  .loop .forLoop (clauses.condition.getD (.literal (.boolean true)))
    (.block (body :: clauses.increment.toList.map .expression))

/-- The statement that a `for` loop stands for: its loop, in a scope of its own with the initializer
if it has one. -/
def ForClauses.statement (clauses : ForClauses) (body : Stmt) : Stmt :=
  match clauses.initializer with
  | some initializer => .block [initializer, clauses.loop body]
  | none => clauses.loop body

/-- The tokens that end a branch of a switch. -/
def branchEnds : List Kind :=
  [.caseWord, .defaultWord, .rightBrace, .eof]

/-- The branches of a switch. -/
structure SwitchBody where
  cases : List (Expr × Stmt)
  fallback : Option Stmt

mutual

/-- Reads a declaration or statement, and past it if there is an error in it. -/
def declaration : Nat → Bool → Parser (Option Stmt)
  | 0, _ => recover (unexpected .expression)
  | n + 1, inLoop => recover do
    match ← accept? [.varWord] with
    | some _ => variableDeclaration
    | none => statement n inLoop

/-- Reads declarations up to a token of one of the given kinds. -/
def declarations : Nat → Bool → List Kind → Parser (List Stmt)
  | 0, _, _ => pure []
  | n + 1, inLoop, ends => do
    let next ← currentKind
    if next ∈ ends then pure []
    else do
      let first ← declaration n inLoop
      let rest ← declarations n inLoop ends
      pure (first.toList ++ rest)

/-- Reads a statement; `inLoop` tells whether a loop is around it. -/
def statement : Nat → Bool → Parser Stmt
  | 0, _ => unexpected .expression
  | n + 1, inLoop => do
    let next ← currentKind
    match next with
    | .forWord => do
      let clauses ← forClauses
      let body ← statement n true
      pure (clauses.statement body)
    | .ifWord => do
      advance
      expect .leftParen "after 'if'"
      let condition ← expression
      expect .rightParen "after if condition"
      let thenBranch ← statement n inLoop
      match ← accept? [.elseWord] with
      | some _ => do
        let elseBranch ← statement n inLoop
        pure (.branch condition thenBranch (some elseBranch))
      | none => pure (.branch condition thenBranch none)
    | .printWord => printStatement
    | .whileWord => do
      advance
      expect .leftParen "after 'while'"
      let condition ← expression
      expect .rightParen "after condition"
      let body ← statement n true
      pure (.loop .whileLoop condition body)
    | .leftBrace => do
      expect .leftBrace "before block"
      let statements ← declarations n inLoop [.rightBrace, .eof]
      expect .rightBrace "after block"
      pure (.block statements)
    | .exitWord => exitStatement
    | .breakWord => breakStatement inLoop
    | .continueWord => continueStatement inLoop
    | .switchWord => do
      advance
      expect .leftParen "after 'switch'"
      let subject ← expression
      expect .rightParen "after switch subject"
      expect .leftBrace "before switch body"
      let body ← switchBranches n inLoop false
      expect .rightBrace "after switch body"
      pure (.switch subject body.cases body.fallback)
    | _ => expressionStatement

/-- Reads the branches of a switch up to its closing brace; `hasDefault` tells whether one of the
branches before was the default. What begins no branch is skipped up to the next one. -/
def switchBranches : Nat → Bool → Bool → Parser SwitchBody
  | 0, _, _ => pure ⟨[], none⟩
  | n + 1, inLoop, hasDefault => do
    let next ← current
    match next.kind with
    | .rightBrace => pure ⟨[], none⟩
    | .eof => pure ⟨[], none⟩
    | .caseWord => do
      advance
      let condition ← expression
      expect .colon "after case value"
      let statements ← declarations n inLoop branchEnds
      let body ← switchBranches n inLoop hasDefault
      pure ⟨(condition, .block statements) :: body.cases, body.fallback⟩
    | .defaultWord => do
      advance
      expect .colon "after 'default'"
      let statements ← declarations n inLoop branchEnds
      if hasDefault then do
        record (.duplicateDefault next)
        switchBranches n inLoop true
      else do
        let body ← switchBranches n inLoop true
        pure ⟨body.cases, some (.block statements)⟩
    | _ => do
      record (.unexpectedSwitchBranch next)
      advance
      skipUntil branchEnds
      switchBranches n inLoop hasDefault

end

end Treewalk.Parser
