import Treewalk.Proofs.Syntax.Names

set_option autoImplicit false
set_option relaxedAutoImplicit false

/-!
The grammar of the language as concrete syntax trees.

A tree holds every token of the text that it stands for, punctuation included: `tokens` lists them
in order, and `tree` is the expression, statement or program that the text means. What the grammar
rules out cannot be built: the index of an expression bounds its operators from below, and the
indices of statements keep `break` and `continue` inside of loops and each `else` with the nearest
`if`.
-/

namespace Treewalk.Grammar

/-- A token of one of the given kinds. -/
abbrev Terminal (kinds : List Kind) : Type :=
  { t : Token // t.kind ∈ kinds }

/-- How tightly a binary operator holds its operands. Assignment is looser than all of them with 0,
a conditional has 3, a unary operator 8. -/
def binding? : Kind → Option Nat
  | .orWord => some 1
  | .andWord => some 2
  | .bangEqual => some 4
  | .equalEqual => some 4
  | .greater => some 5
  | .greaterEqual => some 5
  | .less => some 5
  | .lessEqual => some 5
  | .minus => some 6
  | .plus => some 6
  | .slash => some 7
  | .star => some 7
  | _ => none

/-- Expressions in which every operator outside of parentheses holds at least as tightly as the
index says. Binary operators associate to the left, so a right operand has to hold more tightly. -/
inductive Expression : Nat → Type where
  | literal {p : Nat}
      (word : Terminal [.falseWord, .trueWord, .nilWord, .number, .string]) : Expression p
  | reference {p : Nat} (name : Terminal [.identifier]) : Expression p
  | grouping {p : Nat} (opening : Terminal [.leftParen]) (inner : Expression 0)
      (closing : Terminal [.rightParen]) : Expression p
  | unary {p : Nat} (loose : p ≤ 8) (operator : Terminal [.bang, .minus])
      (operand : Expression 8) : Expression p
  | binary {p q : Nat} (loose : p ≤ q) (left : Expression q) (operator : Token)
      (binds : binding? operator.kind = some q) (right : Expression (q + 1)) : Expression p
  | conditional {p : Nat} (loose : p ≤ 3) (condition : Expression 4)
      (question : Terminal [.question]) (ifTrue : Expression 3) (colon : Terminal [.colon])
      (ifFalse : Expression 3) : Expression p
  | assignment (name : Terminal [.identifier]) (equals : Terminal [.equal])
      (value : Expression 0) : Expression 0

/-- The value of a literal. A number or text has the value that its token carries. -/
def literalValue (word : Token) : Value :=
  match word.kind with
  | .falseWord => .boolean false
  | .trueWord => .boolean true
  | .nilWord => .nil
  | _ => word.literal.getD .nil

/-- The operation of a binary operator: `or` and `and` are the ones that may skip an operand. -/
def operation (left : Expr) (operator : Token) (right : Expr) : Expr :=
  if operator.kind ∈ [.orWord, .andWord] then .logical left operator right
  else .binary left operator right

namespace Expression

def tokens : {p : Nat} → Expression p → List Token
  | _, .literal word => [word.val]
  | _, .reference name => [name.val]
  | _, .grouping opening inner closing => opening.val :: (inner.tokens ++ [closing.val])
  | _, .unary _ operator operand => operator.val :: operand.tokens
  | _, .binary _ left operator _ right => left.tokens ++ operator :: right.tokens
  | _, .conditional _ condition question ifTrue colon ifFalse =>
    condition.tokens ++ question.val :: (ifTrue.tokens ++ colon.val :: ifFalse.tokens)
  | _, .assignment name equals value => name.val :: equals.val :: value.tokens

def tree : {p : Nat} → Expression p → Expr
  | _, .literal word => .literal (literalValue word.val)
  | _, .reference name => .reference name.val
  | _, .grouping _ inner _ => .grouping inner.tree
  | _, .unary _ operator operand => .unary operator.val operand.tree
  | _, .binary _ left operator _ right => operation left.tree operator right.tree
  | _, .conditional _ condition _ ifTrue _ ifFalse =>
    .ternary condition.tree ifTrue.tree ifFalse.tree
  | _, .assignment name _ value => .assign name.val value.tree

end Expression

/-- The declaration of a variable, with or without an initial value. -/
structure Declaration where
  keyword : Terminal [.varWord]
  name : Terminal [.identifier]
  initializer : Option (Terminal [.equal] × Expression 0)
  semicolon : Terminal [.semicolon]

namespace Declaration

def tokens (d : Declaration) : List Token :=
  d.keyword.val :: d.name.val ::
    ((d.initializer.map fun i => i.1.val :: i.2.tokens).getD [] ++ [d.semicolon.val])

/-- Without an initial value a variable starts as `nil`. -/
def tree (d : Declaration) : Stmt :=
  .declare d.name.val ((d.initializer.map fun i => i.2.tree).getD (.literal .nil))

end Declaration

/-- An expression between parentheses behind a keyword. -/
structure Head (keyword : Kind) where
  word : Terminal [keyword]
  opening : Terminal [.leftParen]
  value : Expression 0
  closing : Terminal [.rightParen]

def Head.tokens {keyword : Kind} (h : Head keyword) : List Token :=
  h.word.val :: h.opening.val :: (h.value.tokens ++ [h.closing.val])

/-- What stands before the first semicolon of a `for` loop, with that semicolon. -/
inductive Initializer where
  | absent (semicolon : Terminal [.semicolon])
  | declaration (d : Declaration)
  | expression (value : Expression 0) (semicolon : Terminal [.semicolon])

namespace Initializer

def tokens : Initializer → List Token
  | .absent semicolon => [semicolon.val]
  | .declaration d => d.tokens
  | .expression value semicolon => value.tokens ++ [semicolon.val]

def tree : Initializer → Option Stmt
  | .absent _ => none
  | .declaration d => some d.tree
  | .expression value _ => some (.expression value.tree)

end Initializer

/-- A `for` loop up to its body. -/
structure ForHead where
  word : Terminal [.forWord]
  opening : Terminal [.leftParen]
  initializer : Initializer
  condition : Option (Expression 0)
  semicolon : Terminal [.semicolon]
  increment : Option (Expression 0)
  closing : Terminal [.rightParen]

namespace ForHead

def tokens (h : ForHead) : List Token :=
  h.word.val :: h.opening.val :: (h.initializer.tokens ++
    ((h.condition.map Expression.tokens).getD [] ++ h.semicolon.val ::
      ((h.increment.map Expression.tokens).getD [] ++ [h.closing.val])))

/-- The body of the loop that stands for a `for` loop: the increment, if there is one, comes behind
what was written as the body. -/
def round (h : ForHead) (body : Stmt) : Stmt :=
  match h.increment with
  | none => .block [body]
  | some increment => .block [body, .expression increment.tree]

/-- A `for` loop is a loop, always going on where no condition was written, in a block behind the
initializer if there is one. -/
def tree (h : ForHead) (body : Stmt) : Stmt :=
  let condition := (h.condition.map Expression.tree).getD (.literal (.boolean true))
  let loop := Stmt.loop .forLoop condition (h.round body)
  match h.initializer.tree with
  | none => loop
  | some initializer => .block [initializer, loop]

end ForHead

mutual

/-- Statements. The first index tells whether a loop is around the statement, the second whether the
statement ends in an `if` without an `else`, to which an `else` behind it would belong. -/
inductive Statement : Bool → Bool → Type where
  | expression {inLoop : Bool} (value : Expression 0) (semicolon : Terminal [.semicolon]) :
      Statement inLoop false
  | print {inLoop : Bool} (word : Terminal [.printWord]) (value : Expression 0)
      (semicolon : Terminal [.semicolon]) : Statement inLoop false
  | block {inLoop : Bool} (opening : Terminal [.leftBrace]) (body : Sequence inLoop)
      (closing : Terminal [.rightBrace]) : Statement inLoop false
  | ifThen {inLoop dangling : Bool} (head : Head .ifWord)
      (thenBranch : Statement inLoop dangling) : Statement inLoop true
  | ifElse {inLoop dangling : Bool} (head : Head .ifWord) (thenBranch : Statement inLoop false)
      (word : Terminal [.elseWord]) (elseBranch : Statement inLoop dangling) :
      Statement inLoop dangling
  | whileLoop {inLoop dangling : Bool} (head : Head .whileWord)
      (body : Statement true dangling) : Statement inLoop dangling
  | forLoop {inLoop dangling : Bool} (head : ForHead)
      (body : Statement true dangling) : Statement inLoop dangling
  | switch {inLoop : Bool} (head : Head .switchWord) (opening : Terminal [.leftBrace])
      (branches : Branches inLoop false) (closing : Terminal [.rightBrace]) :
      Statement inLoop false
  | breakLoop (word : Terminal [.breakWord]) (semicolon : Terminal [.semicolon]) :
      Statement true false
  | continueLoop (word : Terminal [.continueWord]) (semicolon : Terminal [.semicolon]) :
      Statement true false
  | exitProgram {inLoop : Bool} (word : Terminal [.exitWord])
      (semicolon : Terminal [.semicolon]) : Statement inLoop false

/-- Declarations and statements in a row. -/
inductive Sequence : Bool → Type where
  | nil {inLoop : Bool} : Sequence inLoop
  | declaration {inLoop : Bool} (first : Declaration) (rest : Sequence inLoop) : Sequence inLoop
  | statement {inLoop dangling : Bool} (first : Statement inLoop dangling)
      (rest : Sequence inLoop) : Sequence inLoop

/-- Branches of a switch. The second index tells whether the default has been seen already, after
which there is no other. -/
inductive Branches : Bool → Bool → Type where
  | nil {inLoop seen : Bool} : Branches inLoop seen
  | case {inLoop seen : Bool} (word : Terminal [.caseWord]) (value : Expression 0)
      (colon : Terminal [.colon]) (body : Sequence inLoop) (rest : Branches inLoop seen) :
      Branches inLoop seen
  | default {inLoop : Bool} (word : Terminal [.defaultWord]) (colon : Terminal [.colon])
      (body : Sequence inLoop) (rest : Branches inLoop true) : Branches inLoop false

end

mutual

def Statement.tokens : {inLoop dangling : Bool} → Statement inLoop dangling → List Token
  | _, _, .expression value semicolon => value.tokens ++ [semicolon.val]
  | _, _, .print word value semicolon => word.val :: (value.tokens ++ [semicolon.val])
  | _, _, .block opening body closing => opening.val :: (body.tokens ++ [closing.val])
  | _, _, .ifThen head thenBranch => head.tokens ++ thenBranch.tokens
  | _, _, .ifElse head thenBranch word elseBranch =>
    head.tokens ++ (thenBranch.tokens ++ word.val :: elseBranch.tokens)
  | _, _, .whileLoop head body => head.tokens ++ body.tokens
  | _, _, .forLoop head body => head.tokens ++ body.tokens
  | _, _, .switch head opening branches closing =>
    head.tokens ++ opening.val :: (branches.tokens ++ [closing.val])
  | _, _, .breakLoop word semicolon => [word.val, semicolon.val]
  | _, _, .continueLoop word semicolon => [word.val, semicolon.val]
  | _, _, .exitProgram word semicolon => [word.val, semicolon.val]

def Sequence.tokens : {inLoop : Bool} → Sequence inLoop → List Token
  | _, .nil => []
  | _, .declaration first rest => first.tokens ++ rest.tokens
  | _, .statement first rest => first.tokens ++ rest.tokens

def Branches.tokens : {inLoop seen : Bool} → Branches inLoop seen → List Token
  | _, _, .nil => []
  | _, _, .case word value colon body rest =>
    word.val :: (value.tokens ++ colon.val :: (body.tokens ++ rest.tokens))
  | _, _, .default word colon body rest =>
    word.val :: colon.val :: (body.tokens ++ rest.tokens)

end

mutual

def Statement.tree : {inLoop dangling : Bool} → Statement inLoop dangling → Stmt
  | _, _, .expression value _ => .expression value.tree
  | _, _, .print _ value _ => .print value.tree
  | _, _, .block _ body _ => .block body.tree
  | _, _, .ifThen head thenBranch => .branch head.value.tree thenBranch.tree none
  | _, _, .ifElse head thenBranch _ elseBranch =>
    .branch head.value.tree thenBranch.tree (some elseBranch.tree)
  | _, _, .whileLoop head body => .loop .whileLoop head.value.tree body.tree
  | _, _, .forLoop head body => head.tree body.tree
  | _, _, .switch head _ branches _ => .switch head.value.tree branches.cases branches.fallback
  | _, _, .breakLoop _ _ => .breakLoop
  | _, _, .continueLoop _ _ => .continueLoop
  | _, _, .exitProgram _ _ => .exitProgram

def Sequence.tree : {inLoop : Bool} → Sequence inLoop → List Stmt
  | _, .nil => []
  | _, .declaration first rest => first.tree :: rest.tree
  | _, .statement first rest => first.tree :: rest.tree

/-- The branches of a switch with a value, in order. -/
def Branches.cases : {inLoop seen : Bool} → Branches inLoop seen → List (Expr × Stmt)
  | _, _, .nil => []
  | _, _, .case _ value _ body rest => (value.tree, .block body.tree) :: rest.cases
  | _, _, .default _ _ _ rest => rest.cases

/-- The default branch of a switch, wherever it stands. -/
def Branches.fallback : {inLoop seen : Bool} → Branches inLoop seen → Option Stmt
  | _, _, .nil => none
  | _, _, .case _ _ _ _ rest => rest.fallback
  | _, _, .default _ _ body _ => some (.block body.tree)

end

/-- A program is a sequence that is in no loop. -/
abbrev Program : Type :=
  Sequence false

/-- A `for` loop is read with an initializer of the right form only. -/
theorem Initializer.isInitializer_tree (i : Initializer) :
    ∀ s ∈ i.tree, s.isInitializer := by
  cases i with
  | absent semicolon => simp [Initializer.tree]
  | declaration d => simp [Initializer.tree, Declaration.tree, Stmt.isInitializer]
  | expression value semicolon => simp [Initializer.tree, Stmt.isInitializer]

/-- The branches of a switch are blocks. -/
theorem Branches.declares_cases : ∀ {inLoop seen : Bool} (b : Branches inLoop seen),
    Stmt.declaresCases b.cases = false ∧ Stmt.declaresOption b.fallback = false
  | _, _, .nil => ⟨rfl, rfl⟩
  | _, _, .case _ _ _ _ rest => rest.declares_cases
  | _, _, .default _ _ _ rest => ⟨rest.declares_cases.1, rfl⟩

theorem ForHead.declares_tree (h : ForHead) (body : Stmt) :
    (h.tree body).declares = false := by
  unfold ForHead.tree
  split
  · unfold ForHead.round
    split
    · rfl
    · rfl
  · rfl

/-- A statement as it is read declares nothing around it; only declarations do. -/
theorem Statement.declares_tree :
    ∀ {inLoop dangling : Bool} (s : Statement inLoop dangling), s.tree.declares = false
  | _, _, .expression _ _ => rfl
  | _, _, .print _ _ _ => rfl
  | _, _, .block _ _ _ => rfl
  | _, _, .ifThen _ thenBranch => by
    rw [tree, Stmt.declares, thenBranch.declares_tree]
    rfl
  | _, _, .ifElse _ thenBranch _ elseBranch => by
    rw [tree, Stmt.declares, thenBranch.declares_tree, Stmt.declaresOption,
      elseBranch.declares_tree]
    rfl
  | _, _, .whileLoop _ body => body.declares_tree
  | _, _, .forLoop head body => head.declares_tree body.tree
  | _, _, .switch _ _ branches _ => by
    obtain ⟨hcases, hfallback⟩ := branches.declares_cases
    rw [tree, Stmt.declares, hcases, hfallback]
    rfl
  | _, _, .breakLoop _ _ => rfl
  | _, _, .continueLoop _ _ => rfl
  | _, _, .exitProgram _ _ => rfl

end Treewalk.Grammar
