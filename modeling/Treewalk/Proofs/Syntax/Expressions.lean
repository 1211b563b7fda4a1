import Treewalk.Parse.Program

set_option autoImplicit false
set_option relaxedAutoImplicit false

/-!
The expressions of statements and the tokens in them.

An expression keeps its operator or its name as a token. It fits if this token is of a kind that
belongs there: an operator of its own arity, or an identifier.
-/

namespace Treewalk

namespace Kind

/-- The operators that stand before one operand. -/
def unaryOperators : List Kind :=
  [.bang, .minus]

/-- The operators that stand between two operands of which both are evaluated. -/
def binaryOperators : List Kind :=
  [.plus, .minus, .star, .slash, .greater, .greaterEqual, .less, .lessEqual, .equalEqual,
    .bangEqual]

/-- The operators that stand between two operands of which the second may be left alone. -/
def logicalOperators : List Kind :=
  [.andWord, .orWord]

end Kind

namespace Expr

/-- The operator or name of an expression, not of its parts. -/
def token? : Expr → Option Token
  | .literal _ => none
  | .grouping _ => none
  | .unary operator _ => some operator
  | .binary _ operator _ => some operator
  | .logical _ operator _ => some operator
  | .ternary _ _ _ => none
  | .reference name => some name
  | .assign name _ => some name

/-- The kinds of tokens that belong into an expression of this form. -/
def kinds : Expr → List Kind
  | .literal _ => []
  | .grouping _ => []
  | .unary _ _ => Kind.unaryOperators
  | .binary _ _ _ => Kind.binaryOperators
  | .logical _ _ _ => Kind.logicalOperators
  | .ternary _ _ _ => []
  | .reference _ => [.identifier]
  | .assign _ _ => [.identifier]

/-- What is true of all operators and of identifiers is true of the kinds that belong into any
expression. -/
theorem forall_mem_kinds {P : Kind → Prop}
    (h : ∀ k ∈ Kind.unaryOperators ++ (Kind.binaryOperators ++ (Kind.logicalOperators ++ [.identifier])),
      P k) (e : Expr) : ∀ k ∈ e.kinds, P k := by
  simp only [List.forall_mem_append] at h
  obtain ⟨hunary, hbinary, hlogical, hname⟩ := h
  cases e with
  | unary _ _ => exact hunary
  | binary _ _ _ => exact hbinary
  | logical _ _ _ => exact hlogical
  | reference _ => exact hname
  | assign _ _ => exact hname
  | _ => exact List.forall_mem_nil _

/-- The expression with all expressions inside of it. -/
def parts : Expr → List Expr
  | .literal value => [.literal value]
  | .grouping inner => .grouping inner :: inner.parts
  | .unary operator operand => .unary operator operand :: operand.parts
  | .binary left operator right => .binary left operator right :: (left.parts ++ right.parts)
  | .logical left operator right => .logical left operator right :: (left.parts ++ right.parts)
  | .ternary condition ifTrue ifFalse =>
    .ternary condition ifTrue ifFalse :: (condition.parts ++ (ifTrue.parts ++ ifFalse.parts))
  | .reference name => [.reference name]
  | .assign name value => .assign name value :: value.parts

/-- The values of the literals in an expression. -/
def literals : Expr → List Value
  | .literal value => [value]
  | .grouping inner => inner.literals
  | .unary _ operand => operand.literals
  | .binary left _ right => left.literals ++ right.literals
  | .logical left _ right => left.literals ++ right.literals
  | .ternary condition ifTrue ifFalse =>
    condition.literals ++ (ifTrue.literals ++ ifFalse.literals)
  | .reference _ => []
  | .assign _ value => value.literals

theorem mem_literals_iff {v : Value} {e : Expr} : v ∈ e.literals ↔ literal v ∈ e.parts := by
  induction e <;> simp_all [literals, parts]

/-- What is inside of a part is inside of the whole. -/
theorem parts_subset {part e : Expr} (h : part ∈ e.parts) : part.parts ⊆ e.parts := by
  induction e <;> grind [parts]

/-- The token of an expression belongs there, and has a property. -/
def Fits (Q : Token → Prop) (e : Expr) : Prop :=
  ∀ t ∈ e.token?, t.kind ∈ e.kinds ∧ Q t

/-- All tokens of an expression belong where they are, and have a property. -/
def AllFit (Q : Token → Prop) (e : Expr) : Prop :=
  ∀ part ∈ e.parts, part.Fits Q

variable {Q : Token → Prop}

theorem Fits.of_none {e : Expr} (h : e.token? = none) : e.Fits Q := by
  intro t ht
  rw [h] at ht
  contradiction

theorem Fits.of_some {e : Expr} {t : Token} (h : e.token? = some t)
    (hkind : t.kind ∈ e.kinds) (ht : Q t) : e.Fits Q := by
  intro t' ht'
  obtain rfl : t = t' := Option.some.inj (h.symm.trans ht')
  exact ⟨hkind, ht⟩

theorem AllFit.self {e : Expr} (h : e.AllFit Q) : e.Fits Q := by
  apply h
  cases e <;> simp [parts]

theorem allFit_literal (value : Value) : (literal value).AllFit Q :=
  List.forall_mem_singleton.mpr (.of_none rfl)

theorem allFit_grouping {inner : Expr} : (grouping inner).AllFit Q ↔ inner.AllFit Q := by
  have hself : (grouping inner).Fits Q := .of_none rfl
  simp [AllFit, parts, hself]

theorem allFit_unary {operator : Token} {operand : Expr} :
    (unary operator operand).AllFit Q ↔
      (unary operator operand).Fits Q ∧ operand.AllFit Q := by
  simp [AllFit, parts]

theorem allFit_binary {left right : Expr} {operator : Token} :
    (binary left operator right).AllFit Q ↔
      (binary left operator right).Fits Q ∧ left.AllFit Q ∧ right.AllFit Q := by
  simp [AllFit, parts, or_imp, forall_and]

theorem allFit_logical {left right : Expr} {operator : Token} :
    (logical left operator right).AllFit Q ↔
      (logical left operator right).Fits Q ∧ left.AllFit Q ∧ right.AllFit Q := by
  simp [AllFit, parts, or_imp, forall_and]

theorem allFit_ternary {condition ifTrue ifFalse : Expr} :
    (ternary condition ifTrue ifFalse).AllFit Q ↔
      condition.AllFit Q ∧ ifTrue.AllFit Q ∧ ifFalse.AllFit Q := by
  have hself : (ternary condition ifTrue ifFalse).Fits Q := .of_none rfl
  simp [AllFit, parts, hself, or_imp, forall_and]

theorem allFit_reference {name : Token} : (reference name).AllFit Q ↔ (reference name).Fits Q :=
  List.forall_mem_singleton

theorem allFit_assign {name : Token} {value : Expr} :
    (assign name value).AllFit Q ↔ (assign name value).Fits Q ∧ value.AllFit Q := by
  simp [AllFit, parts]

end Expr

namespace Stmt

mutual

/-- The outermost expressions of a statement, in the order of the source but for the increment of a
`for` loop and the default of a switch, which come last. -/
def expressions : Stmt → List Expr
  | .expression value => [value]
  | .print value => [value]
  | .declare _ initializer => [initializer]
  | .block statements => expressionsOfAll statements
  | .branch condition thenBranch elseBranch =>
    condition :: (thenBranch.expressions ++ expressionsOfOption elseBranch)
  | .loop _ condition body => condition :: body.expressions
  | .switch subject cases fallback =>
    subject :: (expressionsOfCases cases ++ expressionsOfOption fallback)
  | .breakLoop => []
  | .continueLoop => []
  | .exitProgram => []

/-- The outermost expressions of several statements. -/
def expressionsOfAll : List Stmt → List Expr
  | [] => []
  | s :: rest => s.expressions ++ expressionsOfAll rest

/-- The outermost expressions of the branches of a switch. -/
def expressionsOfCases : List (Expr × Stmt) → List Expr
  | [] => []
  | (condition, body) :: rest => condition :: (body.expressions ++ expressionsOfCases rest)

/-- The outermost expressions of an optional statement. -/
def expressionsOfOption : Option Stmt → List Expr
  | none => []
  | some s => s.expressions

end

theorem expressionsOfAll_append (ss ss' : List Stmt) :
    expressionsOfAll (ss ++ ss') = expressionsOfAll ss ++ expressionsOfAll ss' := by
  induction ss with
  | nil => rfl
  | cons s rest ih => rw [List.cons_append, expressionsOfAll, ih, expressionsOfAll, List.append_assoc]

/-- All tokens of the expressions of a statement belong where they are, and have a property. -/
def AllFit (Q : Token → Prop) (s : Stmt) : Prop :=
  ∀ e ∈ s.expressions, e.AllFit Q

end Stmt

/-- The outermost expressions of an entry. -/
def Entry.expressions : Entry → List Expr
  | .program p => Stmt.expressionsOfAll p
  | .expression e => [e]

end Treewalk
