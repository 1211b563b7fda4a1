import Treewalk.Syntax.Stmt

set_option autoImplicit false
set_option relaxedAutoImplicit false

/-!
What can be told about a statement from its form: the names that it assigns to, the names that it
may declare around it, and the statements inside of it.

A statement is regular if it has a form in which statements are read. Declarations stand in lists of
statements only then, so that they are the only statements that declare anything around them.
-/

namespace Treewalk

/-- The names that an expression assigns to. -/
def Expr.targets : Expr → List String
  | .literal _ => []
  | .grouping inner => inner.targets
  | .unary _ operand => operand.targets
  | .binary left _ right => left.targets ++ right.targets
  | .logical left _ right => left.targets ++ right.targets
  | .ternary condition ifTrue ifFalse =>
    condition.targets ++ (ifTrue.targets ++ ifFalse.targets)
  | .reference _ => []
  | .assign name value => name.lexeme :: value.targets

namespace Stmt

mutual

/-- The names that a statement assigns to. -/
def targets : Stmt → List String
  | .expression value => value.targets
  | .print value => value.targets
  | .declare _ initializer => initializer.targets
  | .block statements => targetsOfAll statements
  | .branch condition thenBranch elseBranch =>
    condition.targets ++ (thenBranch.targets ++ targetsOfOption elseBranch)
  | .loop _ condition body => condition.targets ++ body.targets
  | .switch subject cases fallback =>
    subject.targets ++ (targetsOfCases cases ++ targetsOfOption fallback)
  | .breakLoop => []
  | .continueLoop => []
  | .exitProgram => []

/-- The names that several statements assign to. -/
def targetsOfAll : List Stmt → List String
  | [] => []
  | s :: rest => s.targets ++ targetsOfAll rest

/-- The names that the branches of a switch assign to. -/
def targetsOfCases : List (Expr × Stmt) → List String
  | [] => []
  | (condition, body) :: rest => condition.targets ++ (body.targets ++ targetsOfCases rest)

/-- The names that an optional statement assigns to. -/
def targetsOfOption : Option Stmt → List String
  | none => []
  | some s => s.targets

end

mutual

/-- The names of the declarations in a statement that no block of the statement is around, so that
they are made in the scope that the statement is run in. The increment of a `for` loop stands in a
block, but `continue` runs it outside of that. -/
def declared : Stmt → List String
  | .expression _ => []
  | .print _ => []
  | .declare name _ => [name.lexeme]
  | .block _ => []
  | .branch _ thenBranch elseBranch => thenBranch.declared ++ declaredOfOption elseBranch
  | .loop .whileLoop _ body => body.declared
  | .loop .forLoop _ body => body.declared ++ declaredOfIncrement body
  | .switch _ cases fallback => declaredOfCases cases ++ declaredOfOption fallback
  | .breakLoop => []
  | .continueLoop => []
  | .exitProgram => []

/-- The names that the branches of a switch declare around them. -/
def declaredOfCases : List (Expr × Stmt) → List String
  | [] => []
  | (_, body) :: rest => body.declared ++ declaredOfCases rest

/-- The names that an optional statement declares around it. -/
def declaredOfOption : Option Stmt → List String
  | none => []
  | some s => s.declared

/-- The names that the increment of a `for` loop with the given body declares around the loop. -/
def declaredOfIncrement : Stmt → List String
  | .block [_, increment] => increment.declared
  | _ => []

end

mutual

/-- The statement with all statements inside of it. -/
def parts : Stmt → List Stmt
  | .expression value => [.expression value]
  | .print value => [.print value]
  | .declare name initializer => [.declare name initializer]
  | .block statements => .block statements :: partsOfAll statements
  | .branch condition thenBranch elseBranch =>
    .branch condition thenBranch elseBranch :: (thenBranch.parts ++ partsOfOption elseBranch)
  | .loop form condition body => .loop form condition body :: body.parts
  | .switch subject cases fallback =>
    .switch subject cases fallback :: (partsOfCases cases ++ partsOfOption fallback)
  | .breakLoop => [.breakLoop]
  | .continueLoop => [.continueLoop]
  | .exitProgram => [.exitProgram]

/-- Several statements with all statements inside of them. -/
def partsOfAll : List Stmt → List Stmt
  | [] => []
  | s :: rest => s.parts ++ partsOfAll rest

/-- The statements in the branches of a switch. -/
def partsOfCases : List (Expr × Stmt) → List Stmt
  | [] => []
  | (_, body) :: rest => body.parts ++ partsOfCases rest

/-- An optional statement with all statements inside of it. -/
def partsOfOption : Option Stmt → List Stmt
  | none => []
  | some s => s.parts

end

/-- Whether a statement is the declaration of a variable. -/
def isDeclaration : Stmt → Bool
  | .declare _ _ => true
  | _ => false

mutual

/-- Whether a statement that is no declaration has a form in which statements are read. -/
def isRegular : Stmt → Bool
  | .expression _ => true
  | .print _ => true
  | .declare _ _ => false
  | .block statements => areRegular statements
  | .branch _ thenBranch elseBranch => thenBranch.isRegular && isRegularOption elseBranch
  | .loop .whileLoop _ body => body.isRegular
  | .loop .forLoop _ body => isRegularRound body
  | .switch _ cases fallback => areRegularCases cases && isRegularOption fallback
  | .breakLoop => true
  | .continueLoop => true
  | .exitProgram => true

/-- Whether every statement of a list is a declaration or regular. -/
def areRegular : List Stmt → Bool
  | [] => true
  | s :: rest => (s.isDeclaration || s.isRegular) && areRegular rest

/-- Whether the branches of a switch are regular. -/
def areRegularCases : List (Expr × Stmt) → Bool
  | [] => true
  | (_, body) :: rest => body.isRegular && areRegularCases rest

/-- Whether an optional statement is regular. -/
def isRegularOption : Option Stmt → Bool
  | none => true
  | some s => s.isRegular

/-- Whether a statement is what a `for` loop repeats: a block of the body and, if there is one, the
increment, which is an expression. -/
def isRegularRound : Stmt → Bool
  | .block [body] => body.isRegular
  | .block [body, .expression _] => body.isRegular
  | _ => false

end

theorem areRegular_iff {ss : List Stmt} :
    areRegular ss ↔ ∀ s ∈ ss, s.isDeclaration ∨ s.isRegular := by
  induction ss with
  | nil => simp [areRegular]
  | cons s rest ih => simp [areRegular, ih]

/-- A round of a `for` loop is a block of one statement, or of one and an expression. -/
theorem exists_of_isRegularRound {round : Stmt} (h : isRegularRound round) :
    ∃ body, body.isRegular ∧
      (round = .block [body] ∨ ∃ increment, round = .block [body, .expression increment]) := by
  unfold isRegularRound at h
  split at h
  · next body => exact ⟨body, h, .inl rfl⟩
  · next body increment => exact ⟨body, h, .inr ⟨increment, rfl⟩⟩
  · contradiction

theorem isRegular_of_isRegularRound {round : Stmt} (h : isRegularRound round) :
    round.isRegular := by
  obtain ⟨body, hbody, rfl | ⟨increment, rfl⟩⟩ := exists_of_isRegularRound h
  · simp [isRegular, areRegular, hbody]
  · simp [isRegular, areRegular, hbody]

mutual

/-- A regular statement declares nothing around it. -/
theorem declared_eq_nil (s : Stmt) (h : s.isRegular) : s.declared = [] := by
  match s with
  | .expression _ => rfl
  | .print _ => rfl
  | .declare _ _ => contradiction
  | .block _ => rfl
  | .branch _ thenBranch elseBranch =>
    obtain ⟨hthen, helse⟩ := Bool.and_eq_true_iff.mp h
    rw [declared, declared_eq_nil thenBranch hthen, declaredOfOption_eq_nil elseBranch helse]
    rfl
  | .loop .whileLoop _ body => exact declared_eq_nil body h
  | .loop .forLoop _ round =>
    obtain ⟨body, -, rfl | ⟨increment, rfl⟩⟩ := exists_of_isRegularRound h
    · rfl
    · rfl
  | .switch _ cases fallback =>
    obtain ⟨hcases, hfallback⟩ := Bool.and_eq_true_iff.mp h
    rw [declared, declaredOfCases_eq_nil cases hcases, declaredOfOption_eq_nil fallback hfallback]
    rfl
  | .breakLoop => rfl
  | .continueLoop => rfl
  | .exitProgram => rfl

theorem declaredOfCases_eq_nil (cases : List (Expr × Stmt)) (h : areRegularCases cases) :
    declaredOfCases cases = [] := by
  match cases with
  | [] => rfl
  | (_, body) :: rest =>
    obtain ⟨hbody, hrest⟩ := Bool.and_eq_true_iff.mp h
    rw [declaredOfCases, declared_eq_nil body hbody, declaredOfCases_eq_nil rest hrest]
    rfl

theorem declaredOfOption_eq_nil (o : Option Stmt) (h : isRegularOption o) :
    declaredOfOption o = [] := by
  match o with
  | none => rfl
  | some s => exact declared_eq_nil s h

end

/-- What a statement that is a declaration or regular declares around it, it is the declaration of.
-/
theorem eq_declare_of_mem_declared {s : Stmt} {name : String}
    (h : s.isDeclaration ∨ s.isRegular) (hname : name ∈ s.declared) :
    ∃ token initializer, s = .declare token initializer ∧ token.lexeme = name := by
  rcases h with hdeclaration | hregular
  · cases s with
    | declare token initializer =>
      exact ⟨token, initializer, rfl, (List.mem_singleton.mp hname).symm⟩
    | _ => contradiction
  · rw [declared_eq_nil s hregular] at hname
    contradiction

mutual

/-- The parts of a regular statement are declarations or regular. -/
theorem regular_of_mem_parts (s : Stmt) (h : s.isRegular) :
    ∀ t ∈ s.parts, t.isDeclaration ∨ t.isRegular := by
  match s with
  | .expression _ =>
    exact List.forall_mem_singleton.mpr (.inr h)
  | .print _ => exact List.forall_mem_singleton.mpr (.inr h)
  | .declare _ _ => contradiction
  | .block statements =>
    exact List.forall_mem_cons.mpr ⟨.inr h, regular_of_mem_partsOfAll statements h⟩
  | .branch _ thenBranch elseBranch =>
    obtain ⟨hthen, helse⟩ := Bool.and_eq_true_iff.mp h
    exact List.forall_mem_cons.mpr ⟨.inr h, List.forall_mem_append.mpr
      ⟨regular_of_mem_parts thenBranch hthen, regular_of_mem_partsOfOption elseBranch helse⟩⟩
  | .loop .whileLoop _ body =>
    exact List.forall_mem_cons.mpr ⟨.inr h, regular_of_mem_parts body h⟩
  | .loop .forLoop _ round =>
    exact List.forall_mem_cons.mpr
      ⟨.inr h, regular_of_mem_parts round (isRegular_of_isRegularRound h)⟩
  | .switch _ cases fallback =>
    obtain ⟨hcases, hfallback⟩ := Bool.and_eq_true_iff.mp h
    exact List.forall_mem_cons.mpr ⟨.inr h, List.forall_mem_append.mpr
      ⟨regular_of_mem_partsOfCases cases hcases, regular_of_mem_partsOfOption fallback hfallback⟩⟩
  | .breakLoop => exact List.forall_mem_singleton.mpr (.inr h)
  | .continueLoop => exact List.forall_mem_singleton.mpr (.inr h)
  | .exitProgram => exact List.forall_mem_singleton.mpr (.inr h)

theorem regular_of_mem_partsOfAll (ss : List Stmt) (h : areRegular ss) :
    ∀ t ∈ partsOfAll ss, t.isDeclaration ∨ t.isRegular := by
  match ss with
  | [] => simp [partsOfAll]
  | s :: rest =>
    obtain ⟨hs, hrest⟩ := Bool.and_eq_true_iff.mp h
    refine List.forall_mem_append.mpr ⟨?_, regular_of_mem_partsOfAll rest hrest⟩
    rcases Bool.or_eq_true_iff.mp hs with hdeclaration | hregular
    · cases s with
      | declare _ _ => exact List.forall_mem_singleton.mpr (.inl rfl)
      | _ => contradiction
    · exact regular_of_mem_parts s hregular

theorem regular_of_mem_partsOfCases (cases : List (Expr × Stmt)) (h : areRegularCases cases) :
    ∀ t ∈ partsOfCases cases, t.isDeclaration ∨ t.isRegular := by
  match cases with
  | [] => simp [partsOfCases]
  | (_, body) :: rest =>
    obtain ⟨hbody, hrest⟩ := Bool.and_eq_true_iff.mp h
    exact List.forall_mem_append.mpr
      ⟨regular_of_mem_parts body hbody, regular_of_mem_partsOfCases rest hrest⟩

theorem regular_of_mem_partsOfOption (o : Option Stmt) (h : isRegularOption o) :
    ∀ t ∈ partsOfOption o, t.isDeclaration ∨ t.isRegular := by
  match o with
  | none => simp [partsOfOption]
  | some s => exact regular_of_mem_parts s h

end

end Stmt

end Treewalk
