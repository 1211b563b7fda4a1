import Treewalk.Proofs.Parse.Progress
import Treewalk.Proofs.Syntax.Lines

set_option autoImplicit false
set_option relaxedAutoImplicit false

/-!
Readings of tokens on other lines.

Readers do not look at lines. So a reader of the same tokens on other lines leaves and records the
same, on other lines; this holds as well if the two readers have different budgets, as long as both
budgets are large enough for the tokens that are there.
-/

namespace Treewalk

/-- The error at a token on another line. -/
def SyntaxError.mapLines (g : Nat → Nat) : SyntaxError → SyntaxError
  | .unexpected expected got => .unexpected expected (got.mapLine g)
  | .invalidAssignmentTarget equals => .invalidAssignmentTarget (equals.mapLine g)
  | .duplicateDefault keyword => .duplicateDefault (keyword.mapLine g)
  | .unexpectedSwitchBranch got => .unexpectedSwitchBranch (got.mapLine g)
  | .outsideLoop keyword => .outsideLoop (keyword.mapLine g)

section

variable {α β : Type} {g : Nat → Nat}

/-- The reading of tokens on other lines, with a result that is changed by `φ`. -/
def Reading.mapLines (g : Nat → Nat) (φ : α → α) (r : Reading α) : Reading α where
  outcome :=
    match r.outcome with
    | .ok a => .ok (φ a)
    | .error e => .error (e.mapLines g)
  pending := r.pending.map (Token.mapLine g)
  recorded := r.recorded.map (SyntaxError.mapLines g)

namespace Parser

/-- The second reader does on other lines what the first one does with the given tokens. -/
def InStepAt (g : Nat → Nat) (φ : α → α) (finish : Token) (tokens : List Token)
    (p p' : Parser α) : Prop :=
  p' (finish.mapLine g) (tokens.map (Token.mapLine g)) = (p finish tokens).mapLines g φ

/-- The second reader does on other lines what the first one does with at most `k` tokens. -/
def InStep (g : Nat → Nat) (k : Nat) (φ : α → α) (p p' : Parser α) : Prop :=
  ∀ (finish : Token) (tokens : List Token), finish.kind = .eof → tokens.length ≤ k →
    InStepAt g φ finish tokens p p'

variable {k : Nat} {φ : α → α} {ψ : β → β} {finish : Token} {tokens : List Token}

theorem InStepAt.bind {p p' : Parser α} {f f' : α → Parser β}
    (hp : InStepAt g φ finish tokens p p')
    (hf : ∀ a, (p finish tokens).outcome = .ok a →
      InStepAt g ψ finish (p finish tokens).pending (f a) (f' (φ a))) :
    InStepAt g ψ finish tokens (p >>= f) (p' >>= f') := by
  unfold InStepAt at hp ⊢
  rw [bind_apply, bind_apply, hp]
  rcases hr : p finish tokens with ⟨outcome, pending, recorded⟩
  rw [hr] at hf
  cases outcome with
  | error e => rfl
  | ok a =>
    have hnext := hf a rfl
    simp only [InStepAt, Reading.mapLines] at hnext ⊢
    rw [hnext]
    simp

theorem InStep.bind {p p' : Parser α} {f f' : α → Parser β} (hp : InStep g k φ p p')
    (hs : p.Shrinks) (hf : ∀ a, InStep g k ψ (f a) (f' (φ a))) :
    InStep g k ψ (p >>= f) (p' >>= f') := by
  intro finish tokens hfinish hk
  apply (hp finish tokens hfinish hk).bind
  intro a _
  exact hf a _ _ hfinish (Nat.le_trans (hs finish tokens).length_le hk)

/-- Behind a reader that consumes a token there are fewer tokens to be in step on. -/
theorem InStep.bind_consumes {p p' : Parser α} {f f' : α → Parser β} (hp : InStep g k φ p p')
    (hc : p.Consumes) (hf : ∀ a, ∀ j < k, InStep g j ψ (f a) (f' (φ a))) :
    InStep g k ψ (p >>= f) (p' >>= f') := by
  intro finish tokens hfinish hk
  apply (hp finish tokens hfinish hk).bind
  intro a ha
  have hlt := hc.length_lt finish tokens a ha
  exact hf a _ (Nat.lt_of_lt_of_le hlt hk) _ _ hfinish (Nat.le_refl _)

theorem InStep.pure (a : α) : InStep g k φ (Pure.pure a) (Pure.pure (φ a)) :=
  fun _ _ _ _ => rfl

theorem headD_mapLine (finish : Token) (tokens : List Token) :
    (tokens.map (Token.mapLine g)).headD (finish.mapLine g) =
      (tokens.headD finish).mapLine g := by
  cases tokens <;> rfl

theorem InStep.current : InStep g k (Token.mapLine g) Parser.current Parser.current := by
  intro finish tokens _ _
  rw [InStepAt, Parser.current, headD_mapLine]
  rfl

theorem InStep.currentKind : InStep g k id Parser.currentKind Parser.currentKind := by
  intro finish tokens _ _
  rw [InStepAt, Parser.currentKind, headD_mapLine]
  rfl

theorem InStep.advance : InStep g k id Parser.advance Parser.advance := by
  intro finish tokens _ _
  cases tokens <;> rfl

theorem InStep.accept (kinds : List Kind) :
    InStep g k (Option.map (Token.mapLine g)) (accept? kinds) (accept? kinds) := by
  intro finish tokens _ _
  cases tokens with
  | nil => rfl
  | cons t rest =>
    by_cases h : t.kind ∈ kinds
    · simp [InStepAt, accept?, h, Reading.mapLines]
    · simp [InStepAt, accept?, h, Reading.mapLines]

theorem InStep.unexpected (expected : Expected) :
    InStep g k φ (Parser.unexpected expected) (Parser.unexpected expected) := by
  intro finish tokens _ _
  rw [InStepAt, Parser.unexpected, headD_mapLine]
  rfl

theorem InStep.record (e : SyntaxError) :
    InStep g k id (Parser.record e) (Parser.record (e.mapLines g)) :=
  fun _ _ _ _ => rfl

theorem InStep.skipUntil (kinds : List Kind) :
    InStep g k id (Parser.skipUntil kinds) (Parser.skipUntil kinds) := by
  intro finish tokens _ _
  simp only [InStepAt, Parser.skipUntil, List.dropWhile_map]
  rfl

theorem InStep.expect (kind : Kind) (context : String) :
    InStep g k id (Parser.expect kind context) (Parser.expect kind context) := by
  apply (InStep.accept [kind]).bind (Shrinks.accept [kind])
  intro o
  cases o with
  | none => exact .unexpected _
  | some t => exact .pure ()

theorem dropToBoundary_mapLine (previous : Token) (tokens : List Token) :
    dropToBoundary (previous.mapLine g) (tokens.map (Token.mapLine g)) =
      (dropToBoundary previous tokens).map (Token.mapLine g) := by
  induction tokens generalizing previous with
  | nil => rfl
  | cons t rest ih =>
    by_cases h : previous.kind = .semicolon ∨ startsStatement t.kind
    · simp [dropToBoundary, h]
    · simp [dropToBoundary, h, ih]

theorem resume_mapLine (tokens : List Token) :
    resume (tokens.map (Token.mapLine g)) = (resume tokens).map (Token.mapLine g) := by
  cases tokens with
  | nil => rfl
  | cons t rest => exact dropToBoundary_mapLine t rest

theorem InStep.recover {p p' : Parser α} (hp : InStep g k φ p p') :
    InStep g k (Option.map φ) (Parser.recover p) (Parser.recover p') := by
  intro finish tokens hfinish hk
  have hreading : p' (finish.mapLine g) (tokens.map (Token.mapLine g)) =
      (p finish tokens).mapLines g φ := hp finish tokens hfinish hk
  simp only [InStepAt, Parser.recover, hreading]
  rcases p finish tokens with ⟨outcome, pending, recorded⟩
  cases outcome with
  | ok a => rfl
  | error e =>
    simp [Reading.mapLines, resume_mapLine]

theorem Tier.combine_mapLines (t : Tier) (left : Expr) (operator : Token) (right : Expr) :
    t.combine (left.mapLines g) (operator.mapLine g) (right.mapLines g) =
      (t.combine left operator right).mapLines g := by
  cases t <;> rfl

theorem InStep.assignTo (left : Expr) (equals : Token) (value : Expr) :
    InStep g k (Expr.mapLines g) (Parser.assignTo left equals value)
      (Parser.assignTo (left.mapLines g) (equals.mapLine g) (value.mapLines g)) := by
  cases left with
  | reference name => exact .pure _
  | _ => exact (InStep.record _).bind (Shrinks.record _) fun _ => .pure _

theorem InStep.primary {n : Nat}
    (ih : InStep g k (Expr.mapLines g) (expressionAt n .assignment) (expressionAt n .assignment)) :
    InStep g k (Expr.mapLines g) (expressionAt (n + 1) .primary)
      (expressionAt (n + 1) .primary) := by
  apply InStep.current.bind Shrinks.current
  intro token
  simp only [Token.mapLine_kind, Token.mapLine_literal]
  split
  case h_6 => exact InStep.advance.bind Shrinks.advance fun _ => .pure (Expr.reference token)
  case h_7 =>
    apply InStep.advance.bind Shrinks.advance
    intro _
    apply ih.bind ((shrinks_expressionAt n).1 _)
    intro inner
    exact (InStep.expect _ _).bind (Shrinks.expect _ _) fun _ => .pure (Expr.grouping inner)
  case h_8 => exact .unexpected _
  all_goals exact InStep.advance.bind Shrinks.advance fun _ => .pure (Expr.literal _)

theorem inStep_expressionAt (n : Nat) :
    (∀ l, InStep g k (Expr.mapLines g) (expressionAt n l) (expressionAt n l)) ∧
      ∀ t left, InStep g k (Expr.mapLines g) (operations n t left)
        (operations n t (left.mapLines g)) := by
  induction n with
  | zero => exact ⟨fun _ => .unexpected _, fun _ _ => .unexpected _⟩
  | succ n ih =>
    obtain ⟨ihLevel, ihOperations⟩ := ih
    obtain ⟨hLevel, hOperations⟩ := shrinks_expressionAt n
    constructor
    · intro l
      cases l with
      | assignment =>
        apply (ihLevel _).bind (hLevel _)
        intro left
        apply (InStep.accept _).bind (Shrinks.accept _)
        intro o
        cases o with
        | none => exact .pure left
        | some equals =>
          exact (ihLevel _).bind (hLevel _) fun value => .assignTo left equals value
      | tier t => exact (ihLevel _).bind (hLevel _) fun left => ihOperations t left
      | conditional =>
        apply (ihLevel _).bind (hLevel _)
        intro condition
        apply (InStep.accept _).bind (Shrinks.accept _)
        intro o
        cases o with
        | none => exact .pure condition
        | some question =>
          apply (ihLevel _).bind (hLevel _)
          intro ifTrue
          apply (InStep.expect _ _).bind (Shrinks.expect _ _)
          intro _
          exact (ihLevel _).bind (hLevel _) fun ifFalse =>
            .pure (Expr.ternary condition ifTrue ifFalse)
      | unary =>
        apply (InStep.accept _).bind (Shrinks.accept _)
        intro o
        cases o with
        | none => exact ihLevel _
        | some operator =>
          exact (ihLevel _).bind (hLevel _) fun operand => .pure (Expr.unary operator operand)
      | primary => exact .primary (ihLevel _)
    · intro t left
      apply (InStep.accept _).bind (Shrinks.accept _)
      intro o
      cases o with
      | none => exact .pure left
      | some operator =>
        apply (ihLevel _).bind (hLevel _)
        intro right
        have hnext := ihOperations t (t.combine left operator right)
        rw [← Tier.combine_mapLines] at hnext
        exact hnext

theorem InStep.expression :
    InStep g k (Expr.mapLines g) Parser.expression Parser.expression := by
  intro finish tokens hfinish hk
  unfold InStepAt Parser.expression
  rw [List.length_map]
  exact (inStep_expressionAt _).1 .assignment finish tokens hfinish hk

theorem InStep.variableDeclaration :
    InStep g k (Stmt.mapLines g) Parser.variableDeclaration Parser.variableDeclaration := by
  apply (InStep.accept _).bind (Shrinks.accept _)
  intro o
  cases o with
  | none => exact .unexpected _
  | some name =>
    apply (InStep.accept _).bind (Shrinks.accept _)
    intro o
    cases o with
    | none =>
      apply (InStep.expect _ _).bind (Shrinks.expect _ _)
      intro _
      exact .pure (Stmt.declare name (.literal .nil))
    | some equals =>
      apply InStep.expression.bind Shrinks.expression
      intro initializer
      apply (InStep.expect _ _).bind (Shrinks.expect _ _)
      intro _
      exact .pure (Stmt.declare name initializer)

theorem InStep.expressionStatement :
    InStep g k (Stmt.mapLines g) Parser.expressionStatement Parser.expressionStatement := by
  apply InStep.expression.bind Shrinks.expression
  intro value
  exact (InStep.expect _ _).bind (Shrinks.expect _ _) fun _ => .pure (Stmt.expression value)

theorem InStep.printStatement :
    InStep g k (Stmt.mapLines g) Parser.printStatement Parser.printStatement := by
  apply InStep.advance.bind Shrinks.advance
  intro _
  apply InStep.expression.bind Shrinks.expression
  intro value
  exact (InStep.expect _ _).bind (Shrinks.expect _ _) fun _ => .pure (Stmt.print value)

theorem InStep.exitStatement :
    InStep g k (Stmt.mapLines g) Parser.exitStatement Parser.exitStatement := by
  apply InStep.advance.bind Shrinks.advance
  intro _
  exact (InStep.expect _ _).bind (Shrinks.expect _ _) fun _ => .pure Stmt.exitProgram

theorem InStep.checkInLoop (inLoop : Bool) (keyword : Token) :
    InStep g k id (Parser.checkInLoop inLoop keyword)
      (Parser.checkInLoop inLoop (keyword.mapLine g)) := by
  cases inLoop with
  | false => exact .record (.outsideLoop keyword)
  | true => exact .pure ()

/-- What `break` and `continue` have in common. -/
theorem InStep.loopKeyword (inLoop : Bool) (context : String) {s : Stmt} (hs : s.mapLines g = s) :
    let p : Parser Stmt := do
      let keyword ← Parser.current
      Parser.advance
      Parser.checkInLoop inLoop keyword
      Parser.expect .semicolon context
      Pure.pure s
    InStep g k (Stmt.mapLines g) p p := by
  apply InStep.current.bind Shrinks.current
  intro keyword
  apply InStep.advance.bind Shrinks.advance
  intro _
  apply (InStep.checkInLoop inLoop keyword).bind (Shrinks.checkInLoop inLoop keyword)
  intro _
  apply (InStep.expect _ _).bind (Shrinks.expect _ _)
  intro _
  have hpure : InStep g k (Stmt.mapLines g) (Pure.pure s) (Pure.pure (s.mapLines g)) := .pure s
  rwa [hs] at hpure

/-- The head of a `for` loop on other lines. -/
def ForClauses.mapLines (g : Nat → Nat) (c : ForClauses) : ForClauses :=
  ⟨c.initializer.map (Stmt.mapLines g), c.condition.map (Expr.mapLines g),
    c.increment.map (Expr.mapLines g)⟩

/-- The branches of a switch on other lines. -/
def SwitchBody.mapLines (g : Nat → Nat) (b : SwitchBody) : SwitchBody :=
  ⟨Stmt.mapLinesOfCases g b.cases, Stmt.mapLinesOfOption g b.fallback⟩

theorem ForClauses.statement_mapLines (c : ForClauses) (body : Stmt) :
    (c.mapLines g).statement (body.mapLines g) = (c.statement body).mapLines g := by
  obtain ⟨initializer, condition, increment⟩ := c
  cases initializer <;> cases condition <;> cases increment <;> rfl

theorem InStep.forInitializer :
    InStep g k (Option.map (Stmt.mapLines g)) Parser.forInitializer Parser.forInitializer := by
  apply (InStep.accept _).bind (Shrinks.accept _)
  intro o
  cases o with
  | some semicolon => exact .pure none
  | none =>
    apply (InStep.accept _).bind (Shrinks.accept _)
    intro o
    cases o with
    | some keyword =>
      exact InStep.variableDeclaration.bind Consumes.variableDeclaration.shrinks fun s =>
        .pure (some s)
    | none =>
      exact InStep.expressionStatement.bind Consumes.expressionStatement.shrinks fun s =>
        .pure (some s)

theorem InStep.expressionUnless (kind : Kind) :
    InStep g k (Option.map (Expr.mapLines g)) (Parser.expressionUnless kind)
      (Parser.expressionUnless kind) := by
  apply InStep.currentKind.bind Shrinks.currentKind
  intro next
  simp only [id]
  split
  · exact .pure none
  · exact InStep.expression.bind Shrinks.expression fun e => .pure (some e)

theorem InStep.forClauses :
    InStep g k (ForClauses.mapLines g) Parser.forClauses Parser.forClauses := by
  apply InStep.advance.bind Shrinks.advance
  intro _
  apply (InStep.expect _ _).bind (Shrinks.expect _ _)
  intro _
  apply InStep.forInitializer.bind Shrinks.forInitializer
  intro initializer
  apply (InStep.expressionUnless _).bind (Shrinks.expressionUnless _)
  intro condition
  apply (InStep.expect _ _).bind (Shrinks.expect _ _)
  intro _
  apply (InStep.expressionUnless _).bind (Shrinks.expressionUnless _)
  intro increment
  apply (InStep.expect _ _).bind (Shrinks.expect _ _)
  intro _
  exact .pure (ForClauses.mk initializer condition increment)

/-- A keyword and an expression between parentheses, of which the first token is consumed. -/
theorem InStep.head {opens closes : String} {f f' : Expr → Parser β}
    (hf : ∀ e, ∀ j < k, InStep g j ψ (f e) (f' (e.mapLines g))) :
    InStep g k ψ
      (do
        Parser.advance
        Parser.expect .leftParen opens
        let value ← Parser.expression
        Parser.expect .rightParen closes
        f value)
      (do
        Parser.advance
        Parser.expect .leftParen opens
        let value ← Parser.expression
        Parser.expect .rightParen closes
        f' value) := by
  apply InStep.advance.bind Shrinks.advance
  intro _
  apply (InStep.expect _ _).bind_consumes (Consumes.expect _ _)
  intro _ j hj
  apply InStep.expression.bind Shrinks.expression
  intro value
  apply (InStep.expect _ _).bind (Shrinks.expect _ _)
  intro _
  exact hf value j hj

/-- On at most `k` tokens, budgets that are large enough for them make no difference. -/
structure StatementsInStep (g : Nat → Nat) (k : Nat) : Prop where
  statement : ∀ {n m : Nat} (inLoop : Bool), 4 * k + 1 ≤ n → 4 * k + 1 ≤ m →
    InStep g k (Stmt.mapLines g) (Parser.statement n inLoop) (Parser.statement m inLoop)
  declarations : ∀ {n m : Nat} (inLoop : Bool) {ends : List Kind}, .eof ∈ ends →
    4 * k + 3 ≤ n → 4 * k + 3 ≤ m →
    InStep g k (List.map (Stmt.mapLines g)) (Parser.declarations n inLoop ends)
      (Parser.declarations m inLoop ends)
  branches : ∀ {n m : Nat} (inLoop seen : Bool), 4 * k + 3 ≤ n → 4 * k + 3 ≤ m →
    InStep g k (SwitchBody.mapLines g) (Parser.switchBranches n inLoop seen)
      (Parser.switchBranches m inLoop seen)

theorem InStep.block {n m : Nat} (ih : ∀ j < k, StatementsInStep g j) (inLoop : Bool)
    (hn : 4 * k ≤ n) (hm : 4 * k ≤ m) :
    let p (n : Nat) : Parser Stmt := do
      Parser.expect .leftBrace "before block"
      let statements ← Parser.declarations n inLoop [.rightBrace, .eof]
      Parser.expect .rightBrace "after block"
      Pure.pure (.block statements)
    InStep g k (Stmt.mapLines g) (p n) (p m) := by
  apply (InStep.expect _ _).bind_consumes (Consumes.expect _ _)
  intro _ j hj
  apply ((ih j hj).declarations inLoop (by decide) (by omega) (by omega)).bind
    ((shrinks_statement n).2.2.1 _ _)
  intro statements
  apply (InStep.expect _ _).bind (Shrinks.expect _ _)
  intro _
  have hpure : InStep g j (Stmt.mapLines g) (Pure.pure (Stmt.block statements)) _ := .pure _
  rwa [Stmt.mapLines_block] at hpure

theorem inStep_statement {n m : Nat} (ih : ∀ j < k, StatementsInStep g j) (inLoop : Bool)
    (hn : 4 * k + 1 ≤ n) (hm : 4 * k + 1 ≤ m) :
    InStep g k (Stmt.mapLines g) (statement n inLoop) (statement m inLoop) := by
  obtain ⟨n, rfl⟩ : ∃ n', n = n' + 1 := ⟨n - 1, by omega⟩
  obtain ⟨m, rfl⟩ : ∃ m', m = m' + 1 := ⟨m - 1, by omega⟩
  obtain ⟨hstatement, -, -, hbranches⟩ := shrinks_statement n
  apply InStep.currentKind.bind Shrinks.currentKind
  intro next
  simp only [id]
  split
  case h_1 =>
    apply InStep.forClauses.bind_consumes Consumes.forClauses
    intro clauses j hj
    apply ((ih j hj).statement true (by omega) (by omega)).bind (hstatement _).shrinks
    intro body
    rw [ForClauses.statement_mapLines]
    exact .pure _
  case h_2 =>
    apply InStep.head
    intro condition j hj
    apply ((ih j hj).statement inLoop (by omega) (by omega)).bind (hstatement _).shrinks
    intro thenBranch
    apply (InStep.accept _).bind (Shrinks.accept _)
    intro o
    cases o with
    | none => exact .pure (Stmt.branch condition thenBranch none)
    | some word =>
      apply ((ih j hj).statement inLoop (by omega) (by omega)).bind (hstatement _).shrinks
      intro elseBranch
      exact .pure (Stmt.branch condition thenBranch (some elseBranch))
  case h_3 => exact .printStatement
  case h_4 =>
    apply InStep.head
    intro condition j hj
    apply ((ih j hj).statement true (by omega) (by omega)).bind (hstatement _).shrinks
    intro body
    exact .pure (Stmt.loop .whileLoop condition body)
  case h_5 => exact .block ih inLoop (by omega) (by omega)
  case h_6 => exact .exitStatement
  case h_7 => exact .loopKeyword inLoop _ rfl
  case h_8 => exact .loopKeyword inLoop _ rfl
  case h_9 =>
    apply InStep.head
    intro subject j hj
    apply (InStep.expect _ _).bind (Shrinks.expect _ _)
    intro _
    apply ((ih j hj).branches inLoop false (by omega) (by omega)).bind (hbranches _ _)
    intro body
    apply (InStep.expect _ _).bind (Shrinks.expect _ _)
    intro _
    exact .pure (Stmt.switch subject body.cases body.fallback)
  case h_10 => exact .expressionStatement

theorem inStep_declaration {n m : Nat} (ih : ∀ j < k, StatementsInStep g j) (inLoop : Bool)
    (hn : 4 * k + 2 ≤ n) (hm : 4 * k + 2 ≤ m) :
    InStep g k (Option.map (Stmt.mapLines g)) (declaration n inLoop) (declaration m inLoop) := by
  obtain ⟨n, rfl⟩ : ∃ n', n = n' + 1 := ⟨n - 1, by omega⟩
  obtain ⟨m, rfl⟩ : ∃ m', m = m' + 1 := ⟨m - 1, by omega⟩
  apply InStep.recover
  apply (InStep.accept _).bind (Shrinks.accept _)
  intro o
  cases o with
  | some word => exact .variableDeclaration
  | none => exact inStep_statement ih inLoop (by omega) (by omega)

theorem inStep_declarations {n m : Nat} (ih : ∀ j < k, StatementsInStep g j) (inLoop : Bool)
    {ends : List Kind} (hends : .eof ∈ ends) (hn : 4 * k + 3 ≤ n) (hm : 4 * k + 3 ≤ m) :
    InStep g k (List.map (Stmt.mapLines g)) (declarations n inLoop ends)
      (declarations m inLoop ends) := by
  obtain ⟨n, rfl⟩ : ∃ n', n = n' + 1 := ⟨n - 1, by omega⟩
  obtain ⟨m, rfl⟩ : ∃ m', m = m' + 1 := ⟨m - 1, by omega⟩
  intro finish tokens hfinish hk
  apply (InStep.currentKind finish tokens hfinish hk).bind
  intro next hnext
  obtain rfl : (tokens.headD finish).kind = next := Except.ok.inj hnext
  simp only [id]
  split
  · rfl
  · next hmem =>
    have hne : tokens ≠ [] := by
      rintro rfl
      rw [List.headD_nil, hfinish] at hmem
      exact hmem hends
    apply (inStep_declaration ih inLoop (by omega) (by omega) finish tokens hfinish hk).bind
    intro first _
    -- the tokens that the first declaration has left are fewer
    have hlt : (declaration n inLoop finish tokens).pending.length < k :=
      Nat.lt_of_lt_of_le (declaration_length_lt n inLoop hne) hk
    apply ((ih _ hlt).declarations inLoop hends (by omega) (by omega) _ _ hfinish
      (Nat.le_refl _)).bind
    intro rest _
    cases first with
    | none => rfl
    | some s => rfl

/-- After a token is consumed there are fewer tokens to be in step on. -/
theorem InStepAt.advance {f f' : Unit → Parser β} {t : Token} {rest : List Token}
    (hfinish : finish.kind = .eof) (hf : InStep g rest.length ψ (f ()) (f' ())) :
    InStepAt g ψ finish (t :: rest) (Parser.advance >>= f) (Parser.advance >>= f') :=
  (InStep.advance finish (t :: rest) hfinish (Nat.le_refl _)).bind fun _ _ =>
    hf finish rest hfinish (Nat.le_refl _)

theorem inStep_branches {n m : Nat} (ih : ∀ j < k, StatementsInStep g j) (inLoop seen : Bool)
    (hn : 4 * k + 3 ≤ n) (hm : 4 * k + 3 ≤ m) :
    InStep g k (SwitchBody.mapLines g) (switchBranches n inLoop seen)
      (switchBranches m inLoop seen) := by
  obtain ⟨n, rfl⟩ : ∃ n', n = n' + 1 := ⟨n - 1, by omega⟩
  obtain ⟨m, rfl⟩ : ∃ m', m = m' + 1 := ⟨m - 1, by omega⟩
  obtain ⟨-, -, hdeclarations, hbranches⟩ := shrinks_statement n
  intro finish tokens hfinish hk
  apply (InStep.current finish tokens hfinish hk).bind
  intro next hnext
  cases tokens with
  | nil =>
    obtain rfl : finish = next := Except.ok.inj hnext
    simp only [Token.mapLine_kind, hfinish]
    rfl
  | cons t rest =>
    obtain rfl : t = next := Except.ok.inj hnext
    have hlt : rest.length < k := hk
    have ihRest := ih rest.length hlt
    simp only [Token.mapLine_kind]
    split
    case h_1 => rfl
    case h_2 => rfl
    case h_3 =>
      apply InStepAt.advance hfinish
      apply InStep.expression.bind Shrinks.expression
      intro condition
      apply (InStep.expect _ _).bind (Shrinks.expect _ _)
      intro _
      apply (ihRest.declarations inLoop (by decide) (by omega) (by omega)).bind (hdeclarations _ _)
      intro statements
      apply (ihRest.branches inLoop seen (by omega) (by omega)).bind (hbranches _ _)
      intro body
      rw [← Stmt.mapLines_block]
      exact .pure (SwitchBody.mk ((condition, .block statements) :: body.cases) body.fallback)
    case h_4 =>
      apply InStepAt.advance hfinish
      apply (InStep.expect _ _).bind (Shrinks.expect _ _)
      intro _
      apply (ihRest.declarations inLoop (by decide) (by omega) (by omega)).bind (hdeclarations _ _)
      intro statements
      cases seen with
      | true =>
        apply (InStep.record (.duplicateDefault t)).bind (Shrinks.record _)
        intro _
        exact ihRest.branches inLoop true (by omega) (by omega)
      | false =>
        apply (ihRest.branches inLoop true (by omega) (by omega)).bind (hbranches _ _)
        intro body
        rw [← Stmt.mapLines_block]
        exact .pure (SwitchBody.mk body.cases (some (.block statements)))
    case h_5 =>
      apply (InStep.record (.unexpectedSwitchBranch t) finish (t :: rest) hfinish hk).bind
      intro _ _
      apply InStepAt.advance hfinish
      apply (InStep.skipUntil _).bind (Shrinks.skipUntil _)
      intro _
      exact ihRest.branches inLoop seen (by omega) (by omega)

theorem statementsInStep (g : Nat → Nat) (k : Nat) : StatementsInStep g k := by
  induction k using Nat.strongRecOn with
  | ind k ih =>
    refine ⟨?_, ?_, ?_⟩
    · intro n m inLoop hn hm
      exact inStep_statement ih inLoop hn hm
    · intro n m inLoop ends hends hn hm
      exact inStep_declarations ih inLoop hends hn hm
    · intro n m inLoop seen hn hm
      exact inStep_branches ih inLoop seen hn hm

/-- Reading declarations on other lines, with any two budgets that are large enough. -/
theorem declarations_mapLines {n m : Nat} (g : Nat → Nat) (inLoop : Bool) {ends : List Kind}
    (hends : .eof ∈ ends) (hfinish : finish.kind = .eof) (hn : 4 * tokens.length + 3 ≤ n)
    (hm : 4 * tokens.length + 3 ≤ m) :
    declarations m inLoop ends (finish.mapLine g) (tokens.map (Token.mapLine g)) =
      (declarations n inLoop ends finish tokens).mapLines g (List.map (Stmt.mapLines g)) :=
  (statementsInStep g tokens.length).declarations inLoop hends hn hm finish tokens hfinish
    (Nat.le_refl _)

end Parser

end

end Treewalk
