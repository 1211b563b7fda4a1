import Treewalk.Proofs.Parse.Level
import Treewalk.Proofs.Parse.Progress

set_option autoImplicit false
set_option relaxedAutoImplicit false

/-!
How deep the calls of readers go.

A budget bounds how deep readers call each other. Here the readers are given without one: `unfold`
says what each reader does, with any other readers in place of those that it calls, and `nested`
unfolds the calls to some depth, with any readers at all below. If the depth is large enough for
the tokens that are there, what stands below is never called, so that the readings agree with those
under a budget.
-/

namespace Treewalk.Parser

/-- The readers of expressions, which call each other. -/
structure ExpressionReaders where
  expressionAt : Level → Parser Expr
  operations : Tier → Expr → Parser Expr

/-- What the readers of expressions do, if those that they call are the given ones. -/
def ExpressionReaders.unfold (readers : ExpressionReaders) : ExpressionReaders where
  expressionAt
    | .assignment => do
      let left ← readers.expressionAt (.tier .disjunction)
      match ← accept? [.equal] with
      | some equals => do
        let value ← readers.expressionAt .assignment
        assignTo left equals value
      | none => pure left
    | .tier t => do
      let left ← readers.expressionAt t.operand
      readers.operations t left
    | .conditional => do
      let condition ← readers.expressionAt (.tier .equality)
      match ← accept? [.question] with
      | some _ => do
        let ifTrue ← readers.expressionAt .conditional
        expect .colon "after then branch of conditional expression"
        let ifFalse ← readers.expressionAt .conditional
        pure (.ternary condition ifTrue ifFalse)
      | none => pure condition
    | .unary => do
      match ← accept? [.bang, .minus] with
      | some operator => do
        let operand ← readers.expressionAt .unary
        pure (.unary operator operand)
      | none => readers.expressionAt .primary
    | .primary => do
      let token ← current
      match token.kind with
      | .falseWord => do
        advance
        pure (.literal (.boolean false))
      | .trueWord => do
        advance
        pure (.literal (.boolean true))
      | .nilWord => do
        advance
        pure (.literal .nil)
      | .number => do
        advance
        pure (.literal (token.literal.getD .nil))
      | .string => do
        advance
        pure (.literal (token.literal.getD .nil))
      | .identifier => do
        advance
        pure (.reference token)
      | .leftParen => do
        advance
        let inner ← readers.expressionAt .assignment
        expect .rightParen "after expression"
        pure (.grouping inner)
      | _ => unexpected .expression
  operations t left := do
    match ← accept? t.operators with
    | some operator => do
      let right ← readers.expressionAt t.operand
      readers.operations t (t.combine left operator right)
    | none => pure left

/-- Calls of the readers of expressions that are nested up to a depth, with the given readers below. -/
def ExpressionReaders.nested (below : ExpressionReaders) : Nat → ExpressionReaders
  | 0 => below
  | depth + 1 => (below.nested depth).unfold

section Agreement

variable {α β : Type} {finish : Token} {tokens : List Token}

/-- The readers do the same with the tokens that are there. -/
def Agrees (finish : Token) (tokens : List Token) (p p' : Parser α) : Prop :=
  p finish tokens = p' finish tokens

theorem Agrees.refl (p : Parser α) : Agrees finish tokens p p := rfl

theorem Agrees.bind {p p' : Parser α} {f f' : α → Parser β} (hp : Agrees finish tokens p p')
    (hs : p'.Shrinks) (hf : ∀ a rest, rest <:+ tokens → Agrees finish rest (f a) (f' a)) :
    Agrees finish tokens (p >>= f) (p' >>= f') := by
  have hrest := hs finish tokens
  have hfirst : p finish tokens = p' finish tokens := hp
  rw [Agrees, bind_apply, bind_apply, hfirst]
  rcases hp' : p' finish tokens with ⟨outcome, pending, recorded⟩
  rw [hp'] at hrest
  cases outcome with
  | error e => rfl
  | ok a =>
    have hnext : f a finish pending = f' a finish pending := hf a pending hrest
    simp only [hnext]

/-- The next token, if it is of one of the kinds, and what follows. -/
theorem Agrees.accept {kinds : List Kind} {f f' : Option Token → Parser β}
    (hsome : ∀ t rest, tokens = t :: rest → Agrees finish rest (f (some t)) (f' (some t)))
    (hnone : Agrees finish tokens (f none) (f' none)) :
    Agrees finish tokens (accept? kinds >>= f) (accept? kinds >>= f') := by
  by_cases h : NextNot kinds tokens
  · have hdecline : (accept? kinds).Reads finish tokens none tokens := .decline h
    rw [Agrees, hdecline.bind_eq, hdecline.bind_eq]
    exact hnone
  · cases tokens with
    | nil => exact absurd (nextNot_nil kinds) h
    | cons t rest =>
      have hkind : t.kind ∈ kinds := by simpa using h
      have haccept : (accept? kinds).Reads finish (t :: rest) (some t) rest := .accept hkind rest
      rw [Agrees, haccept.bind_eq, haccept.bind_eq]
      exact hsome t rest rfl

/-- A token is taken off the tokens. -/
theorem Agrees.advance {t : Token} {f f' : Unit → Parser β} {rest : List Token}
    (h : Agrees finish rest (f ()) (f' ())) :
    Agrees finish (t :: rest) (Parser.advance >>= f) (Parser.advance >>= f') := by
  have hadvance : Parser.advance.Reads finish (t :: rest) () rest := .advance t rest
  rw [Agrees, hadvance.bind_eq, hadvance.bind_eq]
  exact h

theorem Agrees.current {f f' : Token → Parser β}
    (h : ∀ t, tokens.headD finish = t → Agrees finish tokens (f t) (f' t)) :
    Agrees finish tokens (Parser.current >>= f) (Parser.current >>= f') := by
  have hcurrent : Parser.current.Reads finish tokens (tokens.headD finish) tokens := .current tokens
  rw [Agrees, hcurrent.bind_eq, hcurrent.bind_eq]
  exact h _ rfl

theorem Agrees.expect {kind : Kind} {context : String} {f f' : Unit → Parser β}
    (h : ∀ rest, rest <:+ tokens → Agrees finish rest (f ()) (f' ())) :
    Agrees finish tokens (Parser.expect kind context >>= f) (Parser.expect kind context >>= f') :=
  (Agrees.refl _).bind (Shrinks.expect kind context) fun _ => h

theorem Agrees.currentKind {f f' : Kind → Parser β}
    (h : ∀ k, (tokens.headD finish).kind = k → Agrees finish tokens (f k) (f' k)) :
    Agrees finish tokens (Parser.currentKind >>= f) (Parser.currentKind >>= f') :=
  Agrees.current fun t ht => h t.kind (congrArg Token.kind ht)

/-- Where the first reading takes a token, the second has to agree on fewer tokens only. -/
theorem Agrees.bind_of_lt {p p' : Parser α} {f f' : α → Parser β}
    (hp : Agrees finish tokens p p')
    (hlt : ∀ a, (p' finish tokens).outcome = .ok a →
      (p' finish tokens).pending.length < tokens.length)
    (hf : ∀ a rest, rest.length < tokens.length → Agrees finish rest (f a) (f' a)) :
    Agrees finish tokens (p >>= f) (p' >>= f') := by
  have hfirst : p finish tokens = p' finish tokens := hp
  rw [Agrees, bind_apply, hfirst, ← bind_apply]
  cases h : (p' finish tokens).outcome with
  | error e => rw [bind_error h, bind_error h]
  | ok a =>
    have hnext : f a finish (p' finish tokens).pending = f' a finish (p' finish tokens).pending :=
      hf a _ (hlt a h)
    rw [bind_ok h, bind_ok h, hnext]

theorem Agrees.consume {p : Parser α} {f f' : α → Parser β} (hp : p.Consumes)
    (hf : ∀ a rest, rest.length < tokens.length → Agrees finish rest (f a) (f' a)) :
    Agrees finish tokens (p >>= f) (p >>= f') :=
  (Agrees.refl p).bind_of_lt (hp.length_lt finish tokens) hf

/-- A keyword and an expression between parentheses, and what follows. -/
theorem Agrees.head {opens closes : String} {f f' : Expr → Parser β}
    (hf : ∀ e rest, rest.length < tokens.length → Agrees finish rest (f e) (f' e)) :
    Agrees finish tokens
      (do
        Parser.advance
        Parser.expect .leftParen opens
        let value ← Parser.expression
        Parser.expect .rightParen closes
        f value)
      (do
        Parser.advance
        Parser.expect .leftParen opens
        let value ← Parser.expression
        Parser.expect .rightParen closes
        f' value) := by
  refine (Agrees.refl _).bind Shrinks.advance fun _ rest hrest => ?_
  refine .consume (Consumes.expect _ _) fun _ rest' hrest' => ?_
  refine (Agrees.refl _).bind Shrinks.expression fun value rest'' hrest'' => ?_
  refine .expect fun left hleft => hf value left ?_
  have hle := hrest.length_le
  have hle'' := (hleft.trans hrest'').length_le
  omega

theorem Agrees.recover {p p' : Parser α} (h : Agrees finish tokens p p') :
    Agrees finish tokens (Parser.recover p) (Parser.recover p') := by
  have hread : p finish tokens = p' finish tokens := h
  rw [Agrees, Parser.recover, Parser.recover, hread]

end Agreement

/-- A parenthesised expression is the only primary expression with a call in it. -/
theorem Agrees.primary {finish : Token} {tokens : List Token} {readers readers' : ExpressionReaders}
    (hfinish : finish.kind = .eof) (hs : (readers'.expressionAt .assignment).Shrinks)
    (h : ∀ t rest, tokens = t :: rest →
      Agrees finish rest (readers.expressionAt .assignment) (readers'.expressionAt .assignment)) :
    Agrees finish tokens (readers.unfold.expressionAt .primary)
      (readers'.unfold.expressionAt .primary) := by
  refine .current fun token htoken => ?_
  split
  case h_7 hkind =>
    cases tokens with
    | nil =>
      obtain rfl : finish = token := htoken
      rw [hfinish] at hkind
      contradiction
    | cons t rest =>
      apply Agrees.advance
      exact (h t rest rfl).bind hs fun inner left hleft => Agrees.refl _
  all_goals rfl

/-- What one round of a switch reads. -/
inductive Branch where
  | case (condition : Expr) (body : Stmt)
  | fallback (body : Stmt)
  | dropped

/-- Whether the branch is the default. -/
def Branch.isFallback : Branch → Bool
  | .case _ _ => false
  | .fallback _ => true
  | .dropped => false

/-- The branches of a switch with one more in front of them. -/
def Branch.addTo : Branch → SwitchBody → SwitchBody
  | .case condition body, rest => ⟨(condition, body) :: rest.cases, rest.fallback⟩
  | .fallback body, rest => ⟨rest.cases, some body⟩
  | .dropped, rest => rest

/-- One round of a switch, at the token that is next: reads a branch, with `statements` for what
stands behind its colon, or skips what begins none. -/
def switchRound (statements : Parser (List Stmt)) (hasDefault : Bool) (next : Token) :
    Parser Branch :=
  match next.kind with
  | .caseWord => do
    advance
    let condition ← expression
    expect .colon "after case value"
    let body ← statements
    pure (.case condition (.block body))
  | .defaultWord => do
    advance
    expect .colon "after 'default'"
    let body ← statements
    if hasDefault then do
      record (.duplicateDefault next)
      pure .dropped
    else pure (.fallback (.block body))
  | _ => do
    record (.unexpectedSwitchBranch next)
    advance
    skipUntil branchEnds
    pure .dropped

/-- The readers of statements, which call each other. -/
structure StatementReaders where
  declaration : Bool → Parser (Option Stmt)
  declarations : Bool → List Kind → Parser (List Stmt)
  statement : Bool → Parser Stmt
  switchBranches : Bool → Bool → Parser SwitchBody

/-- What the readers of statements do, if those that they call are the given ones. -/
def StatementReaders.unfold (readers : StatementReaders) : StatementReaders where
  declaration inLoop := recover do
    match ← accept? [.varWord] with
    | some _ => variableDeclaration
    | none => readers.statement inLoop
  declarations inLoop ends := do
    let next ← currentKind
    if next ∈ ends then pure []
    else do
      let first ← readers.declaration inLoop
      let rest ← readers.declarations inLoop ends
      pure (first.toList ++ rest)
  statement inLoop := do
    let next ← currentKind
    match next with
    | .forWord => do
      let clauses ← forClauses
      let body ← readers.statement true
      pure (clauses.statement body)
    | .ifWord => do
      advance
      expect .leftParen "after 'if'"
      let condition ← expression
      expect .rightParen "after if condition"
      let thenBranch ← readers.statement inLoop
      match ← accept? [.elseWord] with
      | some _ => do
        let elseBranch ← readers.statement inLoop
        pure (.branch condition thenBranch (some elseBranch))
      | none => pure (.branch condition thenBranch none)
    | .printWord => printStatement
    | .whileWord => do
      advance
      expect .leftParen "after 'while'"
      let condition ← expression
      expect .rightParen "after condition"
      let body ← readers.statement true
      pure (.loop .whileLoop condition body)
    | .leftBrace => do
      expect .leftBrace "before block"
      let statements ← readers.declarations inLoop [.rightBrace, .eof]
      expect .rightBrace "after block"
      pure (.block statements)
    | .exitWord => exitStatement
    | .breakWord => breakStatement inLoop
    | .continueWord => continueStatement inLoop
    | .switchWord => do
      advance
      expect .leftParen "after 'switch'"
      let subject ← expression
      expect .rightParen "after switch subject"
      expect .leftBrace "before switch body"
      let body ← readers.switchBranches inLoop false
      expect .rightBrace "after switch body"
      pure (.switch subject body.cases body.fallback)
    | _ => expressionStatement
  switchBranches inLoop hasDefault := do
    let next ← current
    if next.kind ∈ [.rightBrace, .eof] then pure ⟨[], none⟩
    else do
      let branch ← switchRound (readers.declarations inLoop branchEnds) hasDefault next
      let rest ← readers.switchBranches inLoop (hasDefault || branch.isFallback)
      pure (branch.addTo rest)

/-- Calls of the readers of statements that are nested up to a depth, with the given readers below. -/
def StatementReaders.nested (below : StatementReaders) : Nat → StatementReaders
  | 0 => below
  | depth + 1 => (below.nested depth).unfold

/-- The readers of statements with a budget. -/
def StatementReaders.within (n : Nat) : StatementReaders :=
  ⟨Parser.declaration n, Parser.declarations n, Parser.statement n, Parser.switchBranches n⟩

theorem statement_succ (n : Nat) (inLoop : Bool) :
    statement (n + 1) inLoop = (StatementReaders.within n).unfold.statement inLoop := rfl

instance : LawfulMonad Parser :=
  LawfulMonad.mk' Parser
    (by
      intro α p
      funext finish tokens
      show (p >>= fun a => pure a) finish tokens = p finish tokens
      rw [bind_apply]
      rcases p finish tokens with ⟨outcome, pending, recorded⟩
      cases outcome with
      | error e => rfl
      | ok a => simp [pure_apply])
    (by
      intro α β a f
      funext finish tokens
      simp [bind_apply, pure_apply])
    (by
      intro α β γ p f g
      funext finish tokens
      simp only [bind_apply]
      rcases p finish tokens with ⟨outcome, pending, recorded⟩
      cases outcome with
      | error e => rfl
      | ok a =>
        rcases hf : f a finish pending with ⟨outcome', pending', recorded'⟩
        cases outcome' with
        | error e => simp only [hf]
        | ok b => simp only [hf, List.append_assoc])

/-- Reading the branches of a switch goes round by round. -/
theorem switchBranches_succ (n : Nat) (inLoop hasDefault : Bool) :
    switchBranches (n + 1) inLoop hasDefault =
      (StatementReaders.within n).unfold.switchBranches inLoop hasDefault := by
  refine bind_congr fun next => ?_
  by_cases hend : next.kind ∈ [.rightBrace, .eof]
  · rw [if_pos hend]
    have hkinds : next.kind = .rightBrace ∨ next.kind = .eof := by simpa using hend
    rcases hkinds with hkind | hkind
    · simp only [hkind]
    · simp only [hkind]
  · rw [if_neg hend]
    unfold switchRound
    split
    case h_1 hkind => simp [hkind] at hend
    case h_2 hkind => simp [hkind] at hend
    case h_3 hkind => simp [hkind, Branch.isFallback, Branch.addTo, StatementReaders.within]
    case h_4 hkind =>
      cases hasDefault with
      | true => simp [hkind, Branch.isFallback, Branch.addTo, StatementReaders.within]
      | false => simp [hkind, Branch.isFallback, Branch.addTo, StatementReaders.within]
    case h_5 hcase hdefault =>
      simp [Branch.isFallback, Branch.addTo, StatementReaders.within]

/-- A round of a switch asks for statements behind its first token only. -/
theorem Agrees.switchRound {finish t : Token} {tokens : List Token}
    {statements statements' : Parser (List Stmt)} {hasDefault : Bool} (hs : statements'.Shrinks)
    (h : ∀ rest, rest <:+ tokens → Agrees finish rest statements statements') :
    Agrees finish (t :: tokens) (Parser.switchRound statements hasDefault t)
      (Parser.switchRound statements' hasDefault t) := by
  fun_cases Parser.switchRound statements hasDefault t
  case case1 hkind =>
    simp only [Parser.switchRound, hkind]
    refine .advance ((Agrees.refl _).bind Shrinks.expression fun condition rest hrest => ?_)
    refine .expect fun rest' hrest' => ?_
    exact (h rest' (hrest'.trans hrest)).bind hs fun _ _ _ => .refl _
  case case2 hkind =>
    simp only [Parser.switchRound, hkind]
    refine .advance (.expect fun rest hrest => ?_)
    exact (h rest hrest).bind hs fun _ _ _ => .refl _
  case case3 hcase hdefault =>
    simp only [Parser.switchRound]
    rfl

section Depth

variable {finish : Token} {below : StatementReaders} {k : Nat}

end Depth

end Treewalk.Parser
