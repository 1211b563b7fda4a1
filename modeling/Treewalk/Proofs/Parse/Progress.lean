import Treewalk.Parse.Program
import Treewalk.Proofs.Parse.Reads

set_option autoImplicit false
set_option relaxedAutoImplicit false

/-!
What readers leave of the tokens.

Every reader leaves a suffix of what it was given. A statement that is read has consumed a token,
and so has a declaration in any case, since an error in it costs at least the next token. This is
what brings the reader of a program to its end.
-/

namespace Treewalk.Parser

variable {α β : Type}

/-- Whatever happens, the reader leaves a suffix of its tokens. -/
def Shrinks (p : Parser α) : Prop :=
  ∀ (finish : Token) (tokens : List Token), (p finish tokens).pending <:+ tokens

/-- A reader that is not stopped leaves fewer tokens than it was given. -/
structure Consumes (p : Parser α) : Prop where
  shrinks : p.Shrinks
  length_lt : ∀ (finish : Token) (tokens : List Token) (a : α),
    (p finish tokens).outcome = .ok a → (p finish tokens).pending.length < tokens.length

theorem bind_error {p : Parser α} {f : α → Parser β} {finish : Token} {tokens : List Token}
    {e : SyntaxError} (h : (p finish tokens).outcome = .error e) :
    (p >>= f) finish tokens =
      ⟨.error e, (p finish tokens).pending, (p finish tokens).recorded⟩ := by
  rw [bind_apply]
  rcases hp : p finish tokens with ⟨outcome, pending, recorded⟩
  rw [hp] at h
  obtain rfl : outcome = .error e := h
  rfl

theorem bind_ok {p : Parser α} {f : α → Parser β} {finish : Token} {tokens : List Token} {a : α}
    (h : (p finish tokens).outcome = .ok a) :
    (p >>= f) finish tokens =
      ⟨(f a finish (p finish tokens).pending).outcome,
        (f a finish (p finish tokens).pending).pending,
        (p finish tokens).recorded ++ (f a finish (p finish tokens).pending).recorded⟩ := by
  rw [bind_apply]
  rcases hp : p finish tokens with ⟨outcome, pending, recorded⟩
  rw [hp] at h
  obtain rfl : outcome = .ok a := h
  rfl

theorem Shrinks.pure (a : α) : (pure a : Parser α).Shrinks := by
  intro finish tokens
  exact List.suffix_refl tokens

theorem Shrinks.bind {p : Parser α} {f : α → Parser β} (hp : p.Shrinks)
    (hf : ∀ a, (f a).Shrinks) : (p >>= f).Shrinks := by
  intro finish tokens
  cases h : (p finish tokens).outcome with
  | error e =>
    rw [bind_error h]
    exact hp finish tokens
  | ok a =>
    rw [bind_ok h]
    exact (hf a finish _).trans (hp finish tokens)

theorem Shrinks.current : current.Shrinks := by
  intro finish tokens
  exact List.suffix_refl tokens

theorem Shrinks.currentKind : currentKind.Shrinks := by
  intro finish tokens
  exact List.suffix_refl tokens

theorem Shrinks.advance : advance.Shrinks := by
  intro finish tokens
  exact List.tail_suffix tokens

theorem Shrinks.accept (kinds : List Kind) : (accept? kinds).Shrinks := by
  intro finish tokens
  cases tokens with
  | nil => exact List.suffix_refl []
  | cons t ts =>
    simp only [accept?]
    split
    · exact List.suffix_cons t ts
    · exact List.suffix_refl (t :: ts)

theorem Shrinks.unexpected (expected : Expected) : (unexpected expected : Parser α).Shrinks := by
  intro finish tokens
  exact List.suffix_refl tokens

theorem Shrinks.record (e : SyntaxError) : (record e).Shrinks := by
  intro finish tokens
  exact List.suffix_refl tokens

theorem Shrinks.skipUntil (kinds : List Kind) : (skipUntil kinds).Shrinks := by
  intro finish tokens
  exact List.dropWhile_suffix _

theorem Shrinks.expect (kind : Kind) (context : String) : (expect kind context).Shrinks := by
  refine (Shrinks.accept [kind]).bind fun o => ?_
  cases o with
  | none => exact Shrinks.unexpected _
  | some t => exact Shrinks.pure ()

theorem dropToBoundary_suffix (previous : Token) (tokens : List Token) :
    dropToBoundary previous tokens <:+ tokens := by
  induction tokens generalizing previous with
  | nil => exact List.suffix_refl []
  | cons t ts ih =>
    rw [dropToBoundary]
    split
    · exact List.suffix_refl (t :: ts)
    · exact (ih t).trans (List.suffix_cons t ts)

theorem resume_suffix (tokens : List Token) : resume tokens <:+ tokens := by
  cases tokens with
  | nil => exact List.suffix_refl []
  | cons t ts => exact (dropToBoundary_suffix t ts).trans (List.suffix_cons t ts)

/-- Going on after an error costs a token if there is one. -/
theorem resume_length_lt {tokens : List Token} (h : tokens ≠ []) :
    (resume tokens).length < tokens.length := by
  cases tokens with
  | nil => exact absurd rfl h
  | cons t ts =>
    have hle := (dropToBoundary_suffix t ts).length_le
    simp only [resume, List.length_cons]
    omega

theorem Shrinks.recover {p : Parser α} (hp : p.Shrinks) : (recover p).Shrinks := by
  intro finish tokens
  have hsuffix := hp finish tokens
  unfold Parser.recover
  rcases h : p finish tokens with ⟨outcome, pending, recorded⟩
  rw [h] at hsuffix
  cases outcome with
  | ok a => exact hsuffix
  | error e => exact (resume_suffix pending).trans hsuffix

theorem Consumes.bind_left {p : Parser α} {f : α → Parser β} (hp : p.Consumes)
    (hf : ∀ a, (f a).Shrinks) : (p >>= f).Consumes := by
  refine ⟨hp.shrinks.bind hf, fun finish tokens b hb => ?_⟩
  cases h : (p finish tokens).outcome with
  | error e =>
    rw [bind_error h] at hb
    cases hb
  | ok a =>
    rw [bind_ok h]
    have hlt := hp.length_lt finish tokens a h
    have hle := (hf a finish (p finish tokens).pending).length_le
    exact Nat.lt_of_le_of_lt hle hlt

theorem Consumes.bind_right {p : Parser α} {f : α → Parser β} (hp : p.Shrinks)
    (hf : ∀ a, (f a).Consumes) : (p >>= f).Consumes := by
  refine ⟨hp.bind fun a => (hf a).shrinks, fun finish tokens b hb => ?_⟩
  cases h : (p finish tokens).outcome with
  | error e =>
    rw [bind_error h] at hb
    cases hb
  | ok a =>
    rw [bind_ok h] at hb ⊢
    have hlt := (hf a).length_lt finish (p finish tokens).pending b hb
    exact Nat.lt_of_lt_of_le hlt (hp finish tokens).length_le

theorem Consumes.unexpected (expected : Expected) : (unexpected expected : Parser α).Consumes := by
  refine ⟨Shrinks.unexpected expected, fun finish tokens a h => ?_⟩
  cases h

theorem Consumes.expect (kind : Kind) (context : String) : (expect kind context).Consumes := by
  refine ⟨Shrinks.expect kind context, fun finish tokens u h => ?_⟩
  cases tokens with
  | nil => cases h
  | cons t ts =>
    by_cases hk : t.kind = kind
    · have hread : (Parser.expect kind context).Reads finish (t :: ts) () ts :=
        reads_expect.mpr ⟨t, hk, rfl⟩
      have he : Parser.expect kind context finish (t :: ts) = ⟨.ok (), ts, []⟩ := hread
      rw [he]
      exact Nat.lt_succ_self ts.length
    · have hnone : (accept? [kind]).Reads finish (t :: ts) none (t :: ts) :=
        .decline (by simpa using hk)
      have he : Parser.expect kind context finish (t :: ts) =
          (Parser.unexpected (.token kind context) : Parser Unit) finish (t :: ts) :=
        hnone.bind_eq _
      rw [he] at h
      cases h

/-- A reader that ends with a fixed token has consumed it. -/
theorem Consumes.expect_pure (kind : Kind) (context : String) (a : α) :
    (do Parser.expect kind context; Pure.pure a : Parser α).Consumes :=
  (Consumes.expect kind context).bind_left fun _ => Shrinks.pure a

theorem Shrinks.assignTo (left : Expr) (equals : Token) (value : Expr) :
    (assignTo left equals value).Shrinks := by
  cases left with
  | reference name => exact Shrinks.pure _
  | _ => exact (Shrinks.record _).bind fun _ => Shrinks.pure _

theorem Shrinks.primary {n : Nat} (ih : (expressionAt n .assignment).Shrinks) :
    (expressionAt (n + 1) .primary).Shrinks := by
  refine Shrinks.current.bind fun token => ?_
  split
  case h_7 =>
    refine Shrinks.advance.bind fun _ => ih.bind fun inner => ?_
    exact (Shrinks.expect _ _).bind fun _ => Shrinks.pure _
  case h_8 => exact Shrinks.unexpected _
  all_goals exact Shrinks.advance.bind fun _ => Shrinks.pure _

theorem shrinks_expressionAt (n : Nat) :
    (∀ l, (expressionAt n l).Shrinks) ∧ ∀ t left, (operations n t left).Shrinks := by
  induction n with
  | zero => exact ⟨fun _ => Shrinks.unexpected _, fun _ _ => Shrinks.unexpected _⟩
  | succ n ih =>
    obtain ⟨ihLevel, ihOperations⟩ := ih
    constructor
    · intro l
      cases l with
      | assignment =>
        refine (ihLevel _).bind fun left => (Shrinks.accept _).bind fun o => ?_
        cases o with
        | none => exact Shrinks.pure _
        | some equals => exact (ihLevel _).bind fun value => Shrinks.assignTo left equals value
      | tier t => exact (ihLevel _).bind fun left => ihOperations t left
      | conditional =>
        refine (ihLevel _).bind fun condition => (Shrinks.accept _).bind fun o => ?_
        cases o with
        | none => exact Shrinks.pure _
        | some question =>
          refine (ihLevel _).bind fun ifTrue => (Shrinks.expect _ _).bind fun _ => ?_
          exact (ihLevel _).bind fun ifFalse => Shrinks.pure _
      | unary =>
        refine (Shrinks.accept _).bind fun o => ?_
        cases o with
        | none => exact ihLevel _
        | some operator => exact (ihLevel _).bind fun operand => Shrinks.pure _
      | primary => exact Shrinks.primary (ihLevel _)
    · intro t left
      refine (Shrinks.accept _).bind fun o => ?_
      cases o with
      | none => exact Shrinks.pure _
      | some operator => exact (ihLevel _).bind fun right => ihOperations _ _

theorem Shrinks.expression : expression.Shrinks := by
  intro finish tokens
  exact (shrinks_expressionAt _).1 .assignment finish tokens

theorem Consumes.variableDeclaration : variableDeclaration.Consumes := by
  refine Consumes.bind_right (Shrinks.accept _) fun o => ?_
  cases o with
  | none => exact Consumes.unexpected _
  | some name =>
    refine Consumes.bind_right (Shrinks.accept _) fun o => ?_
    cases o with
    | none => exact Consumes.expect_pure _ _ _
    | some equals =>
      exact Consumes.bind_right Shrinks.expression fun _ => Consumes.expect_pure _ _ _

theorem Consumes.expressionStatement : expressionStatement.Consumes :=
  Consumes.bind_right Shrinks.expression fun _ => Consumes.expect_pure _ _ _

theorem Consumes.printStatement : printStatement.Consumes :=
  Consumes.bind_right Shrinks.advance fun _ =>
    Consumes.bind_right Shrinks.expression fun _ => Consumes.expect_pure _ _ _

theorem Consumes.exitStatement : exitStatement.Consumes :=
  Consumes.bind_right Shrinks.advance fun _ => Consumes.expect_pure _ _ _

theorem Shrinks.checkInLoop (inLoop : Bool) (keyword : Token) :
    (checkInLoop inLoop keyword).Shrinks := by
  cases inLoop with
  | false => exact Shrinks.record _
  | true => exact Shrinks.pure ()

/-- What `break` and `continue` have in common. -/
theorem Consumes.loopKeyword (inLoop : Bool) (context : String) (s : Stmt) :
    (do
      let keyword ← Parser.current
      advance
      Parser.checkInLoop inLoop keyword
      Parser.expect .semicolon context
      Pure.pure s : Parser Stmt).Consumes := by
  refine Consumes.bind_right Shrinks.current fun keyword => ?_
  refine Consumes.bind_right Shrinks.advance fun _ => ?_
  exact Consumes.bind_right (Shrinks.checkInLoop _ _) fun _ => Consumes.expect_pure _ _ _

theorem Shrinks.expressionUnless (kind : Kind) : (expressionUnless kind).Shrinks := by
  refine Shrinks.currentKind.bind fun next => ?_
  split
  · exact Shrinks.pure none
  · exact Shrinks.expression.bind fun e => Shrinks.pure (some e)

theorem Shrinks.forInitializer : forInitializer.Shrinks := by
  refine (Shrinks.accept _).bind fun o => ?_
  cases o with
  | some semicolon => exact Shrinks.pure none
  | none =>
    refine (Shrinks.accept _).bind fun o => ?_
    cases o with
    | some keyword => exact Consumes.variableDeclaration.shrinks.bind fun _ => Shrinks.pure _
    | none => exact Consumes.expressionStatement.shrinks.bind fun _ => Shrinks.pure _

theorem Consumes.forClauses : forClauses.Consumes := by
  refine Consumes.bind_right Shrinks.advance fun _ => ?_
  refine Consumes.bind_right (Shrinks.expect _ _) fun _ => ?_
  refine Consumes.bind_right Shrinks.forInitializer fun initializer => ?_
  refine Consumes.bind_right (Shrinks.expressionUnless _) fun condition => ?_
  refine Consumes.bind_right (Shrinks.expect _ _) fun _ => ?_
  exact Consumes.bind_right (Shrinks.expressionUnless _) fun increment =>
    Consumes.expect_pure _ _ _

/-- A keyword, an expression between parentheses, and what follows. -/
theorem Consumes.head {opens closes : String} {f : Expr → Parser β} (hf : ∀ e, (f e).Shrinks) :
    (do
      advance
      Parser.expect .leftParen opens
      let value ← Parser.expression
      Parser.expect .rightParen closes
      f value : Parser β).Consumes := by
  refine Consumes.bind_right Shrinks.advance fun _ => ?_
  refine Consumes.bind_left (Consumes.expect _ _) fun _ => ?_
  refine Shrinks.expression.bind fun value => ?_
  exact (Shrinks.expect _ _).bind fun _ => hf value

theorem Consumes.statement_succ {n : Nat} (ih : ∀ inLoop, (statement n inLoop).Consumes)
    (ihDeclarations : ∀ inLoop ends, (declarations n inLoop ends).Shrinks)
    (ihBranches : ∀ inLoop seen, (switchBranches n inLoop seen).Shrinks) (inLoop : Bool) :
    (statement (n + 1) inLoop).Consumes := by
  refine Consumes.bind_right Shrinks.currentKind fun next => ?_
  split
  case h_1 =>
    refine Consumes.bind_left Consumes.forClauses fun clauses => ?_
    exact (ih true).shrinks.bind fun body => Shrinks.pure _
  case h_2 =>
    refine Consumes.head fun condition => (ih inLoop).shrinks.bind fun thenBranch => ?_
    refine (Shrinks.accept _).bind fun o => ?_
    cases o with
    | none => exact Shrinks.pure _
    | some _ => exact (ih inLoop).shrinks.bind fun elseBranch => Shrinks.pure _
  case h_3 => exact Consumes.printStatement
  case h_4 => exact Consumes.head fun condition => (ih true).shrinks.bind fun body => Shrinks.pure _
  case h_5 =>
    refine Consumes.bind_right (Shrinks.expect _ _) fun _ => ?_
    exact Consumes.bind_right (ihDeclarations _ _) fun statements => Consumes.expect_pure _ _ _
  case h_6 => exact Consumes.exitStatement
  case h_7 => exact Consumes.loopKeyword inLoop _ _
  case h_8 => exact Consumes.loopKeyword inLoop _ _
  case h_9 =>
    refine Consumes.head fun subject => (Shrinks.expect _ _).bind fun _ => ?_
    refine (ihBranches _ _).bind fun body => ?_
    exact (Shrinks.expect _ _).bind fun _ => Shrinks.pure _
  case h_10 => exact Consumes.expressionStatement

theorem Shrinks.switchBranches_succ {n : Nat}
    (ihDeclarations : ∀ inLoop ends, (declarations n inLoop ends).Shrinks)
    (ih : ∀ inLoop seen, (switchBranches n inLoop seen).Shrinks) (inLoop seen : Bool) :
    (switchBranches (n + 1) inLoop seen).Shrinks := by
  refine Shrinks.current.bind fun next => ?_
  split
  case h_1 => exact Shrinks.pure _
  case h_2 => exact Shrinks.pure _
  case h_3 =>
    refine Shrinks.advance.bind fun _ => Shrinks.expression.bind fun condition => ?_
    refine (Shrinks.expect _ _).bind fun _ => (ihDeclarations _ _).bind fun statements => ?_
    exact (ih _ _).bind fun body => Shrinks.pure _
  case h_4 =>
    refine Shrinks.advance.bind fun _ => (Shrinks.expect _ _).bind fun _ => ?_
    refine (ihDeclarations _ _).bind fun statements => ?_
    split
    · exact (Shrinks.record _).bind fun _ => ih _ _
    · exact (ih _ _).bind fun body => Shrinks.pure _
  case h_5 =>
    refine (Shrinks.record _).bind fun _ => Shrinks.advance.bind fun _ => ?_
    exact (Shrinks.skipUntil _).bind fun _ => ih _ _

theorem shrinks_statement (n : Nat) :
    (∀ inLoop, (statement n inLoop).Consumes) ∧ (∀ inLoop, (declaration n inLoop).Shrinks) ∧
      (∀ inLoop ends, (declarations n inLoop ends).Shrinks) ∧
      ∀ inLoop seen, (switchBranches n inLoop seen).Shrinks := by
  induction n with
  | zero =>
    exact ⟨fun _ => Consumes.unexpected _, fun _ => (Shrinks.unexpected _).recover,
      fun _ _ => Shrinks.pure _, fun _ _ => Shrinks.pure _⟩
  | succ n ih =>
    obtain ⟨ihStatement, ihDeclaration, ihDeclarations, ihBranches⟩ := ih
    refine ⟨Consumes.statement_succ ihStatement ihDeclarations ihBranches, fun inLoop => ?_,
      fun inLoop ends => ?_, Shrinks.switchBranches_succ ihDeclarations ihBranches⟩
    · refine Shrinks.recover ((Shrinks.accept _).bind fun o => ?_)
      cases o with
      | some _ => exact Consumes.variableDeclaration.shrinks
      | none => exact (ihStatement inLoop).shrinks
    · refine Shrinks.currentKind.bind fun next => ?_
      split
      · exact Shrinks.pure _
      · refine (ihDeclaration inLoop).bind fun first => ?_
        exact (ihDeclarations inLoop ends).bind fun more => Shrinks.pure _

theorem recover_length_lt {p : Parser α} (hp : p.Consumes) {finish : Token} {tokens : List Token}
    (h : tokens ≠ []) : (recover p finish tokens).pending.length < tokens.length := by
  have hsuffix := hp.shrinks finish tokens
  have hlt := hp.length_lt finish tokens
  unfold recover
  rcases he : p finish tokens with ⟨outcome, pending, recorded⟩
  rw [he] at hsuffix hlt
  cases outcome with
  | ok a => exact hlt a rfl
  | error e =>
    cases pending with
    | nil => exact List.length_pos_iff.mpr h
    | cons t ts =>
      have hresume : (resume (t :: ts)).length < (t :: ts).length :=
        resume_length_lt (List.cons_ne_nil t ts)
      exact Nat.lt_of_lt_of_le hresume hsuffix.length_le

/-- A declaration takes a token off the tokens, whether it can be read or not. -/
theorem declaration_length_lt (n : Nat) (inLoop : Bool) {finish : Token} {tokens : List Token}
    (h : tokens ≠ []) : (declaration n inLoop finish tokens).pending.length < tokens.length := by
  cases n with
  | zero => exact recover_length_lt (Consumes.unexpected _) h
  | succ n =>
    refine recover_length_lt (Consumes.bind_right (Shrinks.accept _) fun o => ?_) h
    cases o with
    | some _ => exact Consumes.variableDeclaration
    | none => exact (shrinks_statement n).1 inLoop

end Treewalk.Parser
