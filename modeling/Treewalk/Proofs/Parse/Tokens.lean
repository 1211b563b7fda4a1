import Treewalk.Proofs.Parse.Progress
import Treewalk.Proofs.Syntax.Expressions

set_option autoImplicit false
set_option relaxedAutoImplicit false

/-!
Readers make up no tokens.

Whatever holds of all tokens that a reader is given, the end-of-input token among them, holds of the
tokens that it leaves, of those that its errors are at, and of the operators and names in what it
reads. These are moreover of the kinds that belong where they are.
-/

namespace Treewalk

variable {α β : Type} {Q : Token → Prop}

/-- All tokens that are left, or that errors are at, have the property `Q`, and a result has `P`. -/
structure Reading.KeepsTo (Q : Token → Prop) (P : α → Prop) (r : Reading α) : Prop where
  pending : ∀ t ∈ r.pending, Q t
  result : ∀ a, r.outcome = .ok a → P a
  stopped : ∀ e, r.outcome = .error e → Q e.token
  recorded : ∀ e ∈ r.recorded, Q e.token

namespace Parser

/-- From tokens with the property `Q`, the reader lets out no others. -/
def KeepsTo (Q : Token → Prop) (P : α → Prop) (p : Parser α) : Prop :=
  ∀ (finish : Token) (tokens : List Token), Q finish → (∀ t ∈ tokens, Q t) →
    (p finish tokens).KeepsTo Q P

variable {P : α → Prop} {R : β → Prop}

theorem headD_of_forall {finish : Token} {tokens : List Token} (hfinish : Q finish)
    (htokens : ∀ t ∈ tokens, Q t) : Q (tokens.headD finish) := by
  cases tokens with
  | nil => exact hfinish
  | cons t rest => exact htokens t List.mem_cons_self

/-- A reader that is neither stopped nor records anything. -/
theorem KeepsTo.of_ok {p : Parser α} (hp : p.Shrinks)
    (h : ∀ finish tokens, Q finish → (∀ t ∈ tokens, Q t) →
      ∃ a, (p finish tokens).outcome = .ok a ∧ (p finish tokens).recorded = [] ∧ P a) :
    KeepsTo Q P p := by
  intro finish tokens hfinish htokens
  obtain ⟨a, hok, hrecorded, ha⟩ := h finish tokens hfinish htokens
  refine ⟨fun t ht => htokens t ((hp finish tokens).subset ht), fun b hb => ?_, fun e he => ?_, ?_⟩
  · rw [hok] at hb
    obtain rfl := Except.ok.inj hb
    exact ha
  · rw [hok] at he
    contradiction
  · simp [hrecorded]

theorem KeepsTo.pure {a : α} (h : P a) : KeepsTo Q P (Pure.pure a) :=
  .of_ok (Shrinks.pure a) fun _ _ _ _ => ⟨a, rfl, rfl, h⟩

theorem KeepsTo.current : KeepsTo Q Q current :=
  .of_ok Shrinks.current fun _ _ hfinish htokens =>
    ⟨_, rfl, rfl, headD_of_forall hfinish htokens⟩

theorem KeepsTo.currentKind : KeepsTo Q (fun _ => True) currentKind :=
  .of_ok Shrinks.currentKind fun _ _ _ _ => ⟨_, rfl, rfl, trivial⟩

theorem KeepsTo.advance : KeepsTo Q (fun _ => True) advance :=
  .of_ok Shrinks.advance fun _ _ _ _ => ⟨_, rfl, rfl, trivial⟩

theorem KeepsTo.skipUntil (kinds : List Kind) : KeepsTo Q (fun _ => True) (skipUntil kinds) :=
  .of_ok (Shrinks.skipUntil kinds) fun _ _ _ _ => ⟨_, rfl, rfl, trivial⟩

theorem KeepsTo.accept (kinds : List Kind) :
    KeepsTo Q (fun o => ∀ t ∈ o, t.kind ∈ kinds ∧ Q t) (accept? kinds) := by
  refine .of_ok (Shrinks.accept kinds) fun finish tokens _ htokens => ?_
  cases tokens with
  | nil => exact ⟨none, rfl, rfl, by simp⟩
  | cons t rest =>
    by_cases hkind : t.kind ∈ kinds
    · have ht : Q t := htokens t List.mem_cons_self
      exact ⟨some t, by simp [accept?, hkind], by simp [accept?, hkind], by simp [hkind, ht]⟩
    · exact ⟨none, by simp [accept?, hkind], by simp [accept?, hkind], by simp⟩

theorem KeepsTo.unexpected (expected : Expected) :
    KeepsTo Q P (Parser.unexpected expected : Parser α) := by
  intro finish tokens hfinish htokens
  refine ⟨htokens, fun a ha => ?_, fun e he => ?_, by simp [Parser.unexpected]⟩
  · contradiction
  · obtain rfl := Except.error.inj he
    exact headD_of_forall hfinish htokens

theorem KeepsTo.record {e : SyntaxError} (h : Q e.token) :
    KeepsTo Q (fun _ => True) (record e) := by
  intro finish tokens _ htokens
  refine ⟨htokens, fun _ _ => trivial, fun e' he' => ?_, ?_⟩
  · contradiction
  · exact List.forall_mem_singleton.mpr h

theorem KeepsTo.bind {p : Parser α} {f : α → Parser β} (hp : KeepsTo Q P p)
    (hf : ∀ a, P a → KeepsTo Q R (f a)) : KeepsTo Q R (p >>= f) := by
  intro finish tokens hfinish htokens
  have hfirst := hp finish tokens hfinish htokens
  cases h : (p finish tokens).outcome with
  | error e =>
    rw [bind_error h]
    refine ⟨hfirst.pending, fun b hb => ?_, fun e' he' => ?_, hfirst.recorded⟩
    · contradiction
    · obtain rfl := Except.error.inj he'
      exact hfirst.stopped e h
  | ok a =>
    have hnext := hf a (hfirst.result a h) finish _ hfinish hfirst.pending
    rw [bind_ok h]
    exact ⟨hnext.pending, hnext.result, hnext.stopped,
      List.forall_mem_append.mpr ⟨hfirst.recorded, hnext.recorded⟩⟩

theorem KeepsTo.recover {p : Parser α} (hp : KeepsTo Q P p) :
    KeepsTo Q (fun o => ∀ a ∈ o, P a) (Parser.recover p) := by
  intro finish tokens hfinish htokens
  have hr := hp finish tokens hfinish htokens
  unfold Parser.recover
  rcases h : p finish tokens with ⟨outcome, pending, recorded⟩
  rw [h] at hr
  cases outcome with
  | ok a =>
    refine ⟨hr.pending, fun o ho => ?_, fun e he => ?_, hr.recorded⟩
    · obtain rfl := Except.ok.inj ho
      simpa using hr.result a rfl
    · contradiction
  | error e =>
    refine ⟨fun t ht => hr.pending t ((resume_suffix pending).subset ht), fun o ho => ?_,
      fun e' he' => ?_, ?_⟩
    · obtain rfl := Except.ok.inj ho
      simp
    · contradiction
    · exact List.forall_mem_append.mpr
        ⟨hr.recorded, List.forall_mem_singleton.mpr (hr.stopped e rfl)⟩

theorem KeepsTo.expect (kind : Kind) (context : String) :
    KeepsTo Q (fun _ => True) (expect kind context) := by
  refine (KeepsTo.accept [kind]).bind fun o _ => ?_
  cases o with
  | none => exact .unexpected _
  | some t => exact .pure trivial

/-- A fixed token and then the result. -/
theorem KeepsTo.expect_pure (kind : Kind) (context : String) {a : α} (h : P a) :
    KeepsTo Q P (do Parser.expect kind context; Pure.pure a : Parser α) :=
  (KeepsTo.expect kind context).bind fun _ _ => .pure h

/-! ### Expressions -/

theorem KeepsTo.assignTo {left value : Expr} {equals : Token} (hleft : left.AllFit Q)
    (hequals : Q equals) (hvalue : value.AllFit Q) :
    KeepsTo Q (Expr.AllFit Q) (assignTo left equals value) := by
  cases left with
  | reference name =>
    obtain ⟨hkind, hname⟩ := hleft.self name rfl
    exact .pure (Expr.allFit_assign.mpr ⟨.of_some rfl hkind hname, hvalue⟩)
  | _ => exact (KeepsTo.record hequals).bind fun _ _ => .pure hleft

/-- The operators of a tier belong into the expressions that they make. -/
theorem Tier.allFit_combine {t : Tier} {left right : Expr} {operator : Token}
    (hleft : left.AllFit Q) (hkind : operator.kind ∈ t.operators) (hoperator : Q operator)
    (hright : right.AllFit Q) : (t.combine left operator right).AllFit Q := by
  have hbinary : ∀ k ∈ Tier.operators .equality ++ Tier.operators .comparison ++
      Tier.operators .term ++ Tier.operators .factor, k ∈ Kind.binaryOperators := by
    decide
  have hlogical : ∀ k ∈ Tier.operators .disjunction ++ Tier.operators .conjunction,
      k ∈ Kind.logicalOperators := by
    decide
  cases t with
  | disjunction | conjunction =>
    have hmem := hlogical operator.kind (by simp [hkind])
    exact Expr.allFit_logical.mpr
      ⟨.of_some rfl hmem hoperator, hleft, hright⟩
  | equality | comparison | term | factor =>
    have hmem := hbinary operator.kind (by simp [hkind])
    exact Expr.allFit_binary.mpr
      ⟨.of_some rfl hmem hoperator, hleft, hright⟩

theorem KeepsTo.primary {n : Nat} (ih : KeepsTo Q (Expr.AllFit Q) (expressionAt n .assignment)) :
    KeepsTo Q (Expr.AllFit Q) (expressionAt (n + 1) .primary) := by
  refine KeepsTo.current.bind fun token htoken => ?_
  split
  case h_6 hkind =>
    have hfits : (Expr.reference token).Fits Q :=
      .of_some rfl (by simp [Expr.kinds, hkind]) htoken
    exact KeepsTo.advance.bind fun _ _ => .pure (Expr.allFit_reference.mpr hfits)
  case h_7 =>
    refine KeepsTo.advance.bind fun _ _ => ih.bind fun inner hinner => ?_
    exact .expect_pure _ _ (Expr.allFit_grouping.mpr hinner)
  case h_8 => exact .unexpected _
  all_goals exact KeepsTo.advance.bind fun _ _ => .pure (Expr.allFit_literal _)

theorem keepsTo_expressionAt (n : Nat) :
    (∀ l, KeepsTo Q (Expr.AllFit Q) (expressionAt n l)) ∧
      ∀ t left, left.AllFit Q → KeepsTo Q (Expr.AllFit Q) (operations n t left) := by
  induction n with
  | zero => exact ⟨fun _ => .unexpected _, fun _ _ _ => .unexpected _⟩
  | succ n ih =>
    obtain ⟨ihLevel, ihOperations⟩ := ih
    refine ⟨fun l => ?_, fun t left hleft => ?_⟩
    · cases l with
      | assignment =>
        refine (ihLevel _).bind fun left hleft => (KeepsTo.accept _).bind fun o ho => ?_
        cases o with
        | none => exact .pure hleft
        | some equals =>
          have hequals : Q equals := (ho equals rfl).2
          exact (ihLevel _).bind fun value hvalue => .assignTo hleft hequals hvalue
      | tier t => exact (ihLevel _).bind fun left hleft => ihOperations t left hleft
      | conditional =>
        refine (ihLevel _).bind fun condition hcondition => (KeepsTo.accept _).bind fun o _ => ?_
        cases o with
        | none => exact .pure hcondition
        | some question =>
          refine (ihLevel _).bind fun ifTrue htrue => (KeepsTo.expect _ _).bind fun _ _ => ?_
          exact (ihLevel _).bind fun ifFalse hfalse =>
            .pure (Expr.allFit_ternary.mpr ⟨hcondition, htrue, hfalse⟩)
      | unary =>
        refine (KeepsTo.accept _).bind fun o ho => ?_
        cases o with
        | none => exact ihLevel _
        | some operator =>
          obtain ⟨hkind, hoperator⟩ := ho operator rfl
          exact (ihLevel _).bind fun operand hoperand => .pure (Expr.allFit_unary.mpr
            ⟨.of_some rfl hkind hoperator, hoperand⟩)
      | primary => exact .primary (ihLevel _)
    · refine (KeepsTo.accept _).bind fun o ho => ?_
      cases o with
      | none => exact .pure hleft
      | some operator =>
        obtain ⟨hkind, hoperator⟩ := ho operator rfl
        exact (ihLevel _).bind fun right hright =>
          ihOperations _ _ (Tier.allFit_combine hleft hkind hoperator hright)

theorem KeepsTo.expression : KeepsTo Q (Expr.AllFit Q) expression :=
  fun finish tokens => (keepsTo_expressionAt _).1 .assignment finish tokens

/-! ### Statements -/

theorem KeepsTo.expressionStatement : KeepsTo Q (Stmt.AllFit Q) expressionStatement :=
  KeepsTo.expression.bind fun _ hvalue =>
    .expect_pure _ _ (List.forall_mem_singleton.mpr hvalue)

theorem KeepsTo.variableDeclaration : KeepsTo Q (Stmt.AllFit Q) variableDeclaration := by
  refine (KeepsTo.accept _).bind fun o _ => ?_
  cases o with
  | none => exact .unexpected _
  | some name =>
    refine (KeepsTo.accept _).bind fun o _ => ?_
    cases o with
    | none => exact .expect_pure _ _ (List.forall_mem_singleton.mpr (Expr.allFit_literal _))
    | some equals =>
      exact KeepsTo.expression.bind fun initializer hinitializer =>
        .expect_pure _ _ (List.forall_mem_singleton.mpr hinitializer)

/-- What `break` and `continue` have in common. -/
theorem KeepsTo.loopKeyword (inLoop : Bool) (context : String) {a : α} (h : P a) :
    KeepsTo Q P (do
      let keyword ← Parser.current
      Parser.advance
      checkInLoop inLoop keyword
      Parser.expect .semicolon context
      Pure.pure a) := by
  refine KeepsTo.current.bind fun keyword hkeyword => KeepsTo.advance.bind fun _ _ => ?_
  have hcheck : KeepsTo Q (fun _ => True) (checkInLoop inLoop keyword) := by
    cases inLoop with
    | true => exact .pure trivial
    | false => exact .record hkeyword
  exact hcheck.bind fun _ _ => .expect_pure _ _ h

/-- The expressions between the parentheses of a `for` loop fit. -/
structure ForClauses.AllFit (Q : Token → Prop) (c : ForClauses) : Prop where
  initializer : ∀ s ∈ c.initializer, s.AllFit Q
  condition : ∀ e ∈ c.condition, e.AllFit Q
  increment : ∀ e ∈ c.increment, e.AllFit Q

theorem KeepsTo.forInitializer :
    KeepsTo Q (fun o => ∀ s ∈ o, Stmt.AllFit Q s) forInitializer := by
  refine (KeepsTo.accept _).bind fun o _ => ?_
  cases o with
  | some semicolon => exact .pure (by simp)
  | none =>
    refine (KeepsTo.accept _).bind fun o _ => ?_
    cases o with
    | some keyword =>
      exact KeepsTo.variableDeclaration.bind fun s hs => .pure (by simpa using hs)
    | none => exact KeepsTo.expressionStatement.bind fun s hs => .pure (by simpa using hs)

theorem KeepsTo.expressionUnless (kind : Kind) :
    KeepsTo Q (fun o => ∀ e ∈ o, Expr.AllFit Q e) (expressionUnless kind) := by
  refine KeepsTo.currentKind.bind fun next _ => ?_
  split
  · exact .pure (by simp)
  · exact KeepsTo.expression.bind fun e he => .pure (by simpa using he)

theorem KeepsTo.forClauses : KeepsTo Q (ForClauses.AllFit Q) forClauses := by
  refine KeepsTo.advance.bind fun _ _ => (KeepsTo.expect _ _).bind fun _ _ => ?_
  refine KeepsTo.forInitializer.bind fun initializer hinitializer => ?_
  refine (KeepsTo.expressionUnless _).bind fun condition hcondition => ?_
  refine (KeepsTo.expect _ _).bind fun _ _ => ?_
  exact (KeepsTo.expressionUnless _).bind fun increment hincrement =>
    .expect_pure _ _ ⟨hinitializer, hcondition, hincrement⟩

theorem ForClauses.AllFit.loop {c : ForClauses} (h : c.AllFit Q) {body : Stmt}
    (hbody : body.AllFit Q) : (c.loop body).AllFit Q := by
  have hcondition : (c.condition.getD (.literal (.boolean true))).AllFit Q := by
    cases hc : c.condition with
    | none => exact Expr.allFit_literal _
    | some e => exact h.condition e hc
  refine List.forall_mem_cons.mpr ⟨hcondition, List.forall_mem_append.mpr ⟨hbody, ?_⟩⟩
  cases hi : c.increment with
  | none => simp [Stmt.expressionsOfAll]
  | some e => simpa [Stmt.expressionsOfAll, Stmt.expressions] using h.increment e hi

theorem ForClauses.AllFit.statement {c : ForClauses} (h : c.AllFit Q) {body : Stmt}
    (hbody : body.AllFit Q) : (c.statement body).AllFit Q := by
  unfold ForClauses.statement
  split
  · next initializer hsome =>
    refine List.forall_mem_append.mpr ⟨h.initializer initializer hsome, ?_⟩
    exact List.forall_mem_append.mpr ⟨h.loop hbody, by simp [Stmt.expressionsOfAll]⟩
  · exact h.loop hbody

/-- A keyword, an expression between parentheses, and what follows. -/
theorem KeepsTo.head {opens closes : String} {f : Expr → Parser β}
    (hf : ∀ e, e.AllFit Q → KeepsTo Q R (f e)) :
    KeepsTo Q R (do
      Parser.advance
      Parser.expect .leftParen opens
      let value ← Parser.expression
      Parser.expect .rightParen closes
      f value) := by
  refine KeepsTo.advance.bind fun _ _ => (KeepsTo.expect _ _).bind fun _ _ => ?_
  refine KeepsTo.expression.bind fun value hvalue => ?_
  exact (KeepsTo.expect _ _).bind fun _ _ => hf value hvalue

/-- The expressions of a list of statements fit. -/
abbrev AllFitIn (Q : Token → Prop) (ss : List Stmt) : Prop :=
  ∀ e ∈ Stmt.expressionsOfAll ss, e.AllFit Q

/-- The expressions of the branches of a switch fit. -/
structure SwitchBody.AllFit (Q : Token → Prop) (body : SwitchBody) : Prop where
  cases : ∀ e ∈ Stmt.expressionsOfCases body.cases, e.AllFit Q
  fallback : ∀ e ∈ Stmt.expressionsOfOption body.fallback, e.AllFit Q

theorem SwitchBody.AllFit.empty : SwitchBody.AllFit Q ⟨[], none⟩ :=
  ⟨by simp [Stmt.expressionsOfCases], by simp [Stmt.expressionsOfOption]⟩

theorem keepsTo_statement_succ {n : Nat}
    (ih : ∀ inLoop, KeepsTo Q (Stmt.AllFit Q) (statement n inLoop))
    (ihDeclarations : ∀ inLoop ends, KeepsTo Q (AllFitIn Q) (declarations n inLoop ends))
    (ihBranches : ∀ inLoop seen, KeepsTo Q (SwitchBody.AllFit Q) (switchBranches n inLoop seen))
    (inLoop : Bool) : KeepsTo Q (Stmt.AllFit Q) (statement (n + 1) inLoop) := by
  have hnone : ∀ s ∈ [Stmt.breakLoop, .continueLoop, .exitProgram], s.AllFit Q := by
    simp [Stmt.AllFit, Stmt.expressions]
  refine KeepsTo.currentKind.bind fun next _ => ?_
  split
  case h_1 =>
    exact KeepsTo.forClauses.bind fun clauses hclauses => (ih true).bind fun body hbody =>
      .pure (hclauses.statement hbody)
  case h_2 =>
    refine .head fun condition hcondition => (ih inLoop).bind fun thenBranch hthen => ?_
    refine (KeepsTo.accept _).bind fun o _ => ?_
    cases o with
    | none =>
      refine .pure (List.forall_mem_cons.mpr ⟨hcondition, List.forall_mem_append.mpr ⟨hthen, ?_⟩⟩)
      simp [Stmt.expressionsOfOption]
    | some _ =>
      exact (ih inLoop).bind fun elseBranch helse => .pure
        (List.forall_mem_cons.mpr ⟨hcondition, List.forall_mem_append.mpr ⟨hthen, helse⟩⟩)
  case h_3 =>
    exact KeepsTo.advance.bind fun _ _ => KeepsTo.expression.bind fun value hvalue =>
      .expect_pure _ _ (List.forall_mem_singleton.mpr hvalue)
  case h_4 =>
    exact .head fun condition hcondition => (ih true).bind fun body hbody =>
      .pure (List.forall_mem_cons.mpr ⟨hcondition, hbody⟩)
  case h_5 =>
    exact (KeepsTo.expect _ _).bind fun _ _ => (ihDeclarations _ _).bind fun statements hss =>
      .expect_pure _ _ hss
  case h_6 => exact KeepsTo.advance.bind fun _ _ => .expect_pure _ _ (hnone _ (by simp))
  case h_7 => exact .loopKeyword inLoop _ (hnone _ (by simp))
  case h_8 => exact .loopKeyword inLoop _ (hnone _ (by simp))
  case h_9 =>
    refine .head fun subject hsubject => (KeepsTo.expect _ _).bind fun _ _ => ?_
    refine (ihBranches _ _).bind fun body hbody => .expect_pure _ _ ?_
    exact List.forall_mem_cons.mpr
      ⟨hsubject, List.forall_mem_append.mpr ⟨hbody.cases, hbody.fallback⟩⟩
  case h_10 => exact .expressionStatement

theorem keepsTo_declarations_succ {n : Nat}
    (ihDeclaration : ∀ inLoop,
      KeepsTo Q (fun o => ∀ s ∈ o, Stmt.AllFit Q s) (declaration n inLoop))
    (ih : ∀ inLoop ends, KeepsTo Q (AllFitIn Q) (declarations n inLoop ends))
    (inLoop : Bool) (ends : List Kind) :
    KeepsTo Q (AllFitIn Q) (declarations (n + 1) inLoop ends) := by
  refine KeepsTo.currentKind.bind fun next _ => ?_
  split
  · exact .pure (by simp [AllFitIn, Stmt.expressionsOfAll])
  · refine (ihDeclaration inLoop).bind fun first hfirst => ?_
    refine (ih inLoop ends).bind fun more hmore => .pure ?_
    rw [AllFitIn, Stmt.expressionsOfAll_append]
    refine List.forall_mem_append.mpr ⟨?_, hmore⟩
    cases first with
    | none => simp [Stmt.expressionsOfAll]
    | some s =>
      exact List.forall_mem_append.mpr ⟨hfirst s rfl, by simp [Stmt.expressionsOfAll]⟩

theorem keepsTo_switchBranches_succ {n : Nat}
    (ihDeclarations : ∀ inLoop ends, KeepsTo Q (AllFitIn Q) (declarations n inLoop ends))
    (ih : ∀ inLoop seen, KeepsTo Q (SwitchBody.AllFit Q) (switchBranches n inLoop seen))
    (inLoop seen : Bool) :
    KeepsTo Q (SwitchBody.AllFit Q) (switchBranches (n + 1) inLoop seen) := by
  refine KeepsTo.current.bind fun next hnext => ?_
  split
  case h_1 => exact .pure .empty
  case h_2 => exact .pure .empty
  case h_3 =>
    refine KeepsTo.advance.bind fun _ _ => KeepsTo.expression.bind fun condition hcondition => ?_
    refine (KeepsTo.expect _ _).bind fun _ _ => ?_
    refine (ihDeclarations _ _).bind fun statements hstatements => ?_
    refine (ih _ _).bind fun body hbody => .pure ⟨?_, hbody.fallback⟩
    exact List.forall_mem_cons.mpr
      ⟨hcondition, List.forall_mem_append.mpr ⟨hstatements, hbody.cases⟩⟩
  case h_4 =>
    refine KeepsTo.advance.bind fun _ _ => (KeepsTo.expect _ _).bind fun _ _ => ?_
    refine (ihDeclarations _ _).bind fun statements hstatements => ?_
    split
    · exact (KeepsTo.record hnext).bind fun _ _ => ih _ _
    · exact (ih _ _).bind fun body hbody => .pure ⟨hbody.cases, hstatements⟩
  case h_5 =>
    refine (KeepsTo.record hnext).bind fun _ _ => KeepsTo.advance.bind fun _ _ => ?_
    exact (KeepsTo.skipUntil _).bind fun _ _ => ih _ _

theorem keepsTo_statement (n : Nat) :
    (∀ inLoop, KeepsTo Q (Stmt.AllFit Q) (statement n inLoop)) ∧
    (∀ inLoop, KeepsTo Q (fun o => ∀ s ∈ o, Stmt.AllFit Q s) (declaration n inLoop)) ∧
    (∀ inLoop ends, KeepsTo Q (AllFitIn Q) (declarations n inLoop ends)) ∧
    ∀ inLoop seen, KeepsTo Q (SwitchBody.AllFit Q) (switchBranches n inLoop seen) := by
  induction n with
  | zero =>
    refine ⟨fun _ => .unexpected _, fun _ => .recover (.unexpected _), fun _ _ => .pure ?_,
      fun _ _ => .pure .empty⟩
    simp [AllFitIn, Stmt.expressionsOfAll]
  | succ n ih =>
    obtain ⟨ihStatement, ihDeclaration, ihDeclarations, ihBranches⟩ := ih
    refine ⟨keepsTo_statement_succ ihStatement ihDeclarations ihBranches, fun inLoop => ?_,
      keepsTo_declarations_succ ihDeclaration ihDeclarations,
      keepsTo_switchBranches_succ ihDeclarations ihBranches⟩
    refine .recover ((KeepsTo.accept _).bind fun o _ => ?_)
    cases o with
    | some _ => exact .variableDeclaration
    | none => exact ihStatement inLoop

theorem KeepsTo.program : KeepsTo Q (AllFitIn Q) program :=
  fun finish tokens => (keepsTo_statement _).2.2.1 false [.eof] finish tokens

theorem KeepsTo.run {p : Parser α} (hp : KeepsTo Q P p) {tokens : List Token}
    (hfinish : Q (finishOf tokens)) (htokens : ∀ t ∈ tokens, Q t) : (p.run tokens).KeepsTo Q P := by
  apply hp _ _ hfinish
  intro t ht
  exact htokens t ((List.takeWhile_prefix _).subset ht)

end Parser

open Treewalk.Parser

variable {tokens : List Token}

/-- The tokens in what is read as a program are among those that are given. -/
theorem allFit_parseProgram (hfinish : Q (finishOf tokens)) (htokens : ∀ t ∈ tokens, Q t) :
    ∀ e ∈ (Entry.program (parseProgram tokens).program).expressions, e.AllFit Q := by
  have hreading : (program.run tokens).KeepsTo Q (AllFitIn Q) :=
    KeepsTo.program.run hfinish htokens
  cases hrun : (program.run tokens).outcome with
  | ok statements =>
    have hprogram : (parseProgram tokens).program = statements := by
      simp only [parseProgram, hrun]
    rw [hprogram]
    exact hreading.result statements hrun
  | error stop =>
    have hprogram : (parseProgram tokens).program = [] := by
      simp only [parseProgram, hrun]
    simp [hprogram, Entry.expressions, Stmt.expressionsOfAll]

/-- The tokens in what is read as an entry are among those that are given. -/
theorem allFit_parseEntry (hfinish : Q (finishOf tokens)) (htokens : ∀ t ∈ tokens, Q t) :
    ∀ e ∈ (parseEntry tokens).entry.expressions, e.AllFit Q := by
  unfold parseEntry
  split
  · next e hrun =>
    have hreading : (expression.run tokens).KeepsTo Q (Expr.AllFit Q) :=
      KeepsTo.expression.run hfinish htokens
    rw [hrun] at hreading
    exact List.forall_mem_singleton.mpr (hreading.result e rfl)
  · exact allFit_parseProgram hfinish htokens

end Treewalk
