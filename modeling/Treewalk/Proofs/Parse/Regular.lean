import Treewalk.Proofs.Parse.Progress
import Treewalk.Proofs.Syntax.Shape

set_option autoImplicit false
set_option relaxedAutoImplicit false

/-!
The form of the statements that are read.

Whatever the tokens are, and whether or not there are reports about them, the statements that come
out are regular.
-/

namespace Treewalk.Parser

variable {α β : Type}

/-- Every result of the reader has the property. -/
def Yields (P : α → Prop) (p : Parser α) : Prop :=
  ∀ (finish : Token) (tokens : List Token) (a : α), (p finish tokens).outcome = .ok a → P a

variable {P : α → Prop} {Q : β → Prop}

theorem Yields.pure {a : α} (h : P a) : Yields P (Pure.pure a) := by
  intro finish tokens b hb
  obtain rfl := Except.ok.inj hb
  exact h

theorem Yields.bind {p : Parser α} {f : α → Parser β} (hp : Yields P p)
    (hf : ∀ a, P a → Yields Q (f a)) : Yields Q (p >>= f) := by
  intro finish tokens b hb
  cases h : (p finish tokens).outcome with
  | error e =>
    rw [bind_error h] at hb
    contradiction
  | ok a =>
    rw [bind_ok h] at hb
    exact hf a (hp finish tokens a h) finish _ b hb

/-- Reads with `p` and goes on without a look at the result. -/
theorem Yields.after (p : Parser α) {f : α → Parser β} (hf : ∀ a, Yields Q (f a)) :
    Yields Q (p >>= f) := by
  have hp : Yields (fun _ => True) p := fun _ _ _ _ => trivial
  exact hp.bind fun a _ => hf a

theorem Yields.unexpected (expected : Expected) :
    Yields P (Parser.unexpected expected : Parser α) := by
  intro finish tokens a h
  contradiction

theorem Yields.recover {p : Parser α} (hp : Yields P p) :
    Yields (fun o => ∀ a ∈ o, P a) (Parser.recover p) := by
  intro finish tokens o ho
  rcases h : p finish tokens with ⟨outcome, pending, recorded⟩
  simp only [Parser.recover, h] at ho
  cases outcome with
  | error e =>
    obtain rfl := Except.ok.inj ho
    simp
  | ok a =>
    obtain rfl := Except.ok.inj ho
    have hok : (p finish tokens).outcome = .ok a := by rw [h]
    simpa using hp finish tokens a hok

/-- A semicolon and then the result. -/
theorem Yields.expect_pure (kind : Kind) (context : String) {a : α} (h : P a) :
    Yields P (do expect kind context; Pure.pure a : Parser α) :=
  .after _ fun _ => .pure h

theorem yields_variableDeclaration :
    Yields (fun s => s.isDeclaration = true) variableDeclaration := by
  refine .after _ fun o => ?_
  cases o with
  | none => exact .unexpected _
  | some name =>
    refine .after _ fun o => ?_
    cases o with
    | none => exact .expect_pure _ _ rfl
    | some equals => exact .after _ fun initializer => .expect_pure _ _ rfl

theorem yields_expressionStatement : Yields (fun s => ∃ e, s = .expression e) expressionStatement :=
  .after _ fun value => .expect_pure _ _ ⟨value, rfl⟩

theorem yields_forInitializer :
    Yields (fun o => ∀ s ∈ o, s.isDeclaration ∨ s.isRegular) forInitializer := by
  refine .after _ fun o => ?_
  cases o with
  | some semicolon => exact .pure (by simp)
  | none =>
    refine .after _ fun o => ?_
    cases o with
    | some keyword =>
      exact yields_variableDeclaration.bind fun s hs => .pure (by simp [hs])
    | none =>
      refine yields_expressionStatement.bind fun s hs => .pure ?_
      obtain ⟨e, rfl⟩ := hs
      simp [Stmt.isRegular]

theorem yields_forClauses :
    Yields (fun c => ∀ s ∈ c.initializer, s.isDeclaration ∨ s.isRegular) forClauses := by
  refine .after _ fun _ => .after _ fun _ => ?_
  refine yields_forInitializer.bind fun initializer hinitializer => ?_
  refine .after _ fun condition => .after _ fun _ => ?_
  exact .after _ fun increment => .expect_pure _ _ hinitializer

theorem ForClauses.isRegular_loop {clauses : ForClauses} {body : Stmt} (h : body.isRegular) :
    (clauses.loop body).isRegular := by
  cases hincrement : clauses.increment with
  | none => simp [ForClauses.loop, Stmt.isRegular, Stmt.isRegularRound, hincrement, h]
  | some e => simp [ForClauses.loop, Stmt.isRegular, Stmt.isRegularRound, hincrement, h]

theorem ForClauses.isRegular_statement {clauses : ForClauses} {body : Stmt}
    (hi : ∀ s ∈ clauses.initializer, s.isDeclaration ∨ s.isRegular) (hb : body.isRegular) :
    (clauses.statement body).isRegular := by
  have hloop : (clauses.loop body).isRegular := isRegular_loop hb
  unfold ForClauses.statement
  split
  · next initializer hsome =>
    have hinitializer := hi initializer hsome
    simp [Stmt.isRegular, Stmt.areRegular, hinitializer, hloop]
  · exact hloop

/-- A keyword, an expression between parentheses, and what follows. -/
theorem Yields.head {opens closes : String} {f : Expr → Parser β} (hf : ∀ e, Yields Q (f e)) :
    Yields Q (do
      advance
      expect .leftParen opens
      let value ← expression
      expect .rightParen closes
      f value) :=
  .after _ fun _ => .after _ fun _ => .after _ fun value => .after _ fun _ => hf value

/-- What `break` and `continue` have in common. -/
theorem Yields.loopKeyword (inLoop : Bool) (context : String) {a : α} (h : P a) :
    Yields P (do
      let keyword ← current
      advance
      checkInLoop inLoop keyword
      expect .semicolon context
      Pure.pure a) :=
  .after _ fun _ => .after _ fun _ => .after _ fun _ => .expect_pure _ _ h

/-- The branches of a switch that are read are regular. -/
def SwitchBody.IsRegular (body : SwitchBody) : Prop :=
  Stmt.areRegularCases body.cases ∧ Stmt.isRegularOption body.fallback

theorem yields_statement_succ {n : Nat}
    (ih : ∀ inLoop, Yields (fun s => s.isRegular = true) (statement n inLoop))
    (ihDeclarations : ∀ inLoop ends,
      Yields (fun ss => Stmt.areRegular ss = true) (declarations n inLoop ends))
    (ihBranches : ∀ inLoop seen, Yields SwitchBody.IsRegular (switchBranches n inLoop seen))
    (inLoop : Bool) : Yields (fun s => s.isRegular = true) (statement (n + 1) inLoop) := by
  refine .after _ fun next => ?_
  split
  case h_1 =>
    refine yields_forClauses.bind fun clauses hclauses => ?_
    exact (ih true).bind fun body hbody => .pure (ForClauses.isRegular_statement hclauses hbody)
  case h_2 =>
    refine .head fun condition => (ih inLoop).bind fun thenBranch hthen => .after _ fun o => ?_
    cases o with
    | none => exact .pure (by simp [Stmt.isRegular, Stmt.isRegularOption, hthen])
    | some _ =>
      exact (ih inLoop).bind fun elseBranch helse =>
        .pure (by simp [Stmt.isRegular, Stmt.isRegularOption, hthen, helse])
  case h_3 => exact .after _ fun _ => .after _ fun value => .expect_pure _ _ rfl
  case h_4 => exact .head fun condition => (ih true).bind fun body hbody => .pure hbody
  case h_5 =>
    exact .after _ fun _ => (ihDeclarations _ _).bind fun statements hstatements =>
      .expect_pure _ _ hstatements
  case h_6 => exact .after _ fun _ => .expect_pure _ _ rfl
  case h_7 => exact .loopKeyword inLoop _ rfl
  case h_8 => exact .loopKeyword inLoop _ rfl
  case h_9 =>
    refine .head fun subject => .after _ fun _ => (ihBranches _ _).bind fun body hbody => ?_
    exact .expect_pure _ _ (Bool.and_eq_true_iff.mpr hbody)
  case h_10 =>
    intro finish tokens s hs
    obtain ⟨e, rfl⟩ := yields_expressionStatement finish tokens s hs
    rfl

theorem yields_switchBranches_succ {n : Nat}
    (ihDeclarations : ∀ inLoop ends,
      Yields (fun ss => Stmt.areRegular ss = true) (declarations n inLoop ends))
    (ih : ∀ inLoop seen, Yields SwitchBody.IsRegular (switchBranches n inLoop seen))
    (inLoop seen : Bool) : Yields SwitchBody.IsRegular (switchBranches (n + 1) inLoop seen) := by
  refine .after _ fun next => ?_
  split
  case h_1 => exact .pure ⟨rfl, rfl⟩
  case h_2 => exact .pure ⟨rfl, rfl⟩
  case h_3 =>
    refine .after _ fun _ => .after _ fun condition => .after _ fun _ => ?_
    refine (ihDeclarations _ _).bind fun statements hstatements => ?_
    refine (ih _ _).bind fun body hbody => .pure ⟨?_, hbody.2⟩
    exact Bool.and_eq_true_iff.mpr ⟨hstatements, hbody.1⟩
  case h_4 =>
    refine .after _ fun _ => .after _ fun _ => ?_
    refine (ihDeclarations _ _).bind fun statements hstatements => ?_
    split
    · exact .after _ fun _ => ih _ _
    · exact (ih _ _).bind fun body hbody => .pure ⟨hbody.1, hstatements⟩
  case h_5 => exact .after _ fun _ => .after _ fun _ => .after _ fun _ => ih _ _

theorem yields_declaration_succ {n : Nat}
    (ih : ∀ inLoop, Yields (fun s => s.isRegular = true) (statement n inLoop)) (inLoop : Bool) :
    Yields (fun o => ∀ s ∈ o, s.isDeclaration ∨ s.isRegular) (declaration (n + 1) inLoop) := by
  refine .recover (.after _ fun o => ?_)
  cases o with
  | some _ => exact fun finish tokens s hs => .inl (yields_variableDeclaration finish tokens s hs)
  | none => exact fun finish tokens s hs => .inr (ih inLoop finish tokens s hs)

theorem yields_declarations_succ {n : Nat}
    (ihDeclaration : ∀ inLoop,
      Yields (fun o => ∀ s ∈ o, s.isDeclaration ∨ s.isRegular) (declaration n inLoop))
    (ih : ∀ inLoop ends,
      Yields (fun ss => Stmt.areRegular ss = true) (declarations n inLoop ends))
    (inLoop : Bool) (ends : List Kind) :
    Yields (fun ss => Stmt.areRegular ss = true) (declarations (n + 1) inLoop ends) := by
  refine .after _ fun next => ?_
  split
  · exact .pure rfl
  · refine (ihDeclaration inLoop).bind fun first hfirst => ?_
    refine (ih inLoop ends).bind fun more hmore => .pure ?_
    rw [Stmt.areRegular_iff] at hmore ⊢
    exact List.forall_mem_append.mpr ⟨by simpa using hfirst, hmore⟩

theorem yields_statement (n : Nat) :
    (∀ inLoop, Yields (fun s => s.isRegular = true) (statement n inLoop)) ∧
    (∀ inLoop, Yields (fun o => ∀ s ∈ o, s.isDeclaration ∨ s.isRegular) (declaration n inLoop)) ∧
    (∀ inLoop ends, Yields (fun ss => Stmt.areRegular ss = true) (declarations n inLoop ends)) ∧
    ∀ inLoop seen, Yields SwitchBody.IsRegular (switchBranches n inLoop seen) := by
  induction n with
  | zero =>
    exact ⟨fun _ => .unexpected _, fun _ => .recover (.unexpected _), fun _ _ => .pure rfl,
      fun _ _ => .pure ⟨rfl, rfl⟩⟩
  | succ n ih =>
    obtain ⟨ihStatement, ihDeclaration, ihDeclarations, ihBranches⟩ := ih
    exact ⟨yields_statement_succ ihStatement ihDeclarations ihBranches,
      yields_declaration_succ ihStatement,
      yields_declarations_succ ihDeclaration ihDeclarations,
      yields_switchBranches_succ ihDeclarations ihBranches⟩

/-- The statements of a program that is read are declarations or regular. -/
theorem areRegular_parseProgram (tokens : List Token) :
    Stmt.areRegular (parseProgram tokens).program := by
  unfold parseProgram
  simp only
  split
  · next ss hss => exact (yields_statement _).2.2.1 _ _ _ _ ss hss
  · rfl

end Treewalk.Parser
