import Treewalk.Proofs.Eval.Composition
import Treewalk.Proofs.Parse.Tokens

set_option autoImplicit false
set_option relaxedAutoImplicit false

/-!
Operators as they are read and as they are evaluated.

An expression whose tokens belong where they are gets by with the meanings that operators of these
kinds have of their own: what is done with any other operator makes no difference to it. Errors
blame tokens of the expression, each form of error those of some kinds.
-/

namespace Treewalk

section Computations

variable {ε σ α β : Type} {B : ε → Prop}

/-- Every error of the computation has the property. -/
def Fails (B : ε → Prop) (m : EStateM ε σ α) : Prop :=
  ∀ (s : σ) (e : ε) (s' : σ), m s = .error e s' → B e

theorem Fails.pure (a : α) : Fails B (Pure.pure a : EStateM ε σ α) := by
  intro s e s' h
  contradiction

theorem Fails.throw {e : ε} (h : B e) : Fails B (MonadExcept.throw e : EStateM ε σ α) := by
  intro s e' s' he
  obtain ⟨rfl, -⟩ := EStateM.Result.error.inj he
  exact h

theorem Fails.bind {m : EStateM ε σ α} {f : α → EStateM ε σ β} (hm : Fails B m)
    (hf : ∀ a, Fails B (f a)) : Fails B (m >>= f) := by
  intro s e s' h
  have hbind : EStateM.bind m f s = .error e s' := h
  unfold EStateM.bind at hbind
  split at hbind
  · next a mid _ => exact hf a mid e s' hbind
  · next e' mid hstopped =>
    obtain ⟨rfl, -⟩ := EStateM.Result.error.inj hbind
    exact hm s e' mid hstopped

end Computations

namespace RuntimeError

/-- The kinds of the tokens that errors of this form are about. None is about an operator that is
not known. -/
def kinds : RuntimeError → List Kind
  | .operandNotNumber _ => [.minus]
  | .operandsNotNumbers _ => [.minus, .star, .slash]
  | .operandsNotMatching _ => [.plus, .greater, .greaterEqual, .less, .lessEqual]
  | .unknownOperator _ => []
  | .undefinedVariable _ => [.identifier]
  | .sinkFull => []

/-- The token to blame is of a kind that the error can be about, and has a property. -/
def Blames (Q : Token → Prop) (e : RuntimeError) : Prop :=
  ∀ t ∈ e.token?, t.kind ∈ e.kinds ∧ Q t

theorem Blames.of_some {Q : Token → Prop} {e : RuntimeError} {t : Token} (h : e.token? = some t)
    (hkind : t.kind ∈ e.kinds) (ht : Q t) : e.Blames Q := by
  intro t' ht'
  obtain rfl : t = t' := Option.some.inj (h.symm.trans ht')
  exact ⟨hkind, ht⟩

end RuntimeError

/-- If a run is stopped by an error, then by one that blames a token with the property. -/
def Halt.Blames (Q : Token → Prop) : Halt → Prop
  | .error e => e.Blames Q
  | .outOfRounds => True

namespace Operator

variable {Q : Token → Prop} {operator : Token} {e : RuntimeError} {left right : Value}

theorem sum_error (h : sum operator left right = .error e) : e = .operandsNotMatching operator := by
  unfold sum at h
  split at h
  · contradiction
  · contradiction
  · exact (Except.error.inj h).symm

theorem arithmetic_error {f : Float → Float → Float}
    (h : arithmetic operator f left right = .error e) : e = .operandsNotNumbers operator := by
  unfold arithmetic at h
  split at h
  · contradiction
  · exact (Except.error.inj h).symm

theorem comparison_error (h : comparison operator left right = .error e) :
    e = .operandsNotMatching operator := by
  unfold comparison at h
  split at h
  · contradiction
  · contradiction
  · exact (Except.error.inj h).symm

theorem blames_unary {operand : Value} (hkind : operator.kind ∈ Kind.unaryOperators)
    (hoperator : Q operator) (h : unary operator operand = .error e) : e.Blames Q := by
  unfold unary at h
  split at h
  · contradiction
  · next hminus =>
    split at h
    · contradiction
    · obtain rfl := Except.error.inj h
      exact .of_some rfl (by simp [RuntimeError.kinds, hminus]) hoperator
  · simp_all [Kind.unaryOperators]

theorem blames_binary (hkind : operator.kind ∈ Kind.binaryOperators) (hoperator : Q operator)
    (h : binary operator left right = .error e) : e.Blames Q := by
  have hsum : operator.kind = .plus → sum operator left right = .error e → e.Blames Q := by
    intro hplus herror
    obtain rfl := sum_error herror
    exact .of_some rfl (by simp [RuntimeError.kinds, hplus]) hoperator
  have harithmetic : operator.kind ∈ [.minus, .star, .slash] → ∀ f,
      arithmetic operator f left right = .error e → e.Blames Q := by
    intro hmem f herror
    obtain rfl := arithmetic_error herror
    exact .of_some rfl hmem hoperator
  have hcomparison : operator.kind ∈ [.greater, .greaterEqual, .less, .lessEqual] →
      comparison operator left right = .error e → e.Blames Q := by
    intro hmem herror
    obtain rfl := comparison_error herror
    exact .of_some rfl (List.mem_cons_of_mem _ hmem) hoperator
  unfold binary at h
  split at h
  case h_1 => contradiction
  case h_2 => contradiction
  case h_3 hk => exact hsum hk h
  case h_4 hk => exact harithmetic (by simp [hk]) _ h
  case h_5 hk => exact harithmetic (by simp [hk]) _ h
  case h_6 hk => exact harithmetic (by simp [hk]) _ h
  case h_7 hk => exact hcomparison (by simp [hk]) h
  case h_8 hk => exact hcomparison (by simp [hk]) h
  case h_9 hk => exact hcomparison (by simp [hk]) h
  case h_10 hk => exact hcomparison (by simp [hk]) h
  case h_11 => simp_all [Kind.binaryOperators]

/-- The unary operators that are known are those that are read. -/
theorem unary_unknown_iff (operator : Token) :
    (∃ operand, unary operator operand = .error (.unknownOperator operator)) ↔
      operator.kind ∉ Kind.unaryOperators := by
  constructor
  · rintro ⟨operand, h⟩ hkind
    have hblames : RuntimeError.Blames (fun _ => True) (.unknownOperator operator) :=
      blames_unary hkind trivial h
    exact List.not_mem_nil (hblames operator rfl).1
  · intro hkind
    refine ⟨.nil, ?_⟩
    unfold unary
    split <;> simp_all [Kind.unaryOperators]

/-- The binary operators that are known are those that are read. -/
theorem binary_unknown_iff (operator : Token) :
    (∃ left right, binary operator left right = .error (.unknownOperator operator)) ↔
      operator.kind ∉ Kind.binaryOperators := by
  constructor
  · rintro ⟨left, right, h⟩ hkind
    have hblames : RuntimeError.Blames (fun _ => True) (.unknownOperator operator) :=
      blames_binary hkind trivial h
    exact List.not_mem_nil (hblames operator rfl).1
  · intro hkind
    refine ⟨.nil, .nil, ?_⟩
    unfold binary
    split <;> simp_all [Kind.binaryOperators]

end Operator

section Errors

variable {Q : Token → Prop}

theorem fails_ofExcept {α : Type} {r : Except RuntimeError α}
    (h : ∀ e, r = .error e → e.Blames Q) :
    Fails (RuntimeError.Blames Q) (Evaluation.ofExcept r) := by
  intro env e env' he
  cases r with
  | ok a => contradiction
  | error stop =>
    obtain ⟨rfl, -⟩ := EStateM.Result.error.inj he
    exact h stop rfl

theorem fails_get {name : Token} (hkind : name.kind = .identifier) (hname : Q name) :
    Fails (RuntimeError.Blames Q) (Evaluation.get name) := by
  intro env e env' he
  unfold Evaluation.get at he
  split at he
  · contradiction
  · obtain ⟨rfl, -⟩ := EStateM.Result.error.inj he
    exact .of_some rfl (by simp [RuntimeError.kinds, hkind]) hname

theorem fails_assign {name : Token} (hkind : name.kind = .identifier) (hname : Q name)
    (value : Value) : Fails (RuntimeError.Blames Q) (Evaluation.assign name value) := by
  intro env e env' he
  unfold Evaluation.assign at he
  split at he
  · contradiction
  · obtain ⟨rfl, -⟩ := EStateM.Result.error.inj he
    exact .of_some rfl (by simp [RuntimeError.kinds, hkind]) hname

/-- An expression whose tokens fit blames one of them if it cannot be evaluated. -/
theorem Expr.fails_eval {e : Expr} (h : e.AllFit Q) : Fails (RuntimeError.Blames Q) e.eval := by
  induction e with
  | literal value => exact .pure value
  | grouping inner ih => exact ih (allFit_grouping.mp h)
  | unary operator operand ih =>
    obtain ⟨hself, hoperand⟩ := allFit_unary.mp h
    obtain ⟨hkind, hoperator⟩ := hself operator rfl
    exact .bind (ih hoperand) fun value =>
      fails_ofExcept fun _ => Operator.blames_unary hkind hoperator
  | binary left operator right ihl ihr =>
    obtain ⟨hself, hleft, hright⟩ := allFit_binary.mp h
    obtain ⟨hkind, hoperator⟩ := hself operator rfl
    exact .bind (ihl hleft) fun leftValue => .bind (ihr hright) fun rightValue =>
      fails_ofExcept fun _ => Operator.blames_binary hkind hoperator
  | logical left operator right ihl ihr =>
    obtain ⟨-, hleft, hright⟩ := allFit_logical.mp h
    refine .bind (ihl hleft) fun value => ?_
    split
    · exact .pure value
    · exact ihr hright
  | ternary condition ifTrue ifFalse ihc iht ihf =>
    obtain ⟨hcondition, htrue, hfalse⟩ := allFit_ternary.mp h
    refine .bind (ihc hcondition) fun value => ?_
    split
    · exact iht htrue
    · exact ihf hfalse
  | reference name =>
    obtain ⟨hkind, hname⟩ := h.self name rfl
    exact fails_get (List.mem_singleton.mp hkind) hname
  | assign name value ih =>
    obtain ⟨hself, hvalue⟩ := allFit_assign.mp h
    obtain ⟨hkind, hname⟩ := hself name rfl
    exact .bind (ih hvalue) fun result =>
      .bind (fails_assign (List.mem_singleton.mp hkind) hname result) fun _ => .pure result

/-- Runs that blame tokens with a property can be put together. -/
theorem compositional_fails :
    Run.Compositional (Expr.AllFit Q) fun _ m => Fails (Halt.Blames Q) m where
  pure a := .pure a
  outOfRounds := .throw trivial
  bind hm hf := .bind hm hf
  evaluate {e} he := by
    rintro ⟨env, sink⟩ stop w' hstopped
    simp only [Run.evaluate] at hstopped
    split at hstopped
    · contradiction
    · next error env' heval =>
      obtain ⟨rfl, -⟩ := EStateM.Result.error.inj hstopped
      exact Expr.fails_eval he env error env' heval
  writeLine text := by
    rintro ⟨env, sink⟩ stop w' hstopped
    simp only [Run.writeLine] at hstopped
    split at hstopped
    · contradiction
    · obtain ⟨rfl, -⟩ := EStateM.Result.error.inj hstopped
      simp [Halt.Blames, RuntimeError.Blames, RuntimeError.token?]
  define name value := by
    intro w stop w' hstopped
    contradiction
  inScope {m} hm := by
    rintro ⟨env, sink⟩ stop w' hstopped
    simp only [Run.inScope] at hstopped
    split at hstopped
    · contradiction
    · next error env' sink' hbody =>
      obtain ⟨rfl, -⟩ := EStateM.Result.error.inj hstopped
      exact hm _ error _ hbody

end Errors

/-- Something to do with operators that have no meaning of their own. -/
structure Fallback where
  unary : Token → Value → Except RuntimeError Value
  binary : Token → Value → Value → Except RuntimeError Value
  compare : Kind → Bool
  decides : Token → Value → Bool

namespace Operator

/-- A unary operation, with something else to do for operators that have no meaning here. -/
def unaryOr (fallback : Fallback) (operator : Token) (operand : Value) :
    Except RuntimeError Value :=
  if operator.kind ∈ Kind.unaryOperators then unary operator operand
  else fallback.unary operator operand

/-- Whether two operands stand in the order that an operator asks for, with something else to do for
operators other than `>`, `>=`, `<` and `<=`. -/
def compareOr {α : Type} (fallback : Fallback) (less atMost : α → α → Bool) (kind : Kind)
    (left right : α) : Bool :=
  match kind with
  | .greater => less right left
  | .greaterEqual => atMost right left
  | .less => less left right
  | .lessEqual => atMost left right
  | other => fallback.compare other

/-- Compares two numbers, or two strings by their characters. -/
def comparisonOr (fallback : Fallback) (operator : Token) :
    Value → Value → Except RuntimeError Value
  | .number x, .number y =>
    .ok (.boolean (compareOr fallback (fun x y => x < y) (fun x y => x ≤ y) operator.kind x y))
  | .string s, .string t =>
    .ok (.boolean (compareOr fallback (fun s t => s < t) (fun s t => ¬ t < s) operator.kind s t))
  | _, _ => .error (.operandsNotMatching operator)

/-- A binary operation, with something else to do for operators that have no meaning here. -/
def binaryOr (fallback : Fallback) (operator : Token) (left right : Value) :
    Except RuntimeError Value :=
  match operator.kind with
  | .greater | .greaterEqual | .less | .lessEqual => comparisonOr fallback operator left right
  | kind =>
    if kind ∈ Kind.binaryOperators then binary operator left right
    else fallback.binary operator left right

/-- Whether the left operand already decides, with something else to do for operators other than
`or` and `and`. -/
def decidesOr (fallback : Fallback) (operator : Token) (left : Value) : Bool :=
  match operator.kind with
  | .orWord => left.isTruthy
  | .andWord => !left.isTruthy
  | _ => fallback.decides operator left

theorem compareOr_eq_compare {α : Type} (fallback : Fallback) (less atMost : α → α → Bool)
    {kind : Kind} (h : kind ∈ [.greater, .greaterEqual, .less, .lessEqual]) (left right : α) :
    compareOr fallback less atMost kind left right = compare less atMost kind left right := by
  simp only [List.mem_cons, List.not_mem_nil, or_false] at h
  rcases h with rfl | rfl | rfl | rfl <;> rfl

theorem comparisonOr_eq_comparison (fallback : Fallback) {operator : Token}
    (h : operator.kind ∈ [.greater, .greaterEqual, .less, .lessEqual]) (left right : Value) :
    comparisonOr fallback operator left right = comparison operator left right := by
  cases left <;> cases right <;>
    simp only [comparisonOr, comparison, compareOr_eq_compare fallback _ _ h]

theorem binaryOr_eq_binary (fallback : Fallback) {operator : Token}
    (h : operator.kind ∈ Kind.binaryOperators) (left right : Value) :
    binaryOr fallback operator left right = binary operator left right := by
  have hcompares : operator.kind ∈ [.greater, .greaterEqual, .less, .lessEqual] →
      comparisonOr fallback operator left right = binary operator left right := by
    intro hmem
    rw [comparisonOr_eq_comparison fallback hmem]
    simp only [List.mem_cons, List.not_mem_nil, or_false] at hmem
    rcases hmem with hk | hk | hk | hk <;> simp only [binary, hk]
  unfold binaryOr
  split
  case h_1 hk => exact hcompares (by simp [hk])
  case h_2 hk => exact hcompares (by simp [hk])
  case h_3 hk => exact hcompares (by simp [hk])
  case h_4 hk => exact hcompares (by simp [hk])
  case h_5 => rw [if_pos h]

theorem decidesOr_eq_decides (fallback : Fallback) {operator : Token}
    (h : operator.kind ∈ Kind.logicalOperators) (left : Value) :
    decidesOr fallback operator left = decides operator left := by
  simp only [Kind.logicalOperators, List.mem_cons, List.not_mem_nil, or_false] at h
  rcases h with hk | hk <;> simp only [decidesOr, decides, hk]

end Operator

namespace Expr

/-- The value of an expression, with something else to do for operators that have no meaning. -/
def evalOr (fallback : Fallback) : Expr → Evaluation Value
  | .literal value => pure value
  | .grouping inner => inner.evalOr fallback
  | .unary operator operand => do
    let value ← operand.evalOr fallback
    Evaluation.ofExcept (Operator.unaryOr fallback operator value)
  | .binary left operator right => do
    let leftValue ← left.evalOr fallback
    let rightValue ← right.evalOr fallback
    Evaluation.ofExcept (Operator.binaryOr fallback operator leftValue rightValue)
  | .logical left operator right => do
    let value ← left.evalOr fallback
    if Operator.decidesOr fallback operator value then pure value else right.evalOr fallback
  | .ternary condition ifTrue ifFalse => do
    let value ← condition.evalOr fallback
    if value.isTruthy then ifTrue.evalOr fallback else ifFalse.evalOr fallback
  | .reference name => Evaluation.get name
  | .assign name value => do
    let result ← value.evalOr fallback
    Evaluation.assign name result
    pure result

/-- Where all tokens fit, nothing is left to a fallback. -/
theorem evalOr_eq_eval {Q : Token → Prop} (fallback : Fallback) {e : Expr} (h : e.AllFit Q) :
    e.evalOr fallback = e.eval := by
  induction e with
  | literal value => rfl
  | grouping inner ih => exact ih (allFit_grouping.mp h)
  | unary operator operand ih =>
    obtain ⟨hself, hoperand⟩ := allFit_unary.mp h
    have hkind : operator.kind ∈ Kind.unaryOperators := (hself operator rfl).1
    have hunary : ∀ value, Operator.unaryOr fallback operator value =
        Operator.unary operator value := fun value => if_pos hkind
    simp only [evalOr, eval, ih hoperand, hunary]
  | binary left operator right ihl ihr =>
    obtain ⟨hself, hleft, hright⟩ := allFit_binary.mp h
    have hkind : operator.kind ∈ Kind.binaryOperators := (hself operator rfl).1
    simp only [evalOr, eval, ihl hleft, ihr hright, Operator.binaryOr_eq_binary fallback hkind]
  | logical left operator right ihl ihr =>
    obtain ⟨hself, hleft, hright⟩ := allFit_logical.mp h
    have hkind : operator.kind ∈ Kind.logicalOperators := (hself operator rfl).1
    simp only [evalOr, eval, ihl hleft, ihr hright, Operator.decidesOr_eq_decides fallback hkind]
  | ternary condition ifTrue ifFalse ihc iht ihf =>
    obtain ⟨hcondition, htrue, hfalse⟩ := allFit_ternary.mp h
    simp only [evalOr, eval, ihc hcondition, iht htrue, ihf hfalse]
  | reference name => rfl
  | assign name value ih => simp only [evalOr, eval, ih (allFit_assign.mp h).2]

end Expr

/-- What is read and what is evaluated agree on the operators. Whatever the tokens are, every
expression that is read from them, as a program or at a prompt, has operators and names of the kinds
that belong there. Its value is the same whatever is done with operators of other kinds, which are
those that the evaluation does not know. So no run of it is stopped by an unknown operator. -/
theorem operators_agree (tokens : List Token) :
    (∀ entry ∈ [.program (parseProgram tokens).program, (parseEntry tokens).entry],
      (∀ e ∈ entry.expressions, (∀ part ∈ e.parts, ∀ t ∈ part.token?, t.kind ∈ part.kinds) ∧
        ∀ fallback, e.evalOr fallback = e.eval) ∧
      ∀ (rounds : Nat) (w w' : World) (operator : Token),
        Session.executeEntry rounds entry w ≠ .error (.error (.unknownOperator operator)) w') ∧
    ∀ operator : Token,
      ((∃ operand, Operator.unary operator operand = .error (.unknownOperator operator)) ↔
        operator.kind ∉ Kind.unaryOperators) ∧
      ((∃ left right, Operator.binary operator left right = .error (.unknownOperator operator)) ↔
        operator.kind ∉ Kind.binaryOperators) := by
  have hfit : ∀ entry ∈ [.program (parseProgram tokens).program, (parseEntry tokens).entry],
      ∀ e ∈ entry.expressions, e.AllFit fun _ => True := by
    refine List.forall_mem_cons.mpr ⟨?_, List.forall_mem_singleton.mpr ?_⟩
    · exact allFit_parseProgram trivial fun _ _ => trivial
    · exact allFit_parseEntry trivial fun _ _ => trivial
  refine ⟨fun entry hentry => ⟨fun e he => ?_, ?_⟩, fun operator =>
    ⟨Operator.unary_unknown_iff operator, Operator.binary_unknown_iff operator⟩⟩
  · have hparts : e.AllFit fun _ => True := hfit entry hentry e he
    exact ⟨fun part hpart t ht => (hparts part hpart t ht).1, fun fallback =>
      Expr.evalOr_eq_eval fallback hparts⟩
  · intro rounds w w' operator hstopped
    have hblames : RuntimeError.Blames (fun _ => True) (.unknownOperator operator) :=
      Session.holds_executeEntry compositional_fails rounds entry (hfit entry hentry) w _ w' hstopped
    exact List.not_mem_nil (hblames operator rfl).1

end Treewalk
