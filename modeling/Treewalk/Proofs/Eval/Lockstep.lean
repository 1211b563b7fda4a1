import Treewalk.Eval.Stmt
import Treewalk.Proofs.Syntax.Names
import Treewalk.Proofs.Syntax.Spelling

set_option autoImplicit false
set_option relaxedAutoImplicit false

/-!
Two executions in step.

A program is run beside the same program on other lines, from environments that may differ.
`Simulation` says what the environments must have in common: operations with names that the program
sees answer alike and keep the relation. Then the two runs end alike: with the same value or flow
and the same output, or with errors that differ in the line only.
-/

namespace Treewalk

section Computations

variable {ε σ α β : Type}

/-- Two ends of a computation with the same value, or with related errors, in related states. -/
inductive Ends (E : ε → ε → Prop) (R : σ → σ → Prop) :
    EStateM.Result ε σ α → EStateM.Result ε σ α → Prop where
  | ok (a : α) {s s' : σ} (h : R s s') : Ends E R (.ok a s) (.ok a s')
  | error {e e' : ε} {s s' : σ} (he : E e e') (h : R s s') : Ends E R (.error e s) (.error e' s')

/-- From related states both computations end alike. -/
def Lockstep (E : ε → ε → Prop) (R : σ → σ → Prop) (m m' : EStateM ε σ α) : Prop :=
  ∀ s s', R s s' → Ends E R (m s) (m' s')

variable {E : ε → ε → Prop} {R : σ → σ → Prop}

theorem Lockstep.pure (a : α) : Lockstep E R (Pure.pure a) (Pure.pure a) :=
  fun _ _ h => .ok a h

theorem Lockstep.throw {e e' : ε} (he : E e e') :
    Lockstep E R (MonadExcept.throw e : EStateM ε σ α) (MonadExcept.throw e') :=
  fun _ _ h => .error he h

theorem Ends.mono {R' : σ → σ → Prop} {r r' : EStateM.Result ε σ α} (h : Ends E R r r')
    (hR : ∀ s s', R s s' → R' s s') : Ends E R' r r' := by
  cases h with
  | ok a hs => exact .ok a (hR _ _ hs)
  | error he hs => exact .error he (hR _ _ hs)

/-- Where the states are related more closely in between than at the end. -/
theorem Ends.bind {R' : σ → σ → Prop} {m m' : EStateM ε σ α} {f f' : α → EStateM ε σ β} {s s' : σ}
    (hm : Ends E R (m s) (m' s')) (hR : ∀ t t', R t t' → R' t t')
    (hf : ∀ a t t', R t t' → Ends E R' (f a t) (f' a t')) :
    Ends E R' ((m >>= f) s) ((m' >>= f') s') := by
  show Ends E R' (EStateM.bind m f s) (EStateM.bind m' f' s')
  unfold EStateM.bind
  generalize m s = r at hm
  generalize m' s' = r' at hm
  cases hm with
  | ok a hs => exact hf a _ _ hs
  | error he hs => exact .error he (hR _ _ hs)

theorem Lockstep.bind {m m' : EStateM ε σ α} {f f' : α → EStateM ε σ β} (hm : Lockstep E R m m')
    (hf : ∀ a, Lockstep E R (f a) (f' a)) : Lockstep E R (m >>= f) (m' >>= f') :=
  fun s s' h => (hm s s' h).bind (fun _ _ => id) hf

end Computations

namespace RuntimeError

/-- The error in a program on other lines. -/
def mapLines (g : Nat → Nat) : RuntimeError → RuntimeError
  | .operandNotNumber operator => .operandNotNumber (operator.mapLine g)
  | .operandsNotNumbers operator => .operandsNotNumbers (operator.mapLine g)
  | .operandsNotMatching operator => .operandsNotMatching (operator.mapLine g)
  | .unknownOperator operator => .unknownOperator (operator.mapLine g)
  | .undefinedVariable name => .undefinedVariable (name.mapLine g)
  | .sinkFull => .sinkFull

@[simp] theorem mapLines_id (e : RuntimeError) : e.mapLines id = e := by
  cases e <;> rfl

/-- The error in a program with other tokens. -/
def mapTokens (f : Token → Token) : RuntimeError → RuntimeError
  | .operandNotNumber operator => .operandNotNumber (f operator)
  | .operandsNotNumbers operator => .operandsNotNumbers (f operator)
  | .operandsNotMatching operator => .operandsNotMatching (f operator)
  | .unknownOperator operator => .unknownOperator (f operator)
  | .undefinedVariable name => .undefinedVariable (f name)
  | .sinkFull => .sinkFull

@[simp] theorem mapTokens_id (e : RuntimeError) : e.mapTokens id = e := by
  cases e <;> rfl

theorem mapTokens_mapLine (g : Nat → Nat) (e : RuntimeError) :
    e.mapTokens (Token.mapLine g) = e.mapLines g := by
  cases e <;> rfl

end RuntimeError

namespace Operator

variable {f : Token → Token}

theorem unary_map (hf : Token.KeepsSpelling f) (operator : Token) (operand : Value) :
    unary (f operator) operand =
      (unary operator operand).mapError (RuntimeError.mapTokens f) := by
  simp only [unary, hf.kind]
  split
  · rfl
  · cases operand <;> rfl
  · rfl

theorem sum_map (operator : Token) (left right : Value) :
    sum (f operator) left right =
      (sum operator left right).mapError (RuntimeError.mapTokens f) := by
  cases left <;> cases right <;> rfl

theorem arithmetic_map (operator : Token) (operation : Float → Float → Float)
    (left right : Value) :
    arithmetic (f operator) operation left right =
      (arithmetic operator operation left right).mapError (RuntimeError.mapTokens f) := by
  cases left <;> cases right <;> rfl

theorem comparison_map (hf : Token.KeepsSpelling f) (operator : Token) (left right : Value) :
    comparison (f operator) left right =
      (comparison operator left right).mapError (RuntimeError.mapTokens f) := by
  cases left <;> cases right <;> simp only [comparison, hf.kind] <;> rfl

theorem binary_map (hf : Token.KeepsSpelling f) (operator : Token) (left right : Value) :
    binary (f operator) left right =
      (binary operator left right).mapError (RuntimeError.mapTokens f) := by
  simp only [binary, hf.kind]
  split
  all_goals first
    | rfl
    | exact sum_map ..
    | exact arithmetic_map ..
    | exact comparison_map hf ..

end Operator

/-- What two environments must have in common for programs that see the given names. The number
counts the scopes that both have opened since; declarations are kept out of the scopes before. -/
structure Simulation (Sees : String → Prop) (R : Nat → Environment → Environment → Prop) :
    Prop where
  get : ∀ {k : Nat} {env env' : Environment} {name : String}, R k env env' → Sees name →
    env'.get? name = env.get? name
  assign : ∀ {k : Nat} {env env' : Environment} {name : String} (value : Value), R k env env' →
    Sees name → Option.Rel (R k) (env.assign? name value) (env'.assign? name value)
  define : ∀ {k : Nat} {env env' : Environment} (name : String) (value : Value),
    R (k + 1) env env' → R (k + 1) (env.define name value) (env'.define name value)
  enter : ∀ {k : Nat} {env env' : Environment}, R k env env' → R (k + 1) env.enter env'.enter
  leave : ∀ {k : Nat} {env env' : Environment}, R (k + 1) env env' → R k env.leave env'.leave

/-- Equal environments can be told apart by no name. -/
theorem simulation_eq : Simulation (fun _ => True) (fun _ => Eq) where
  get h _ := by rw [h]
  assign {_ env _ name} value h _ := by
    subst h
    cases env.assign? name value with
    | none => exact .none
    | some after => exact .some rfl
  define name value h := by rw [h]
  enter h := by rw [h]
  leave h := by rw [h]

section Evaluation

variable {Sees : String → Prop} {R : Nat → Environment → Environment → Prop} {f : Token → Token}
  {g : Nat → Nat} {k : Nat}

/-- Evaluations in step, of which the second blames other tokens for an error. -/
abbrev Evaluation.InStepWith {α : Type} (f : Token → Token)
    (R : Environment → Environment → Prop) (m m' : Evaluation α) : Prop :=
  Lockstep (fun e e' => e' = e.mapTokens f) R m m'

/-- Evaluations in step. -/
abbrev Evaluation.InStep {α : Type} (g : Nat → Nat) (R : Environment → Environment → Prop)
    (m m' : Evaluation α) : Prop :=
  Lockstep (fun e e' => e' = e.mapLines g) R m m'

theorem Lockstep.ofExcept {α : Type} (R : Environment → Environment → Prop)
    (r : Except RuntimeError α) :
    Evaluation.InStepWith f R (.ofExcept r) (.ofExcept (r.mapError (RuntimeError.mapTokens f))) := by
  intro env env' h
  cases r with
  | error e => exact .error rfl h
  | ok a => exact .ok a h

theorem Simulation.inStep_get (sim : Simulation Sees R) (hf : Token.KeepsSpelling f) {name : Token}
    (hn : Sees name.lexeme) : Evaluation.InStepWith f (R k) (.get name) (.get (f name)) := by
  intro env env' h
  have hget : env'.get? name.lexeme = env.get? name.lexeme := sim.get h hn
  simp only [Evaluation.get, hf.lexeme, hget]
  split
  · exact .ok _ h
  · exact .error rfl h

theorem Simulation.inStep_assign (sim : Simulation Sees R) (hf : Token.KeepsSpelling f)
    {name : Token} (hn : Sees name.lexeme) (value : Value) :
    Evaluation.InStepWith f (R k) (.assign name value) (.assign (f name) value) := by
  intro env env' h
  have hassign := sim.assign value h hn
  simp only [Evaluation.assign, hf.lexeme]
  generalize env.assign? name.lexeme value = o at hassign
  generalize env'.assign? name.lexeme value = o' at hassign
  cases hassign with
  | some h' => exact .ok () h'
  | none => exact .error rfl h

/-- Evaluating an expression beside itself without groupings and with other tokens. -/
theorem Simulation.inStep_stripped (sim : Simulation Sees R) (hf : Token.KeepsSpelling f) {e : Expr}
    (hn : ∀ name ∈ e.names, Sees name) :
    Evaluation.InStepWith f (R k) e.eval (e.stripped f).eval := by
  induction e with
  | literal value => exact .pure value
  | grouping inner ih => exact ih hn
  | unary operator operand ih =>
    apply Lockstep.bind (ih hn)
    intro value
    rw [Operator.unary_map hf]
    exact .ofExcept _ _
  | binary left operator right ihl ihr =>
    obtain ⟨hl, hr⟩ := List.forall_mem_append.mp hn
    apply Lockstep.bind (ihl hl)
    intro leftValue
    apply Lockstep.bind (ihr hr)
    intro rightValue
    rw [Operator.binary_map hf]
    exact .ofExcept _ _
  | logical left operator right ihl ihr =>
    obtain ⟨hl, hr⟩ := List.forall_mem_append.mp hn
    apply Lockstep.bind (ihl hl)
    intro value
    have hdecides : Operator.decides (f operator) value = Operator.decides operator value := by
      simp only [Operator.decides, hf.kind]
    rw [hdecides]
    split
    · exact .pure value
    · exact ihr hr
  | ternary condition ifTrue ifFalse ihc iht ihf =>
    obtain ⟨hc, hbranches⟩ := List.forall_mem_append.mp hn
    obtain ⟨ht, hf⟩ := List.forall_mem_append.mp hbranches
    apply Lockstep.bind (ihc hc)
    intro value
    split
    · exact iht ht
    · exact ihf hf
  | reference name => exact sim.inStep_get hf (List.forall_mem_singleton.mp hn)
  | assign name value ih =>
    obtain ⟨hname, hvalue⟩ := List.forall_mem_cons.mp hn
    apply Lockstep.bind (ih hvalue)
    intro result
    apply Lockstep.bind (sim.inStep_assign hf hname result)
    intro
    exact .pure result

theorem ends_stripped (hf : Token.KeepsSpelling f) (e : Expr) (env : Environment) :
    Ends (fun err err' => err' = err.mapTokens f) Eq (e.eval env) ((e.stripped f).eval env) :=
  simulation_eq.inStep_stripped (k := 0) hf (fun _ _ => trivial) env env rfl

/-- Groupings have no part in an evaluation. -/
theorem eval_stripped_id (e : Expr) : (e.stripped id).eval = e.eval := by
  funext env
  have hends := ends_stripped Token.keepsSpelling_id e env
  generalize e.eval env = r at hends
  generalize (e.stripped id).eval env = r' at hends
  cases hends with
  | ok value h => rw [h]
  | error he h => rw [he, RuntimeError.mapTokens_id, h]

/-- Evaluating an expression beside itself on other lines. -/
theorem Simulation.inStep_eval (sim : Simulation Sees R) {e : Expr}
    (hn : ∀ name ∈ e.names, Sees name) :
    Evaluation.InStep g (R k) e.eval (e.mapLines g).eval := by
  intro env env' h
  have hends := sim.inStep_stripped (Token.keepsSpelling_mapLine g) hn env env' h
  have hstripped : (e.mapLines g).stripped id = e.stripped (Token.mapLine g) :=
    Expr.stripped_mapLines id g e
  rw [← hstripped, eval_stripped_id] at hends
  generalize e.eval env = r at hends
  generalize (e.mapLines g).eval env' = r' at hends
  cases hends with
  | ok value h' => exact .ok value h'
  | error he h' => exact .error (he.trans (RuntimeError.mapTokens_mapLine g _)) h'

end Evaluation

/-- The reason to stop in a program on other lines. -/
def Halt.mapLines (g : Nat → Nat) : Halt → Halt
  | .error e => .error (e.mapLines g)
  | .outOfRounds => .outOfRounds

@[simp] theorem Halt.mapLines_id (h : Halt) : h.mapLines id = h := by
  cases h with
  | error e => rw [mapLines, RuntimeError.mapLines_id]
  | outOfRounds => rfl

section Execution

variable {Sees : String → Prop} {R : Nat → Environment → Environment → Prop} {g : Nat → Nat}
  {k : Nat}

/-- Worlds with related environments and the same output. -/
structure World.Related (R : Environment → Environment → Prop) (w w' : World) : Prop where
  environment : R w.environment w'.environment
  sink : w.sink = w'.sink

/-- Runs in step. -/
abbrev Run.InStep {α : Type} (g : Nat → Nat) (R : Environment → Environment → Prop)
    (m m' : Run α) : Prop :=
  Lockstep (fun h h' => h' = h.mapLines g) (World.Related R) m m'

theorem Simulation.inStep_evaluate (sim : Simulation Sees R) {e : Expr}
    (hn : ∀ name ∈ e.names, Sees name) :
    Run.InStep g (R k) (.evaluate e) (.evaluate (e.mapLines g)) := by
  rintro ⟨env, sink⟩ ⟨env', sink'⟩ ⟨h, rfl⟩
  have hends : Ends _ _ (e.eval env) ((e.mapLines g).eval env') := sim.inStep_eval hn env env' h
  simp only [Run.evaluate]
  generalize e.eval env = r at hends
  generalize (e.mapLines g).eval env' = r' at hends
  cases hends with
  | ok value h' => exact .ok value ⟨h', rfl⟩
  | error he h' => exact .error (congrArg Halt.error he) ⟨h', rfl⟩

theorem Simulation.inStep_test (sim : Simulation Sees R) {e : Expr}
    (hn : ∀ name ∈ e.names, Sees name) :
    Run.InStep g (R k) (.test e) (.test (e.mapLines g)) :=
  .bind (sim.inStep_evaluate hn) fun _ => .pure _

theorem Lockstep.writeLine (R : Environment → Environment → Prop) (text : String) :
    Run.InStep g R (.writeLine text) (.writeLine text) := by
  rintro ⟨env, sink⟩ ⟨env', sink'⟩ ⟨h, rfl⟩
  simp only [Run.writeLine]
  split
  · exact .ok () ⟨h, rfl⟩
  · exact .error rfl ⟨h, rfl⟩

theorem Simulation.inStep_define (sim : Simulation Sees R) (hk : 0 < k) (name : String)
    (value : Value) : Run.InStep g (R k) (.define name value) (.define name value) := by
  rintro ⟨env, sink⟩ ⟨env', sink'⟩ ⟨h, rfl⟩
  obtain ⟨k, rfl⟩ := Nat.exists_eq_add_one.mpr hk
  exact .ok () ⟨sim.define name value h, rfl⟩

theorem Simulation.inStep_inScope {α : Type} (sim : Simulation Sees R) {m m' : Run α}
    (h : Run.InStep g (R (k + 1)) m m') : Run.InStep g (R k) (.inScope m) (.inScope m') := by
  rintro ⟨env, sink⟩ ⟨env', sink'⟩ ⟨he, rfl⟩
  have hends := h ⟨env.enter, sink⟩ ⟨env'.enter, sink⟩ ⟨sim.enter he, rfl⟩
  simp only [Run.inScope]
  generalize m ⟨env.enter, sink⟩ = r at hends
  generalize m' ⟨env'.enter, sink⟩ = r' at hends
  cases hends with
  | ok a h' => exact .ok a ⟨sim.leave h'.environment, h'.sink⟩
  | error hh h' => exact .error hh ⟨sim.leave h'.environment, h'.sink⟩

/-- Loops are in step when their parts are. -/
theorem Lockstep.loop {R : Environment → Environment → Prop} {condition condition' : Run Bool}
    {body body' : Run Flow} {increment increment' : Run Unit}
    (hc : Run.InStep g R condition condition') (hb : Run.InStep g R body body')
    (hi : Run.InStep g R increment increment') (rounds : Nat) :
    Run.InStep g R (.loop condition body increment rounds)
      (.loop condition' body' increment' rounds) := by
  induction rounds with
  | zero => exact .throw rfl
  | succ rounds ih =>
    apply Lockstep.bind hc
    intro goesOn
    cases goesOn with
    | false => exact .pure _
    | true =>
      apply Lockstep.bind hb
      intro flow
      cases flow with
      | normal => exact ih
      | breaks => exact .pure _
      | continues => exact .bind hi fun _ => ih
      | exits => exact .pure _

namespace Simulation

mutual

/-- Executing a statement beside itself on other lines. -/
theorem inStep_exec (sim : Simulation Sees R) (rounds : Nat) (s : Stmt) {k : Nat}
    (hn : ∀ name ∈ s.names, Sees name) (hd : s.declares → 0 < k) :
    Run.InStep g (R k) (s.exec rounds) ((s.mapLines g).exec rounds) := by
  cases s with
  | expression value =>
    exact .bind (sim.inStep_evaluate hn) fun _ => .pure _
  | print value =>
    apply Lockstep.bind (sim.inStep_evaluate hn)
    intro result
    exact .bind (.writeLine _ _) fun _ => .pure _
  | declare name initializer =>
    apply Lockstep.bind (sim.inStep_evaluate hn)
    intro value
    exact .bind (sim.inStep_define (hd rfl) _ _) fun _ => .pure _
  | block statements =>
    exact sim.inStep_inScope (sim.inStep_execAll rounds statements hn fun _ _ _ => Nat.succ_pos k)
  | branch condition thenBranch elseBranch =>
    obtain ⟨hc, hbranches⟩ := List.forall_mem_append.mp hn
    obtain ⟨ht, he⟩ := List.forall_mem_append.mp hbranches
    apply Lockstep.bind (sim.inStep_test hc)
    intro holds
    cases holds with
    | true =>
      exact sim.inStep_exec rounds thenBranch ht fun h => hd (by simp [Stmt.declares, h])
    | false =>
      exact sim.inStep_execOption rounds elseBranch he fun h => hd (by simp [Stmt.declares, h])
  | loop form condition body =>
    obtain ⟨hc, hb⟩ := List.forall_mem_append.mp hn
    cases form with
    | whileLoop =>
      exact .loop (sim.inStep_test hc) (sim.inStep_exec rounds body hb hd) (.pure ()) rounds
    | forLoop =>
      exact .loop (sim.inStep_test hc)
        (sim.inStep_exec rounds body hb fun h => hd (by simp [Stmt.declares, h]))
        (sim.inStep_execIncrement rounds body hb fun h => hd (by simp [Stmt.declares, h])) rounds
  | switch subject cases fallback =>
    obtain ⟨hs, hbranches⟩ := List.forall_mem_append.mp hn
    obtain ⟨hc, hf⟩ := List.forall_mem_append.mp hbranches
    apply Lockstep.bind (sim.inStep_evaluate hs)
    intro value
    exact sim.inStep_execCases rounds value cases hc (fun h => hd (by simp [Stmt.declares, h]))
      (sim.inStep_execOption rounds fallback hf fun h => hd (by simp [Stmt.declares, h]))
  | breakLoop => exact .pure _
  | continueLoop => exact .pure _
  | exitProgram => exact .pure _

theorem inStep_execAll (sim : Simulation Sees R) (rounds : Nat) (ss : List Stmt) {k : Nat}
    (hn : ∀ name ∈ Stmt.namesOfAll ss, Sees name) (hd : ∀ s ∈ ss, s.declares → 0 < k) :
    Run.InStep g (R k) (Stmt.execAll rounds ss)
      (Stmt.execAll rounds (Stmt.mapLinesOfAll g ss)) := by
  cases ss with
  | nil => exact .pure _
  | cons s rest =>
    obtain ⟨hs, hrest⟩ := List.forall_mem_append.mp hn
    obtain ⟨hds, hdrest⟩ := List.forall_mem_cons.mp hd
    apply Lockstep.bind (sim.inStep_exec rounds s hs hds)
    intro flow
    cases flow with
    | normal => exact sim.inStep_execAll rounds rest hrest hdrest
    | breaks => exact .pure _
    | continues => exact .pure _
    | exits => exact .pure _

theorem inStep_execOption (sim : Simulation Sees R) (rounds : Nat) (o : Option Stmt) {k : Nat}
    (hn : ∀ name ∈ Stmt.namesOfOption o, Sees name) (hd : Stmt.declaresOption o → 0 < k) :
    Run.InStep g (R k) (Stmt.execOption rounds o)
      (Stmt.execOption rounds (Stmt.mapLinesOfOption g o)) := by
  cases o with
  | none => exact .pure _
  | some s => exact sim.inStep_exec rounds s hn hd

theorem inStep_execCases (sim : Simulation Sees R) (rounds : Nat) (subject : Value)
    (cases : List (Expr × Stmt)) {k : Nat} {otherwise otherwise' : Run Flow}
    (hn : ∀ name ∈ Stmt.namesOfCases cases, Sees name)
    (hd : Stmt.declaresCases cases → 0 < k) (ho : Run.InStep g (R k) otherwise otherwise') :
    Run.InStep g (R k) (Stmt.execCases rounds subject otherwise cases)
      (Stmt.execCases rounds subject otherwise' (Stmt.mapLinesOfCases g cases)) := by
  match cases with
  | [] => exact ho
  | (condition, body) :: rest =>
    obtain ⟨hc, hbranches⟩ := List.forall_mem_append.mp hn
    obtain ⟨hb, hrest⟩ := List.forall_mem_append.mp hbranches
    apply Lockstep.bind (sim.inStep_evaluate hc)
    intro value
    split
    · exact sim.inStep_exec rounds body hb fun h => hd (by simp [Stmt.declaresCases, h])
    · exact sim.inStep_execCases rounds subject rest hrest
        (fun h => hd (by simp [Stmt.declaresCases, h])) ho

theorem inStep_execIncrement (sim : Simulation Sees R) (rounds : Nat) (body : Stmt) {k : Nat}
    (hn : ∀ name ∈ body.names, Sees name) (hd : Stmt.declaresIncrement body → 0 < k) :
    Run.InStep g (R k) (Stmt.execIncrement rounds body)
      (Stmt.execIncrement rounds (body.mapLines g)) := by
  match body with
  | .block [first, increment] =>
    obtain ⟨-, hrest⟩ := List.forall_mem_append.mp hn
    obtain ⟨hi, -⟩ := List.forall_mem_append.mp hrest
    exact .bind (sim.inStep_exec rounds increment hi hd) fun _ => .pure _
  | .block [] => exact .pure ()
  | .block [_] => exact .pure ()
  | .block (_ :: _ :: _ :: _) => exact .pure ()
  | .expression _ => exact .pure ()
  | .print _ => exact .pure ()
  | .declare _ _ => exact .pure ()
  | .branch _ _ _ => exact .pure ()
  | .loop _ _ _ => exact .pure ()
  | .switch _ _ _ => exact .pure ()
  | .breakLoop => exact .pure ()
  | .continueLoop => exact .pure ()
  | .exitProgram => exact .pure ()

end

end Simulation

end Execution

end Treewalk
