import Treewalk.Proofs.Eval.ForLoop
import Treewalk.Proofs.Eval.Trace

set_option autoImplicit false
set_option relaxedAutoImplicit false

/-!
Switches as chains of `if` statements.

A switch evaluates its subject once and compares the values of its branches with it, one by one. A
program can do the same with a variable for the subject: `Stmt.chain` is the block that declares
one and goes through a chain of `if` statements. The block has a scope that the switch does not
have, with one variable in it; as long as nothing in the switch has that name, the two cannot be
told apart.
-/

namespace Treewalk

namespace Stmt

/-- The comparison of a value with a variable. -/
def equalTo (name : Token) (value : Expr) : Expr :=
  .binary value ⟨.equalEqual, Kind.equalEqual.text, none, name.line⟩ (.reference name)

/-- A chain of `if` statements that compare with a variable, and what stands behind the last `else`. -/
def chainOf (name : Token) (fallback : Option Stmt) : List (Expr × Stmt) → Option Stmt
  | [] => fallback
  | (condition, body) :: rest =>
    some (.branch (equalTo name condition) body (chainOf name fallback rest))

/-- The block that declares a variable for the subject of a switch and goes through its branches. -/
def chain (name : Token) (subject : Expr) (cases : List (Expr × Stmt)) (fallback : Option Stmt) :
    Stmt :=
  .block (.declare name subject :: (chainOf name fallback cases).toList)

theorem execAll_toList (rounds : Nat) (o : Option Stmt) :
    execAll rounds o.toList = execOption rounds o := by
  cases o with
  | none => rfl
  | some s => exact execAll_singleton s rounds

theorem execAll_declare (rounds : Nat) (name : Token) (initializer : Expr) (rest : List Stmt) :
    execAll rounds (.declare name initializer :: rest) = (do
      let value ← Run.evaluate initializer
      Run.define name.lexeme value
      execAll rounds rest) := by
  simp only [execAll, exec, bind_assoc, pure_bind]

end Stmt

section Hidden

variable {hidden : Bindings} {env env' : Environment} {name : String}

/-- The innermost scope comes first. -/
theorem Interposed.get_hidden {value : Value} (h : Interposed hidden 0 env env')
    (hn : hidden.lookup name = some value) : env'.get? name = some value := by
  obtain ⟨inner, outer, hinner, -, -, henv'⟩ := h
  obtain rfl := List.length_eq_zero_iff.mp hinner
  rw [Environment.get?_eq, henv', List.nil_append, List.findSome?_cons, hn]

/-- The first variable of a scope that was empty. -/
theorem Interposed.declare (name : String) (value : Value) (h : Interposed [] 0 env env') :
    Interposed [(name, value)] 0 env (env'.define name value) := by
  obtain ⟨inner, outer, hinner, houter, henv, henv'⟩ := h
  obtain rfl := List.length_eq_zero_iff.mp hinner
  exact ⟨[], outer, rfl, houter, henv, Environment.maps_define henv' name value⟩

end Hidden

section Chain

variable {name : Token} {subject : Value}

/-- Both sides of the comparison are evaluated, and no error comes from it. -/
theorem Run.test_equalTo (name : Token) (e : Expr) :
    Run.test (Stmt.equalTo name e) = (do
      let value ← Run.evaluate e
      let subject ← Run.evaluate (.reference name)
      pure (value.equals subject)) := by
  simp only [Run.test, Run.evaluate_eq, Stmt.equalTo, Expr.eval, Run.ofEvaluation_bind, bind_assoc]
  rfl

theorem lookup_eq_none_of_ne {other : String} (h : other ≠ name.lexeme) :
    [(name.lexeme, subject)].lookup other = none := by
  have hbeq : (other == name.lexeme) = false := beq_false_of_ne h
  rw [List.lookup_cons, hbeq]
  rfl

/-- Reading the variable gives the subject, in a world that cannot be told from one without it. -/
theorem inStep_subject :
    Run.InStep id (Interposed [(name.lexeme, subject)] 0) (pure subject)
      (Run.evaluate (.reference name)) := by
  rintro ⟨env, sink⟩ ⟨env', sink'⟩ ⟨h, rfl⟩
  have hget : env'.get? name.lexeme = some subject := h.get_hidden (by simp)
  simp only [Run.evaluate, Expr.eval, Evaluation.get, hget]
  exact .ok subject ⟨h, rfl⟩

/-- The branches of a switch beside the chain, where the variable holds the subject. -/
theorem inStep_chainOf (rounds : Nat) (cases : List (Expr × Stmt)) (fallback : Option Stmt)
    (hcases : name.lexeme ∉ Stmt.namesOfCases cases)
    (hfallback : name.lexeme ∉ Stmt.namesOfOption fallback)
    (hdeclares : Stmt.declaresCases cases = false)
    (hdeclares' : Stmt.declaresOption fallback = false) :
    Run.InStep id (Interposed [(name.lexeme, subject)] 0)
      (Stmt.execCases rounds subject (Stmt.execOption rounds fallback) cases)
      (Stmt.execOption rounds (Stmt.chainOf name fallback cases)) := by
  have sim := simulation_interposed [(name.lexeme, subject)]
  have hsees : ∀ {names : List String}, name.lexeme ∉ names →
      ∀ other ∈ names, [(name.lexeme, subject)].lookup other = none := by
    intro names hnames other hother
    exact lookup_eq_none_of_ne fun heq => hnames (heq ▸ hother)
  induction cases with
  | nil =>
    have hstep := sim.inStep_execOption (g := id) (k := 0) rounds fallback (hsees hfallback)
      (by simp [hdeclares'])
    rwa [Stmt.mapLinesOfOption_id] at hstep
  | cons case rest ih =>
    obtain ⟨condition, body⟩ := case
    simp only [Stmt.namesOfCases, List.mem_append, not_or] at hcases
    obtain ⟨hcondition, hbody, hrest⟩ := hcases
    simp only [Stmt.declaresCases, Bool.or_eq_false_iff] at hdeclares
    have hvalue := sim.inStep_evaluate (g := id) (k := 0) (hsees hcondition)
    rw [Expr.mapLines_id] at hvalue
    have hexec := sim.inStep_exec (g := id) (k := 0) rounds body (hsees hbody)
      (by simp [hdeclares.1])
    rw [Stmt.mapLines_id] at hexec
    simp only [Stmt.execCases, Stmt.chainOf, Stmt.execOption, Stmt.exec, Run.test_equalTo,
      bind_assoc, pure_bind]
    apply Lockstep.bind hvalue
    intro value
    -- where the chain reads the variable, the switch has the subject at hand
    change Lockstep _ _ (pure subject >>= fun compared => if value.equals compared
      then body.exec rounds
      else Stmt.execCases rounds subject (Stmt.execOption rounds fallback) rest) _
    apply Lockstep.bind inStep_subject
    intro compared
    split
    · exact hexec
    · exact ih hrest hdeclares.2

end Chain

/-- A switch that declares nothing around it is the chain, for any name that it does not use. -/
theorem exec_chain {name : Token} {subject : Expr} {cases : List (Expr × Stmt)}
    {fallback : Option Stmt} (hname : name.lexeme ∉ (Stmt.switch subject cases fallback).names)
    (hdeclares : (Stmt.switch subject cases fallback).declares = false) (rounds : Nat) :
    (Stmt.chain name subject cases fallback).exec rounds =
      (Stmt.switch subject cases fallback).exec rounds := by
  simp only [Stmt.names, List.mem_append, not_or] at hname
  obtain ⟨-, hcases, hfallback⟩ := hname
  simp only [Stmt.declares, Bool.or_eq_false_iff] at hdeclares
  funext ⟨env, sink⟩
  rw [Stmt.chain, Stmt.exec, Stmt.execAll_declare, Stmt.execAll_toList, Stmt.exec]
  apply Run.inScope_eq_of_ends
  have hsubject := (simulation_interposed []).inStep_evaluate (g := id) (k := 0) (e := subject)
    (fun _ _ => rfl) ⟨env, sink⟩ ⟨env.enter, sink⟩ ⟨interposed_enter env, rfl⟩
  rw [Expr.mapLines_id] at hsubject
  -- the scope of the block is empty up to the declaration, and has one variable from there on
  refine hsubject.bind (fun _ _ => World.Related.opened) ?_
  rintro value ⟨env₁, sink₁⟩ ⟨env₂, sink₂⟩ ⟨henv, rfl⟩
  have hrest := inStep_chainOf rounds cases fallback hcases hfallback hdeclares.1 hdeclares.2
    ⟨env₁, sink₁⟩ ⟨env₂.define name.lexeme value, sink₁⟩ ⟨henv.declare name.lexeme value, rfl⟩
  exact hrest.mono fun _ _ => World.Related.opened

theorem declaresCases_blocks (cases : List (Expr × List Stmt)) :
    Stmt.declaresCases (cases.map fun c => (c.1, .block c.2)) = false := by
  induction cases with
  | nil => rfl
  | cons c rest ih => simp [Stmt.declaresCases, Stmt.declares, ih]

theorem declaresOption_block (fallback : Option (List Stmt)) :
    Stmt.declaresOption (fallback.map .block) = false := by
  cases fallback with
  | none => rfl
  | some ss => rfl

/-- A switch is a chain of `if` statements on a subject that is evaluated once: with blocks for its
branches, it ends with the same flow or error, in the same environment and with the same output as
the block that declares a variable for the subject and compares the cases with it in order. The name
of the variable is any that the switch does not read or assign. -/
theorem exec_switch_eq_chain (subject : Expr) (cases : List (Expr × List Stmt))
    (fallback : Option (List Stmt)) (name : Token) (rounds : Nat) (w : World) :
    let branches : List (Expr × Stmt) := cases.map fun c => (c.1, .block c.2)
    let otherwise : Option Stmt := fallback.map .block
    name.lexeme ∉ (Stmt.switch subject branches otherwise).names →
      (Stmt.switch subject branches otherwise).exec rounds w =
        (Stmt.chain name subject branches otherwise).exec rounds w := by
  intro branches otherwise hname
  have hdeclares : (Stmt.switch subject branches otherwise).declares = false := by
    simp only [Stmt.declares, branches, otherwise, declaresCases_blocks, declaresOption_block,
      Bool.or_self]
  rw [exec_chain hname hdeclares]

/-- `switch (x) { case x = nil: break; case "a": print x; default: var x = y; exit; }`, where the first
case assigns to the variable that the subject was read from, and `t` stands for the subject. -/
theorem exec_switch_eq_chain_assigning :
    let x : Token := ⟨.identifier, "x", none, 1⟩
    let y : Token := ⟨.identifier, "y", none, 1⟩
    let t : Token := ⟨.identifier, "t", none, 1⟩
    let branches : List (Expr × Stmt) :=
      [(.assign x (.literal .nil), .block [.breakLoop]),
        (.literal (.string "a"), .block [.print (.reference x)])]
    let otherwise : Option Stmt := some (.block [.declare x (.reference y), .exitProgram])
    let w : World := ⟨Environment.empty.define "x" (.string "a"), .empty (some 1)⟩
    t.lexeme ∉ (Stmt.switch (.reference x) branches otherwise).names ∧
      (Stmt.switch (.reference x) branches otherwise).exec 5 w =
        (Stmt.chain t (.reference x) branches otherwise).exec 5 w := by
  intro x y t branches otherwise w
  have hname : t.lexeme ∉ (Stmt.switch (.reference x) branches otherwise).names := by decide
  exact ⟨hname, exec_switch_eq_chain (.reference x)
    [(.assign x (.literal .nil), [.breakLoop]),
      (.literal (.string "a"), [.print (.reference x)])]
    (some [.declare x (.reference y), .exitProgram]) t 5 w hname⟩

end Treewalk
