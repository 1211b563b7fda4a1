import Treewalk.Parse.Stmt
import Treewalk.Proofs.Eval.Frame
import Treewalk.Proofs.Grammar.Statements

set_option autoImplicit false
set_option relaxedAutoImplicit false

/-!
What `for` loops mean.

A `for` loop is read as a loop over a block that holds the body and the increment. After a round
that ends normally the increment is run inside of that block, after `continue` outside of it.
`Run.forLoop` is the loop as it is meant, with one place for the increment, and `exec_forStatement`
says that the two cannot be told apart.
-/

namespace Treewalk

open Treewalk.Parser (ForClauses)

namespace Run

/-- The rounds of a `for` loop: test, run the body, and run the increment once, unless the body has
ended the loop or the program. -/
def forRounds (condition : Run Bool) (body : Run Flow) (increment : Run Unit) : Nat → Run Flow
  | 0 => throw .outOfRounds
  | rounds + 1 => do
    let goesOn ← condition
    if goesOn then
      let flow ← body
      if flow = .breaks then pure .normal
      else if flow = .exits then pure .exits
      else do
        increment
        forRounds condition body increment rounds
    else pure .normal

/-- Evaluates an expression for its effects, if there is one. -/
def evaluateOption : Option Expr → Run Unit
  | none => pure ()
  | some e => do
    let _ ← evaluate e
    pure ()

/-- Tests a condition; one that is missing holds. -/
def testOption : Option Expr → Run Bool
  | none => pure true
  | some e => test e

/-- A `for` loop. Its initializer is run in a scope that is there for the whole loop. -/
def forLoop (rounds : Nat) (clauses : ForClauses) (body : Stmt) : Run Flow :=
  let loop := forRounds (testOption clauses.condition) (body.exec rounds)
    (evaluateOption clauses.increment) rounds
  match clauses.initializer with
  | none => loop
  | some initializer => inScope do
    let _ ← initializer.exec rounds
    loop

end Run

theorem Run.test_condition (condition : Option Expr) :
    Run.test (condition.getD (.literal (.boolean true))) = Run.testOption condition := by
  cases condition with
  | none => rfl
  | some e => rfl

/-- The body and, if it ends normally, the increment behind it. -/
def Run.round (body : Run Flow) (increment : Run Unit) : Run Flow := do
  let flow ← body
  match flow with
  | .normal => do
    increment
    pure .normal
  | other => pure other

/-- The block that a `for` loop repeats does the body and then the increment. The body declares
nothing, so the block need not be there. -/
theorem exec_roundBlock {body : Stmt} (h : body.declares = false) (increment : Option Expr)
    (rounds : Nat) :
    (Stmt.block (body :: increment.toList.map .expression)).exec rounds =
      Run.round (body.exec rounds) (Run.evaluateOption increment) := by
  have hdeclares : ∀ s ∈ body :: increment.toList.map Stmt.expression, s.declares = false := by
    intro s hs
    rcases List.mem_cons.mp hs with rfl | hincrement
    · exact h
    · obtain ⟨e, -, rfl⟩ := List.mem_map.mp hincrement
      rfl
  rw [Stmt.exec_block_eq_execAll hdeclares]
  apply bind_congr
  intro flow
  cases flow with
  | normal =>
    cases increment with
    | none => rfl
    | some e => simp [Stmt.execAll, Stmt.exec, Run.evaluateOption]
  | breaks => rfl
  | continues => rfl
  | exits => rfl

/-- What makes up for the rest of the block after `continue` is the increment. -/
theorem execIncrement_roundBlock (body : Stmt) (increment : Option Expr) (rounds : Nat) :
    Stmt.execIncrement rounds (.block (body :: increment.toList.map .expression)) =
      Run.evaluateOption increment := by
  cases increment with
  | none => rfl
  | some e => simp [Stmt.execIncrement, Stmt.exec, Run.evaluateOption]

theorem Run.round_bind (body : Run Flow) (increment : Run Unit) (k : Flow → Run Flow) :
    (Run.round body increment >>= k) = (do
      let flow ← body
      match flow with
      | .normal => do
        increment
        k .normal
      | other => k other) := by
  rw [Run.round, bind_assoc]
  apply bind_congr
  intro flow
  cases flow with
  | normal => exact (bind_assoc ..).trans (bind_congr fun _ => pure_bind ..)
  | breaks => exact pure_bind ..
  | continues => exact pure_bind ..
  | exits => exact pure_bind ..

/-- It does not matter that the increment is run in two places. -/
theorem Run.loop_round (condition : Run Bool) (body : Run Flow) (increment : Run Unit)
    (rounds : Nat) :
    Run.loop condition (Run.round body increment) increment rounds =
      Run.forRounds condition body increment rounds := by
  induction rounds with
  | zero => rfl
  | succ rounds ih =>
    apply bind_congr
    intro goesOn
    cases goesOn with
    | false => rfl
    | true =>
      simp only [if_true]
      rw [Run.round_bind]
      apply bind_congr
      intro flow
      cases flow with
      | normal => exact bind_congr fun _ => ih
      | breaks => rfl
      | continues => exact bind_congr fun _ => ih
      | exits => rfl

/-- Without increment, a round is the body. -/
theorem Run.round_pure (body : Run Flow) : Run.round body (pure ()) = body := by
  refine Eq.trans (bind_congr fun flow => ?_) (bind_pure body)
  cases flow with
  | normal => rfl
  | breaks => rfl
  | continues => rfl
  | exits => rfl

theorem exec_forClauses_loop {body : Stmt} (h : body.declares = false) (clauses : ForClauses)
    (rounds : Nat) :
    (clauses.loop body).exec rounds =
      Run.loop (Run.testOption clauses.condition)
        (Run.round (body.exec rounds) (Run.evaluateOption clauses.increment))
        (Run.evaluateOption clauses.increment) rounds := by
  rw [ForClauses.loop, Stmt.exec, exec_roundBlock h, execIncrement_roundBlock, Run.test_condition]

theorem Stmt.execAll_singleton (s : Stmt) (rounds : Nat) :
    Stmt.execAll rounds [s] = s.exec rounds :=
  Run.round_pure (s.exec rounds)

/-- An initializer never ends the block that it stands in. -/
theorem execAll_initializer {initializer : Stmt} (h : initializer.isInitializer) (loop : Stmt)
    (rounds : Nat) :
    Stmt.execAll rounds [initializer, loop] = (do
      let _ ← initializer.exec rounds
      loop.exec rounds) := by
  rw [Stmt.execAll, Stmt.execAll_singleton]
  cases initializer with
  | expression value => simp only [Stmt.exec, bind_assoc, pure_bind]
  | declare name value => simp only [Stmt.exec, bind_assoc, pure_bind]
  | _ => contradiction

theorem exec_statement_eq_forLoop {clauses : ForClauses} {body : Stmt}
    (hi : ∀ s ∈ clauses.initializer, s.isInitializer) (hb : body.declares = false)
    (rounds : Nat) :
    (clauses.statement body).exec rounds = Run.forLoop rounds clauses body := by
  obtain ⟨initializer, condition, increment⟩ := clauses
  cases initializer with
  | none => exact (exec_forClauses_loop hb _ rounds).trans (Run.loop_round ..)
  | some s =>
    have hs : s.isInitializer := hi s rfl
    simp only [ForClauses.statement, Stmt.exec, Run.forLoop]
    rw [execAll_initializer hs, exec_forClauses_loop hb, Run.loop_round]

/-- Every `for` statement of the grammar is a loop as it is meant: its initializer and its body have
the form that this takes. -/
theorem Grammar.Statement.exec_forLoop_tree {inLoop dangling : Bool} (head : Grammar.ForHead)
    (body : Grammar.Statement true dangling) (rounds : Nat) :
    (forLoop head body : Grammar.Statement inLoop dangling).tree.exec rounds =
      Run.forLoop rounds head.clauses body.tree := by
  rw [tree, ← head.statement_clauses]
  exact exec_statement_eq_forLoop head.initializer.isInitializer_tree body.declares_tree rounds

/-- The statement that a `for` loop is read as does what a `for` loop should do. Without initializer
and increment that is what a `while` loop does. -/
theorem exec_forStatement (rounds : Nat) (clauses : ForClauses) (body : Stmt)
    (hi : ∀ s ∈ clauses.initializer, s.isInitializer) (hb : body.declares = false) :
    (clauses.statement body).exec rounds = Run.forLoop rounds clauses body ∧
      (clauses.initializer = none → clauses.increment = none →
        (clauses.statement body).exec rounds =
          (Stmt.loop .whileLoop (clauses.condition.getD (.literal (.boolean true))) body).exec
            rounds) := by
  obtain ⟨initializer, condition, increment⟩ := clauses
  constructor
  · exact exec_statement_eq_forLoop hi hb rounds
  · rintro rfl rfl
    have hloop := exec_forClauses_loop hb ⟨none, condition, none⟩ rounds
    simp only [Run.evaluateOption, Run.round_pure] at hloop
    rw [ForClauses.statement, hloop, Stmt.exec, Run.test_condition]

/-- `for (var i = true; i; i = nil) if (i) continue; else { var i; }` -/
theorem exec_forStatement_continue :
    let name : Token := ⟨.identifier, "i", none, 1⟩
    let clauses : ForClauses :=
      ⟨some (.declare name (.literal (.boolean true))), some (.reference name),
        some (.assign name (.literal .nil))⟩
    let body : Stmt :=
      .branch (.reference name) .continueLoop (some (.block [.declare name (.literal .nil)]))
    (∀ s ∈ clauses.initializer, s.isInitializer) ∧ body.declares = false ∧
      (clauses.statement body).exec 5 = Run.forLoop 5 clauses body := by
  intro name clauses body
  have hi : ∀ s ∈ clauses.initializer, s.isInitializer := by simp [clauses, Stmt.isInitializer]
  have hb : body.declares = false := rfl
  exact ⟨hi, hb, (exec_forStatement 5 clauses body hi hb).1⟩

end Treewalk
