import Treewalk.Eval.Stmt
import Treewalk.Proofs.Syntax.Occurrences

set_option autoImplicit false
set_option relaxedAutoImplicit false

/-!
Runs with a record of what they do.

The execution of statements is repeated here with a list of events beside the world: which statements
are started, which expressions are evaluated, how each search for a variable ends and what is
written, each with its place in the program. Without the events, the recorded run is the run itself.
-/

namespace Treewalk

/-- What a run can be seen doing. -/
inductive Action where
  | starts (s : Stmt)
  | evaluates (e : Expr)
  /-- A variable is searched for, with the error that this raises, if any. -/
  | looksUp (error? : Option RuntimeError)
  | writes (text : String)

/-- Something that is done at a place of the program. -/
structure Event where
  place : Place
  action : Action

/-- A world with the events so far. -/
structure Recording where
  world : World
  events : List Event

/-- A computation on a world that is recorded. -/
abbrev Traced := EStateM Halt Recording

namespace Run

/-- A computation on the variables alone. -/
def ofEvaluation {α : Type} (m : Evaluation α) : Run α :=
  fun ⟨environment, sink⟩ =>
    match m environment with
    | .ok a environment => .ok a ⟨environment, sink⟩
    | .error e environment => .error (.error e) ⟨environment, sink⟩

theorem ofEvaluation_pure {α : Type} (a : α) : ofEvaluation (pure a) = pure a :=
  rfl

theorem ofEvaluation_bind {α β : Type} (m : Evaluation α) (f : α → Evaluation β) :
    ofEvaluation (m >>= f) = ofEvaluation m >>= fun a => ofEvaluation (f a) := by
  funext ⟨env, sink⟩
  show ofEvaluation (EStateM.bind m f) ⟨env, sink⟩ =
    EStateM.bind (ofEvaluation m) (fun a => ofEvaluation (f a)) ⟨env, sink⟩
  simp only [ofEvaluation, EStateM.bind]
  cases m env with
  | ok a env => rfl
  | error e env => rfl

theorem evaluate_eq (e : Expr) : evaluate e = ofEvaluation e.eval := by
  funext ⟨env, sink⟩
  simp only [evaluate, ofEvaluation]
  cases e.eval env with
  | ok value env => rfl
  | error e env => rfl

end Run

namespace Traced

variable {α β : Type}

/-- A computation without events. -/
def lift (m : Run α) : Traced α :=
  fun ⟨world, events⟩ =>
    match m world with
    | .ok a world => .ok a ⟨world, events⟩
    | .error h world => .error h ⟨world, events⟩

/-- Notes down an event. -/
def note (place : Place) (action : Action) : Traced Unit :=
  fun ⟨world, events⟩ => .ok () ⟨world, events ++ [⟨place, action⟩]⟩

/-- Reads or overwrites a variable, and notes down how that ends. -/
def lookUp (place : Place) (m : Evaluation α) : Traced α :=
  fun ⟨⟨environment, sink⟩, events⟩ =>
    match m environment with
    | .ok a environment => .ok a ⟨⟨environment, sink⟩, events ++ [⟨place, .looksUp none⟩]⟩
    | .error e environment =>
      .error (.error e) ⟨⟨environment, sink⟩, events ++ [⟨place, .looksUp (some e)⟩]⟩

/-- A result of an operator. -/
def ofExcept (result : Except RuntimeError α) : Traced α :=
  lift (Run.ofEvaluation (Evaluation.ofExcept result))

/-- Writes a line of text. -/
def writeLine (place : Place) (text : String) : Traced Unit := do
  note place (.writes text)
  lift (Run.writeLine text)

/-- Runs `body` in a scope of its own. -/
def inScope (body : Traced α) : Traced α :=
  fun ⟨⟨environment, sink⟩, events⟩ =>
    match body ⟨⟨environment.enter, sink⟩, events⟩ with
    | .ok a ⟨⟨environment, sink⟩, events⟩ => .ok a ⟨⟨environment.leave, sink⟩, events⟩
    | .error h ⟨⟨environment, sink⟩, events⟩ => .error h ⟨⟨environment.leave, sink⟩, events⟩

/-- Repeats `body` while `condition` holds. -/
def loop (condition : Traced Bool) (body : Traced Flow) (increment : Traced Unit) :
    Nat → Traced Flow
  | 0 => throw .outOfRounds
  | rounds + 1 => do
    let goesOn ← condition
    if goesOn then
      let flow ← body
      match flow with
      | .normal => loop condition body increment rounds
      | .breaks => pure .normal
      | .continues => do
        increment
        loop condition body increment rounds
      | .exits => pure .exits
    else pure .normal

end Traced

/-- Evaluates the expression at a place. -/
def Expr.trace (place : Place) (e : Expr) : Traced Value := do
  Traced.note place (.evaluates e)
  match e with
  | .literal value => pure value
  | .grouping inner => inner.trace (place ++ [0])
  | .unary operator operand => do
    let value ← operand.trace (place ++ [0])
    Traced.ofExcept (Operator.unary operator value)
  | .binary left operator right => do
    let leftValue ← left.trace (place ++ [0])
    let rightValue ← right.trace (place ++ [1])
    Traced.ofExcept (Operator.binary operator leftValue rightValue)
  | .logical left operator right => do
    let value ← left.trace (place ++ [0])
    if Operator.decides operator value then pure value else right.trace (place ++ [1])
  | .ternary condition ifTrue ifFalse => do
    let value ← condition.trace (place ++ [0])
    if value.isTruthy then ifTrue.trace (place ++ [1]) else ifFalse.trace (place ++ [2])
  | .reference name => Traced.lookUp place (Evaluation.get name)
  | .assign name value => do
    let result ← value.trace (place ++ [0])
    Traced.lookUp place (Evaluation.assign name result)
    pure result

/-- Evaluates the condition at a place. -/
def Expr.traceTest (place : Place) (e : Expr) : Traced Bool := do
  let value ← e.trace place
  pure value.isTruthy

namespace Stmt

mutual

/-- Executes the statement at a place. -/
def trace (rounds : Nat) (place : Place) (s : Stmt) : Traced Flow := do
  Traced.note place (.starts s)
  match s with
  | .expression value => do
    let _ ← value.trace (place ++ [0])
    pure .normal
  | .print value => do
    let result ← value.trace (place ++ [0])
    Traced.writeLine place result.text
    pure .normal
  | .declare name initializer => do
    let value ← initializer.trace (place ++ [0])
    Traced.lift (Run.define name.lexeme value)
    pure .normal
  | .block statements => Traced.inScope (traceAll rounds place 0 statements)
  | .branch condition thenBranch elseBranch => do
    let holds ← condition.traceTest (place ++ [0])
    if holds then thenBranch.trace rounds (place ++ [1])
    else traceOption rounds (place ++ [2]) elseBranch
  | .loop .whileLoop condition body =>
    Traced.loop (condition.traceTest (place ++ [0])) (body.trace rounds (place ++ [1])) (pure ())
      rounds
  | .loop .forLoop condition body =>
    Traced.loop (condition.traceTest (place ++ [0])) (body.trace rounds (place ++ [1]))
      (traceIncrement rounds (place ++ [1]) body) rounds
  | .switch subject cases fallback => do
    let value ← subject.trace (place ++ [0])
    traceCases rounds (place ++ [1]) 0 value (traceOption rounds (place ++ [2]) fallback) cases
  | .breakLoop => pure .breaks
  | .continueLoop => pure .continues
  | .exitProgram => pure .exits

/-- Executes the statements of the list at a place, from the given position on. -/
def traceAll (rounds : Nat) (place : Place) (position : Nat) : List Stmt → Traced Flow
  | [] => pure .normal
  | s :: rest => do
    let flow ← s.trace rounds (place ++ [position])
    match flow with
    | .normal => traceAll rounds place (position + 1) rest
    | other => pure other

/-- Executes a statement if there is one. -/
def traceOption (rounds : Nat) (place : Place) : Option Stmt → Traced Flow
  | none => pure .normal
  | some s => s.trace rounds place

/-- Executes the first branch whose value equals the subject, from the given position on. -/
def traceCases (rounds : Nat) (place : Place) (position : Nat) (subject : Value)
    (otherwise : Traced Flow) : List (Expr × Stmt) → Traced Flow
  | [] => otherwise
  | (condition, body) :: rest => do
    let value ← condition.trace (place ++ [position, 0])
    if value.equals subject then body.trace rounds (place ++ [position, 1])
    else traceCases rounds place (position + 1) subject otherwise rest

/-- Executes the increment of a `for` loop whose body is at a place. -/
def traceIncrement (rounds : Nat) (place : Place) : Stmt → Traced Unit
  | .block [_, increment] => do
    let _ ← increment.trace rounds (place ++ [1])
    pure ()
  | _ => pure ()

end

end Stmt

/-- Executes the statements of a program from the given position on. -/
def Program.traceFrom (rounds : Nat) (position : Nat) : Program → Traced Completion
  | [] => pure .finished
  | s :: rest => do
    let flow ← s.trace rounds [position]
    match flow with
    | .exits => pure .exited
    | _ => Program.traceFrom rounds (position + 1) rest

/-- Executes a program. -/
def Program.trace (rounds : Nat) (p : Program) : Traced Completion :=
  p.traceFrom rounds 0

namespace Traced

variable {α β : Type}

/-- The end of a recorded run without its events. -/
def forget : EStateM.Result Halt Recording α → EStateM.Result Halt World α
  | .ok a r => .ok a r.world
  | .error h r => .error h r.world

/-- Without the events, the recorded computation is the other one. -/
def Erases (m : Traced α) (n : Run α) : Prop :=
  ∀ r, forget (m r) = n r.world

theorem Erases.pure (a : α) : Erases (Pure.pure a) (Pure.pure a) :=
  fun _ => rfl

theorem Erases.throw (h : Halt) :
    Erases (MonadExcept.throw h : Traced α) (MonadExcept.throw h) :=
  fun _ => rfl

theorem Erases.bind {m : Traced α} {n : Run α} {f : α → Traced β} {g : α → Run β}
    (hm : Erases m n) (hf : ∀ a, Erases (f a) (g a)) : Erases (m >>= f) (n >>= g) := by
  intro r
  have hfirst := hm r
  show forget (EStateM.bind m f r) = EStateM.bind n g r.world
  simp only [EStateM.bind]
  cases h : m r with
  | ok a r' =>
    rw [h] at hfirst
    rw [← hfirst]
    exact hf a r'
  | error e r' =>
    rw [h] at hfirst
    rw [← hfirst]
    rfl

theorem Erases.lift (m : Run α) : Erases (lift m) m := by
  intro r
  simp only [Traced.lift]
  cases m r.world with
  | ok a w => rfl
  | error h w => rfl

/-- Notes are no part of what is done. -/
theorem Erases.noted {m : Traced α} {n : Run α} (place : Place) (action : Action)
    (h : Erases m n) : Erases (note place action >>= fun _ => m) n := by
  rintro ⟨world, events⟩
  exact h ⟨world, events ++ [⟨place, action⟩]⟩

theorem Erases.lookUp (place : Place) (m : Evaluation α) :
    Erases (lookUp place m) (Run.ofEvaluation m) := by
  rintro ⟨⟨env, sink⟩, events⟩
  simp only [Traced.lookUp, Run.ofEvaluation]
  cases m env with
  | ok a env' => rfl
  | error e env' => rfl

theorem Erases.writeLine (place : Place) (text : String) :
    Erases (writeLine place text) (Run.writeLine text) :=
  .noted place _ (.lift _)

theorem Erases.inScope {m : Traced α} {n : Run α} (h : Erases m n) :
    Erases (inScope m) (Run.inScope n) := by
  rintro ⟨⟨env, sink⟩, events⟩
  have hinner : forget (m ⟨⟨env.enter, sink⟩, events⟩) = n ⟨env.enter, sink⟩ := h _
  simp only [Traced.inScope, Run.inScope]
  rw [← hinner]
  cases m ⟨⟨env.enter, sink⟩, events⟩ with
  | ok a r => rfl
  | error e r => rfl

theorem Erases.loop {condition : Traced Bool} {body : Traced Flow} {increment : Traced Unit}
    {condition' : Run Bool} {body' : Run Flow} {increment' : Run Unit}
    (hc : Erases condition condition') (hb : Erases body body')
    (hi : Erases increment increment') (rounds : Nat) :
    Erases (loop condition body increment rounds)
      (Run.loop condition' body' increment' rounds) := by
  induction rounds with
  | zero => exact .throw _
  | succ rounds ih =>
    refine .bind hc fun goesOn => ?_
    cases goesOn with
    | false => exact .pure _
    | true =>
      refine .bind hb fun flow => ?_
      cases flow with
      | normal => exact ih
      | breaks => exact .pure _
      | continues => exact .bind hi fun _ => ih
      | exits => exact .pure _

section Ends

/-- A recorded run has come to its end with `Q`, or has been stopped with `E`. -/
def EndsWith (Q : Recording → Prop) (E : Halt → Recording → Prop) :
    EStateM.Result Halt Recording α → Prop
  | .ok _ r => Q r
  | .error stop r => E stop r

/-- From a recording with `P`, a computation comes to its end with `Q`, or is stopped with `E`. -/
def Keeps (P Q : Recording → Prop) (E : Halt → Recording → Prop) (m : Traced α) : Prop :=
  ∀ r, P r → EndsWith Q E (m r)

variable {P Q R : Recording → Prop} {E : Halt → Recording → Prop}

theorem Keeps.pure (a : α) : Keeps P P E (Pure.pure a) :=
  fun _ h => h

theorem Keeps.mono {m : Traced α} (hm : Keeps P Q E m) (h : ∀ r, Q r → R r) : Keeps P R E m := by
  intro r hr
  have hends := hm r hr
  cases hresult : m r with
  | ok a r' =>
    rw [hresult] at hends
    exact h r' hends
  | error stop r' =>
    rw [hresult] at hends
    exact hends

theorem Keeps.bind {m : Traced α} {f : α → Traced β} (hm : Keeps P Q E m)
    (hf : ∀ a, Keeps Q R E (f a)) : Keeps P R E (m >>= f) := by
  intro r hr
  have hfirst := hm r hr
  show EndsWith R E (EStateM.bind m f r)
  simp only [EStateM.bind]
  cases h : m r with
  | ok a r' =>
    rw [h] at hfirst
    exact hf a r' hfirst
  | error stop r' =>
    rw [h] at hfirst
    exact hfirst

/-- A loop keeps what its parts keep. -/
theorem Keeps.loop {condition : Traced Bool} {body : Traced Flow} {increment : Traced Unit}
    (hc : Keeps P P E condition) (hb : Keeps P P E body) (hi : Keeps P P E increment)
    (hstop : ∀ r, P r → E .outOfRounds r) (rounds : Nat) :
    Keeps P P E (loop condition body increment rounds) := by
  induction rounds with
  | zero => exact hstop
  | succ rounds ih =>
    refine .bind hc fun goesOn => ?_
    cases goesOn with
    | false => exact .pure _
    | true =>
      refine .bind hb fun flow => ?_
      cases flow with
      | normal => exact ih
      | breaks => exact .pure _
      | continues => exact .bind hi fun _ => ih
      | exits => exact .pure _

end Ends

end Traced

open Traced

theorem Expr.erases_trace (e : Expr) (place : Place) :
    Erases (e.trace place) (Run.evaluate e) := by
  rw [Run.evaluate_eq]
  induction e generalizing place with
  | literal value => exact .noted place _ (.pure value)
  | grouping inner ih => exact .noted place _ (ih _)
  | unary operator operand ih =>
    rw [Expr.eval, Run.ofEvaluation_bind]
    exact .noted place _ (.bind (ih _) fun value => .lift _)
  | binary left operator right ihl ihr =>
    simp only [Expr.eval, Run.ofEvaluation_bind]
    exact .noted place _ (.bind (ihl _) fun leftValue => .bind (ihr _) fun rightValue => .lift _)
  | logical left operator right ihl ihr =>
    rw [Expr.eval, Run.ofEvaluation_bind]
    refine .noted place _ (.bind (ihl _) fun value => ?_)
    split
    · exact .pure value
    · exact ihr _
  | ternary condition ifTrue ifFalse ihc iht ihf =>
    rw [Expr.eval, Run.ofEvaluation_bind]
    refine .noted place _ (.bind (ihc _) fun value => ?_)
    split
    · exact iht _
    · exact ihf _
  | reference name => exact .noted place _ (.lookUp place _)
  | assign name value ih =>
    simp only [Expr.eval, Run.ofEvaluation_bind, Run.ofEvaluation_pure]
    exact .noted place _ (.bind (ih _) fun result =>
      .bind (.lookUp place _) fun _ => .pure result)

theorem Expr.erases_traceTest (e : Expr) (place : Place) :
    Erases (e.traceTest place) (Run.test e) :=
  .bind (e.erases_trace place) fun _ => .pure _

namespace Stmt

mutual

/-- Without the events, the recorded run of a statement is the run. -/
theorem erases_trace (rounds : Nat) (s : Stmt) (place : Place) :
    Erases (s.trace rounds place) (s.exec rounds) := by
  unfold trace
  refine .noted place _ ?_
  match s with
  | .expression value => exact .bind (value.erases_trace _) fun _ => .pure _
  | .print value =>
    exact .bind (value.erases_trace _) fun result => .bind (.writeLine _ _) fun _ => .pure _
  | .declare name initializer =>
    exact .bind (initializer.erases_trace _) fun value => .bind (.lift _) fun _ => .pure _
  | .block statements => exact .inScope (erases_traceAll rounds statements place 0)
  | .branch condition thenBranch elseBranch =>
    refine .bind (condition.erases_traceTest _) fun holds => ?_
    cases holds with
    | true => exact erases_trace rounds thenBranch _
    | false => exact erases_traceOption rounds elseBranch _
  | .loop .whileLoop condition body =>
    exact .loop (condition.erases_traceTest _) (erases_trace rounds body _) (.pure ()) rounds
  | .loop .forLoop condition body =>
    exact .loop (condition.erases_traceTest _) (erases_trace rounds body _)
      (erases_traceIncrement rounds body _) rounds
  | .switch subject cases fallback =>
    exact .bind (subject.erases_trace _) fun value =>
      erases_traceCases rounds value cases _ 0 (erases_traceOption rounds fallback _)
  | .breakLoop => exact .pure _
  | .continueLoop => exact .pure _
  | .exitProgram => exact .pure _

theorem erases_traceAll (rounds : Nat) (ss : List Stmt) (place : Place) (position : Nat) :
    Erases (traceAll rounds place position ss) (execAll rounds ss) := by
  match ss with
  | [] => exact .pure _
  | s :: rest =>
    refine .bind (erases_trace rounds s _) fun flow => ?_
    cases flow with
    | normal => exact erases_traceAll rounds rest place (position + 1)
    | breaks => exact .pure _
    | continues => exact .pure _
    | exits => exact .pure _

theorem erases_traceOption (rounds : Nat) (o : Option Stmt) (place : Place) :
    Erases (traceOption rounds place o) (execOption rounds o) := by
  match o with
  | none => exact .pure _
  | some s => exact erases_trace rounds s place

theorem erases_traceCases (rounds : Nat) (subject : Value) (cases : List (Expr × Stmt))
    (place : Place) (position : Nat) {otherwise : Traced Flow} {otherwise' : Run Flow}
    (h : Erases otherwise otherwise') :
    Erases (traceCases rounds place position subject otherwise cases)
      (execCases rounds subject otherwise' cases) := by
  match cases with
  | [] => exact h
  | (condition, body) :: rest =>
    refine .bind (condition.erases_trace _) fun value => ?_
    split
    · exact erases_trace rounds body _
    · exact erases_traceCases rounds subject rest place (position + 1) h

theorem erases_traceIncrement (rounds : Nat) (body : Stmt) (place : Place) :
    Erases (traceIncrement rounds place body) (execIncrement rounds body) := by
  match body with
  | .block [_, increment] => exact .bind (erases_trace rounds increment _) fun _ => .pure _
  | .block [] => exact .pure ()
  | .block [_] => exact .pure ()
  | .block (_ :: _ :: _ :: _) => exact .pure ()
  | .expression _ => exact .pure ()
  | .print _ => exact .pure ()
  | .declare _ _ => exact .pure ()
  | .branch _ _ _ => exact .pure ()
  | .loop _ _ _ => exact .pure ()
  | .switch _ _ _ => exact .pure ()
  | .breakLoop => exact .pure ()
  | .continueLoop => exact .pure ()
  | .exitProgram => exact .pure ()

end

end Stmt

theorem Program.erases_traceFrom (rounds : Nat) (p : Program) (position : Nat) :
    Erases (p.traceFrom rounds position) (p.exec rounds) := by
  induction p generalizing position with
  | nil => exact .pure _
  | cons s rest ih =>
    refine .bind (s.erases_trace rounds _) fun flow => ?_
    cases flow with
    | normal => exact ih _
    | breaks => exact ih _
    | continues => exact ih _
    | exits => exact .pure _

/-- Without the events, the recorded run of a program is the run. -/
theorem Program.erases_trace (rounds : Nat) (p : Program) :
    Erases (p.trace rounds) (p.exec rounds) :=
  p.erases_traceFrom rounds 0

end Treewalk
