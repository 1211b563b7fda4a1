import Treewalk.Proofs.Eval.Trace
import Treewalk.Proofs.Syntax.Expressions
import Treewalk.Session

set_option autoImplicit false
set_option relaxedAutoImplicit false

/-!
What statements are made of.

A statement does nothing but evaluate its expressions, write, declare variables and open scopes.
A property that all of these have, and that is kept where runs are put together, is a property of
every statement. The induction over statements is made here, once for all such properties, and once
more for the properties of recorded runs.
-/

namespace Treewalk

namespace Run

/-- A property of runs that the parts of statements have, as far as their expressions have `E`, and
that putting runs together keeps. -/
structure Compositional (E : Expr → Prop) (P : (α : Type) → Run α → Prop) : Prop where
  pure : ∀ {α : Type} (a : α), P α (Pure.pure a)
  outOfRounds : P Flow (throw .outOfRounds)
  bind : ∀ {α β : Type} {m : Run α} {f : α → Run β}, P α m → (∀ a, P β (f a)) → P β (m >>= f)
  evaluate : ∀ {e : Expr}, E e → P Value (evaluate e)
  writeLine : ∀ text : String, P Unit (writeLine text)
  define : ∀ (name : String) (value : Value), P Unit (define name value)
  inScope : ∀ {m : Run Flow}, P Flow m → P Flow (inScope m)

variable {E : Expr → Prop} {P : (α : Type) → Run α → Prop}

theorem Compositional.test (h : Compositional E P) {e : Expr} (he : E e) : P Bool (Run.test e) :=
  h.bind (h.evaluate he) fun _ => h.pure _

theorem Compositional.loop (h : Compositional E P) {condition : Run Bool} {body : Run Flow}
    {increment : Run Unit} (hc : P Bool condition) (hb : P Flow body) (hi : P Unit increment)
    (rounds : Nat) : P Flow (Run.loop condition body increment rounds) := by
  induction rounds with
  | zero => exact h.outOfRounds
  | succ rounds ih =>
    refine h.bind hc fun goesOn => ?_
    cases goesOn with
    | false => exact h.pure _
    | true =>
      refine h.bind hb fun flow => ?_
      cases flow with
      | normal => exact ih
      | breaks => exact h.pure _
      | continues => exact h.bind hi fun _ => ih
      | exits => exact h.pure _

end Run

open Run

variable {E : Expr → Prop} {P : (α : Type) → Run α → Prop}

namespace Stmt

mutual

/-- What putting runs together keeps holds of a statement. -/
theorem holds_exec (h : Compositional E P) (rounds : Nat) (s : Stmt)
    (hE : ∀ e ∈ s.expressions, E e) : P Flow (s.exec rounds) := by
  match s with
  | .expression value =>
    exact h.bind (h.evaluate (List.forall_mem_singleton.mp hE)) fun _ => h.pure _
  | .print value =>
    refine h.bind (h.evaluate (List.forall_mem_singleton.mp hE)) fun result => ?_
    exact h.bind (h.writeLine _) fun _ => h.pure _
  | .declare name initializer =>
    refine h.bind (h.evaluate (List.forall_mem_singleton.mp hE)) fun value => ?_
    exact h.bind (h.define _ _) fun _ => h.pure _
  | .block statements => exact h.inScope (holds_execAll h rounds statements hE)
  | .branch condition thenBranch elseBranch =>
    obtain ⟨hcondition, hbranches⟩ := List.forall_mem_cons.mp hE
    obtain ⟨hthen, helse⟩ := List.forall_mem_append.mp hbranches
    refine h.bind (h.test hcondition) fun holds => ?_
    cases holds with
    | true => exact holds_exec h rounds thenBranch hthen
    | false => exact holds_execOption h rounds elseBranch helse
  | .loop .whileLoop condition body =>
    obtain ⟨hcondition, hbody⟩ := List.forall_mem_cons.mp hE
    exact h.loop (h.test hcondition) (holds_exec h rounds body hbody) (h.pure ()) rounds
  | .loop .forLoop condition body =>
    obtain ⟨hcondition, hbody⟩ := List.forall_mem_cons.mp hE
    exact h.loop (h.test hcondition) (holds_exec h rounds body hbody)
      (holds_execIncrement h rounds body hbody) rounds
  | .switch subject cases fallback =>
    obtain ⟨hsubject, hbranches⟩ := List.forall_mem_cons.mp hE
    obtain ⟨hcases, hfallback⟩ := List.forall_mem_append.mp hbranches
    exact h.bind (h.evaluate hsubject) fun value =>
      holds_execCases h rounds value cases hcases (holds_execOption h rounds fallback hfallback)
  | .breakLoop => exact h.pure _
  | .continueLoop => exact h.pure _
  | .exitProgram => exact h.pure _

theorem holds_execAll (h : Compositional E P) (rounds : Nat) (ss : List Stmt)
    (hE : ∀ e ∈ expressionsOfAll ss, E e) : P Flow (execAll rounds ss) := by
  match ss with
  | [] => exact h.pure _
  | s :: rest =>
    obtain ⟨hs, hrest⟩ := List.forall_mem_append.mp hE
    refine h.bind (holds_exec h rounds s hs) fun flow => ?_
    cases flow with
    | normal => exact holds_execAll h rounds rest hrest
    | breaks => exact h.pure _
    | continues => exact h.pure _
    | exits => exact h.pure _

theorem holds_execOption (h : Compositional E P) (rounds : Nat) (o : Option Stmt)
    (hE : ∀ e ∈ expressionsOfOption o, E e) : P Flow (execOption rounds o) := by
  match o with
  | none => exact h.pure _
  | some s => exact holds_exec h rounds s hE

theorem holds_execCases (h : Compositional E P) (rounds : Nat) (subject : Value)
    (cases : List (Expr × Stmt)) (hE : ∀ e ∈ expressionsOfCases cases, E e)
    {otherwise : Run Flow} (ho : P Flow otherwise) :
    P Flow (execCases rounds subject otherwise cases) := by
  match cases with
  | [] => exact ho
  | (condition, body) :: rest =>
    obtain ⟨hcondition, hbranches⟩ := List.forall_mem_cons.mp hE
    obtain ⟨hbody, hrest⟩ := List.forall_mem_append.mp hbranches
    refine h.bind (h.evaluate hcondition) fun value => ?_
    split
    · exact holds_exec h rounds body hbody
    · exact holds_execCases h rounds subject rest hrest ho

theorem holds_execIncrement (h : Compositional E P) (rounds : Nat) (body : Stmt)
    (hE : ∀ e ∈ body.expressions, E e) : P Unit (execIncrement rounds body) := by
  match body with
  | .block [first, increment] =>
    obtain ⟨-, hrest⟩ := List.forall_mem_append.mp hE
    obtain ⟨hincrement, -⟩ := List.forall_mem_append.mp hrest
    exact h.bind (holds_exec h rounds increment hincrement) fun _ => h.pure _
  | .block [] => exact h.pure ()
  | .block [_] => exact h.pure ()
  | .block (_ :: _ :: _ :: _) => exact h.pure ()
  | .expression _ => exact h.pure ()
  | .print _ => exact h.pure ()
  | .declare _ _ => exact h.pure ()
  | .branch _ _ _ => exact h.pure ()
  | .loop _ _ _ => exact h.pure ()
  | .switch _ _ _ => exact h.pure ()
  | .breakLoop => exact h.pure ()
  | .continueLoop => exact h.pure ()
  | .exitProgram => exact h.pure ()

end

end Stmt

theorem Program.holds_exec (h : Compositional E P) (rounds : Nat) (p : Program)
    (hE : ∀ e ∈ Stmt.expressionsOfAll p, E e) : P Completion (Program.exec rounds p) := by
  induction p with
  | nil => exact h.pure _
  | cons s rest ih =>
    obtain ⟨hs, hrest⟩ := List.forall_mem_append.mp hE
    refine h.bind (s.holds_exec h rounds hs) fun flow => ?_
    cases flow with
    | normal => exact ih hrest
    | breaks => exact ih hrest
    | continues => exact ih hrest
    | exits => exact h.pure _

/-- What putting runs together keeps holds of an entry. -/
theorem Session.holds_executeEntry (h : Compositional E P) (rounds : Nat) (entry : Entry)
    (hE : ∀ e ∈ entry.expressions, E e) : P Outcome (executeEntry rounds entry) := by
  cases entry with
  | program p => exact h.bind (Program.holds_exec h rounds p hE) fun _ => h.pure _
  | expression e =>
    refine h.bind (h.evaluate (List.forall_mem_singleton.mp hE)) fun value => ?_
    exact h.bind (h.writeLine _) fun _ => h.pure _

namespace Traced

/-- A property of recorded runs that the parts of statements have, and that putting recorded runs
together keeps. -/
structure Compositional (P : (α : Type) → Traced α → Prop) : Prop where
  pure : ∀ {α : Type} (a : α), P α (Pure.pure a)
  outOfRounds : P Flow (throw .outOfRounds)
  bind : ∀ {α β : Type} {m : Traced α} {f : α → Traced β}, P α m → (∀ a, P β (f a)) → P β (m >>= f)
  note : ∀ (place : Place) (action : Action), P Unit (note place action)
  lookUp : ∀ {α : Type} (place : Place) (m : Evaluation α), P α (lookUp place m)
  ofExcept : ∀ {α : Type} (result : Except RuntimeError α), P α (ofExcept result)
  writeLine : ∀ (place : Place) (text : String), P Unit (writeLine place text)
  define : ∀ (name : String) (value : Value), P Unit (lift (Run.define name value))
  inScope : ∀ {m : Traced Flow}, P Flow m → P Flow (inScope m)

variable {P : (α : Type) → Traced α → Prop}

theorem Compositional.loop (h : Compositional P) {condition : Traced Bool} {body : Traced Flow}
    {increment : Traced Unit} (hc : P Bool condition) (hb : P Flow body) (hi : P Unit increment)
    (rounds : Nat) : P Flow (Traced.loop condition body increment rounds) := by
  induction rounds with
  | zero => exact h.outOfRounds
  | succ rounds ih =>
    refine h.bind hc fun goesOn => ?_
    cases goesOn with
    | false => exact h.pure _
    | true =>
      refine h.bind hb fun flow => ?_
      cases flow with
      | normal => exact ih
      | breaks => exact h.pure _
      | continues => exact h.bind hi fun _ => ih
      | exits => exact h.pure _

end Traced

variable {P : (α : Type) → Traced α → Prop}

/-- What putting recorded runs together keeps holds of an expression. -/
theorem Expr.holds_trace (h : Traced.Compositional P) (e : Expr) (place : Place) :
    P Value (e.trace place) := by
  induction e generalizing place with
  | literal value => exact h.bind (h.note _ _) fun _ => h.pure value
  | grouping inner ih => exact h.bind (h.note _ _) fun _ => ih _
  | unary operator operand ih =>
    refine h.bind (h.note _ _) fun _ => ?_
    exact h.bind (ih _) fun value => h.ofExcept _
  | binary left operator right ihl ihr =>
    refine h.bind (h.note _ _) fun _ => ?_
    exact h.bind (ihl _) fun leftValue => h.bind (ihr _) fun rightValue => h.ofExcept _
  | logical left operator right ihl ihr =>
    refine h.bind (h.note _ _) fun _ => h.bind (ihl _) fun value => ?_
    split
    · exact h.pure value
    · exact ihr _
  | ternary condition ifTrue ifFalse ihc iht ihf =>
    refine h.bind (h.note _ _) fun _ => h.bind (ihc _) fun value => ?_
    split
    · exact iht _
    · exact ihf _
  | reference name => exact h.bind (h.note _ _) fun _ => h.lookUp _ _
  | assign name value ih =>
    refine h.bind (h.note _ _) fun _ => h.bind (ih _) fun result => ?_
    exact h.bind (h.lookUp _ _) fun _ => h.pure result

theorem Expr.holds_traceTest (h : Traced.Compositional P) (e : Expr) (place : Place) :
    P Bool (e.traceTest place) :=
  h.bind (e.holds_trace h place) fun _ => h.pure _

namespace Stmt

mutual

/-- What putting recorded runs together keeps holds of a statement. -/
theorem holds_trace (h : Traced.Compositional P) (rounds : Nat) (s : Stmt) (place : Place) :
    P Flow (s.trace rounds place) := by
  unfold trace
  refine h.bind (h.note _ _) fun _ => ?_
  match s with
  | .expression value => exact h.bind (value.holds_trace h _) fun _ => h.pure _
  | .print value =>
    refine h.bind (value.holds_trace h _) fun result => ?_
    exact h.bind (h.writeLine _ _) fun _ => h.pure _
  | .declare name initializer =>
    refine h.bind (initializer.holds_trace h _) fun value => ?_
    exact h.bind (h.define _ _) fun _ => h.pure _
  | .block statements => exact h.inScope (holds_traceAll h rounds statements place 0)
  | .branch condition thenBranch elseBranch =>
    refine h.bind (condition.holds_traceTest h _) fun holds => ?_
    cases holds with
    | true => exact holds_trace h rounds thenBranch _
    | false => exact holds_traceOption h rounds elseBranch _
  | .loop .whileLoop condition body =>
    exact h.loop (condition.holds_traceTest h _) (holds_trace h rounds body _) (h.pure ()) rounds
  | .loop .forLoop condition body =>
    exact h.loop (condition.holds_traceTest h _) (holds_trace h rounds body _)
      (holds_traceIncrement h rounds body _) rounds
  | .switch subject cases fallback =>
    exact h.bind (subject.holds_trace h _) fun value =>
      holds_traceCases h rounds value cases _ 0 (holds_traceOption h rounds fallback _)
  | .breakLoop => exact h.pure _
  | .continueLoop => exact h.pure _
  | .exitProgram => exact h.pure _

theorem holds_traceAll (h : Traced.Compositional P) (rounds : Nat) (ss : List Stmt) (place : Place)
    (position : Nat) : P Flow (traceAll rounds place position ss) := by
  match ss with
  | [] => exact h.pure _
  | s :: rest =>
    refine h.bind (holds_trace h rounds s _) fun flow => ?_
    cases flow with
    | normal => exact holds_traceAll h rounds rest place (position + 1)
    | breaks => exact h.pure _
    | continues => exact h.pure _
    | exits => exact h.pure _

theorem holds_traceOption (h : Traced.Compositional P) (rounds : Nat) (o : Option Stmt)
    (place : Place) : P Flow (traceOption rounds place o) := by
  match o with
  | none => exact h.pure _
  | some s => exact holds_trace h rounds s place

theorem holds_traceCases (h : Traced.Compositional P) (rounds : Nat) (subject : Value)
    (cases : List (Expr × Stmt)) (place : Place) (position : Nat) {otherwise : Traced Flow}
    (ho : P Flow otherwise) :
    P Flow (traceCases rounds place position subject otherwise cases) := by
  match cases with
  | [] => exact ho
  | (condition, body) :: rest =>
    refine h.bind (condition.holds_trace h _) fun value => ?_
    split
    · exact holds_trace h rounds body _
    · exact holds_traceCases h rounds subject rest place (position + 1) ho

theorem holds_traceIncrement (h : Traced.Compositional P) (rounds : Nat) (body : Stmt)
    (place : Place) : P Unit (traceIncrement rounds place body) := by
  match body with
  | .block [_, increment] => exact h.bind (holds_trace h rounds increment _) fun _ => h.pure _
  | .block [] => exact h.pure ()
  | .block [_] => exact h.pure ()
  | .block (_ :: _ :: _ :: _) => exact h.pure ()
  | .expression _ => exact h.pure ()
  | .print _ => exact h.pure ()
  | .declare _ _ => exact h.pure ()
  | .branch _ _ _ => exact h.pure ()
  | .loop _ _ _ => exact h.pure ()
  | .switch _ _ _ => exact h.pure ()
  | .breakLoop => exact h.pure ()
  | .continueLoop => exact h.pure ()
  | .exitProgram => exact h.pure ()

end

end Stmt

/-- What putting recorded runs together keeps holds of a program. -/
theorem Program.holds_traceFrom (h : Traced.Compositional P) (rounds : Nat) (p : Program)
    (position : Nat) : P Completion (p.traceFrom rounds position) := by
  induction p generalizing position with
  | nil => exact h.pure _
  | cons s rest ih =>
    refine h.bind (s.holds_trace h rounds _) fun flow => ?_
    cases flow with
    | normal => exact ih _
    | breaks => exact ih _
    | continues => exact ih _
    | exits => exact h.pure _

end Treewalk
