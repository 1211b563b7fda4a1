import Treewalk.Eval.Stmt
import Treewalk.Proofs.Environment.Evolution
import Treewalk.Proofs.Syntax.Shape

set_option autoImplicit false
set_option relaxedAutoImplicit false

/-!
What executions do to the environment.

However a statement ends, its environment has evolved by assignments to its targets and by the
declarations that no block is around. Every scope that was opened on the way has been left.
-/

namespace Treewalk

section Computations

variable {ε σ α β : Type} {R : σ → σ → Prop}

/-- The state in which a computation ends, whether with a result or with an error. -/
def finalState (m : EStateM ε σ α) (s : σ) : σ :=
  match m s with
  | .ok _ s' => s'
  | .error _ s' => s'

/-- From every state the computation ends in a related one. -/
def Moves (R : σ → σ → Prop) (m : EStateM ε σ α) : Prop :=
  ∀ s, R s (finalState m s)

theorem Moves.pure [Std.Refl R] (a : α) : Moves R (Pure.pure a : EStateM ε σ α) :=
  fun s => Std.Refl.refl s

theorem Moves.throw [Std.Refl R] (e : ε) : Moves R (MonadExcept.throw e : EStateM ε σ α) :=
  fun s => Std.Refl.refl s

theorem Moves.bind [Trans R R R] {m : EStateM ε σ α} {f : α → EStateM ε σ β} (hm : Moves R m)
    (hf : ∀ a, Moves R (f a)) : Moves R (m >>= f) := by
  intro s
  have hfirst := hm s
  show R s (finalState (EStateM.bind m f) s)
  simp only [finalState, EStateM.bind] at hfirst ⊢
  cases h : m s with
  | ok a s' =>
    rw [h] at hfirst
    exact Trans.trans hfirst (hf a s')
  | error e s' =>
    rw [h] at hfirst
    exact hfirst

end Computations

variable {A D : String → Prop}

instance : Std.Refl (Environment.Evolves A D) :=
  ⟨.refl⟩

instance : Trans (Environment.Evolves A D) (Environment.Evolves A D) (Environment.Evolves A D) :=
  ⟨.trans⟩

/-- The environment of a world has evolved. -/
def World.Evolves (A D : String → Prop) (w w' : World) : Prop :=
  Environment.Evolves A D w.environment w'.environment

instance : Std.Refl (World.Evolves A D) :=
  ⟨fun w => .refl w.environment⟩

instance : Trans (World.Evolves A D) (World.Evolves A D) (World.Evolves A D) :=
  ⟨fun h h' => Environment.Evolves.trans h h'⟩

theorem moves_ofExcept {α : Type} (r : Except RuntimeError α) :
    Moves (Environment.Evolves A D) (Evaluation.ofExcept r) := by
  intro env
  cases r with
  | ok a => exact .refl env
  | error e => exact .refl env

theorem moves_get (name : Token) : Moves (Environment.Evolves A D) (Evaluation.get name) := by
  intro env
  simp only [finalState, Evaluation.get]
  cases env.get? name.lexeme with
  | some value => exact .refl env
  | none => exact .refl env

theorem moves_assign {name : Token} (hname : A name.lexeme) (value : Value) :
    Moves (Environment.Evolves A D) (Evaluation.assign name value) := by
  intro env
  simp only [finalState, Evaluation.assign]
  cases h : env.assign? name.lexeme value with
  | some env' => exact .assign (.refl env) hname h
  | none => exact .refl env

/-- An expression changes variables that it assigns to, and no others. -/
theorem Expr.moves_eval {e : Expr} (h : ∀ name ∈ e.targets, A name) :
    Moves (Environment.Evolves A D) e.eval := by
  induction e with
  | literal value => exact .pure value
  | grouping inner ih => exact ih h
  | unary operator operand ih => exact .bind (ih h) fun value => moves_ofExcept _
  | binary left operator right ihl ihr =>
    obtain ⟨hl, hr⟩ := List.forall_mem_append.mp h
    exact .bind (ihl hl) fun leftValue => .bind (ihr hr) fun rightValue => moves_ofExcept _
  | logical left operator right ihl ihr =>
    obtain ⟨hl, hr⟩ := List.forall_mem_append.mp h
    refine .bind (ihl hl) fun value => ?_
    split
    · exact .pure value
    · exact ihr hr
  | ternary condition ifTrue ifFalse ihc iht ihf =>
    obtain ⟨hc, hbranches⟩ := List.forall_mem_append.mp h
    obtain ⟨ht, hf⟩ := List.forall_mem_append.mp hbranches
    refine .bind (ihc hc) fun value => ?_
    split
    · exact iht ht
    · exact ihf hf
  | reference name => exact moves_get name
  | assign name value ih =>
    obtain ⟨hname, hvalue⟩ := List.forall_mem_cons.mp h
    exact .bind (ih hvalue) fun result => .bind (moves_assign hname result) fun _ => .pure result

namespace Run

theorem moves_evaluate {e : Expr} (h : ∀ name ∈ e.targets, A name) :
    Moves (World.Evolves A D) (evaluate e) := by
  rintro ⟨env, sink⟩
  have heval : Environment.Evolves A D env (finalState e.eval env) := Expr.moves_eval h env
  simp only [finalState, evaluate] at heval ⊢
  cases hresult : e.eval env with
  | ok value env' =>
    rw [hresult] at heval
    exact heval
  | error e env' =>
    rw [hresult] at heval
    exact heval

theorem moves_test {e : Expr} (h : ∀ name ∈ e.targets, A name) :
    Moves (World.Evolves A D) (test e) :=
  .bind (moves_evaluate h) fun _ => .pure _

theorem moves_writeLine (text : String) : Moves (World.Evolves A D) (writeLine text) := by
  rintro ⟨env, sink⟩
  simp only [finalState, writeLine]
  rcases sink.write (text ++ "\n") with ⟨sink', written⟩
  cases written with
  | true => exact .refl env
  | false => exact .refl env

theorem moves_define {name : String} (hname : D name) (value : Value) :
    Moves (World.Evolves A D) (define name value) :=
  fun w => .define value (.refl w.environment) hname

/-- Whatever a computation declares in a scope of its own is gone with the scope. -/
theorem moves_inScope {α : Type} {D' : String → Prop} {m : Run α}
    (h : Moves (World.Evolves A D') m) : Moves (World.Evolves A D) (inScope m) := by
  rintro ⟨env, sink⟩
  have hinner : World.Evolves A D' ⟨env.enter, sink⟩ (finalState m ⟨env.enter, sink⟩) := h _
  simp only [finalState, inScope] at hinner ⊢
  cases hresult : m ⟨env.enter, sink⟩ with
  | ok a w =>
    rw [hresult] at hinner
    exact .scope (.refl env) hinner
  | error e w =>
    rw [hresult] at hinner
    exact .scope (.refl env) hinner

theorem moves_loop {condition : Run Bool} {body : Run Flow} {increment : Run Unit}
    (hc : Moves (World.Evolves A D) condition) (hb : Moves (World.Evolves A D) body)
    (hi : Moves (World.Evolves A D) increment) (rounds : Nat) :
    Moves (World.Evolves A D) (loop condition body increment rounds) := by
  induction rounds with
  | zero => exact .throw _
  | succ rounds ih =>
    refine .bind hc fun goesOn => ?_
    cases goesOn with
    | false => exact .pure _
    | true =>
      refine .bind hb fun flow => ?_
      cases flow with
      | normal => exact ih
      | breaks => exact .pure _
      | continues => exact .bind hi fun _ => ih
      | exits => exact .pure _

end Run

namespace Stmt

mutual

/-- A statement overwrites its targets, and declares what no block of it is around. -/
theorem moves_exec (rounds : Nat) (s : Stmt) {D : String → Prop} (hA : ∀ name ∈ s.targets, A name)
    (hD : ∀ name ∈ s.declared, D name) : Moves (World.Evolves A D) (s.exec rounds) := by
  match s with
  | .expression value => exact .bind (Run.moves_evaluate hA) fun _ => .pure _
  | .print value =>
    exact .bind (Run.moves_evaluate hA) fun result =>
      .bind (Run.moves_writeLine _) fun _ => .pure _
  | .declare name initializer =>
    have hname : D name.lexeme := hD _ (List.mem_singleton.mpr rfl)
    exact .bind (Run.moves_evaluate hA) fun value =>
      .bind (Run.moves_define hname value) fun _ => .pure _
  | .block statements =>
    exact Run.moves_inScope (moves_execAll rounds statements hA (D := fun _ => True)
      fun _ _ _ _ => trivial)
  | .branch condition thenBranch elseBranch =>
    obtain ⟨hc, hbranches⟩ := List.forall_mem_append.mp hA
    obtain ⟨ht, he⟩ := List.forall_mem_append.mp hbranches
    obtain ⟨hdt, hde⟩ := List.forall_mem_append.mp hD
    refine .bind (Run.moves_test hc) fun holds => ?_
    cases holds with
    | true => exact moves_exec rounds thenBranch ht hdt
    | false => exact moves_execOption rounds elseBranch he hde
  | .loop .whileLoop condition body =>
    obtain ⟨hc, hb⟩ := List.forall_mem_append.mp hA
    exact Run.moves_loop (Run.moves_test hc) (moves_exec rounds body hb hD) (.pure ()) rounds
  | .loop .forLoop condition body =>
    obtain ⟨hc, hb⟩ := List.forall_mem_append.mp hA
    obtain ⟨hdb, hdi⟩ := List.forall_mem_append.mp hD
    exact Run.moves_loop (Run.moves_test hc) (moves_exec rounds body hb hdb)
      (moves_execIncrement rounds body hb hdi) rounds
  | .switch subject cases fallback =>
    obtain ⟨hs, hbranches⟩ := List.forall_mem_append.mp hA
    obtain ⟨hc, hf⟩ := List.forall_mem_append.mp hbranches
    obtain ⟨hdc, hdf⟩ := List.forall_mem_append.mp hD
    exact .bind (Run.moves_evaluate hs) fun value =>
      moves_execCases rounds value cases hc hdc (moves_execOption rounds fallback hf hdf)
  | .breakLoop => exact .pure _
  | .continueLoop => exact .pure _
  | .exitProgram => exact .pure _

theorem moves_execAll (rounds : Nat) (ss : List Stmt) {D : String → Prop}
    (hA : ∀ name ∈ targetsOfAll ss, A name) (hD : ∀ s ∈ ss, ∀ name ∈ s.declared, D name) :
    Moves (World.Evolves A D) (execAll rounds ss) := by
  match ss with
  | [] => exact .pure _
  | s :: rest =>
    obtain ⟨hs, hrest⟩ := List.forall_mem_append.mp hA
    obtain ⟨hds, hdrest⟩ := List.forall_mem_cons.mp hD
    refine .bind (moves_exec rounds s hs hds) fun flow => ?_
    cases flow with
    | normal => exact moves_execAll rounds rest hrest hdrest
    | breaks => exact .pure _
    | continues => exact .pure _
    | exits => exact .pure _

theorem moves_execOption (rounds : Nat) (o : Option Stmt) {D : String → Prop}
    (hA : ∀ name ∈ targetsOfOption o, A name) (hD : ∀ name ∈ declaredOfOption o, D name) :
    Moves (World.Evolves A D) (execOption rounds o) := by
  match o with
  | none => exact .pure _
  | some s => exact moves_exec rounds s hA hD

theorem moves_execCases (rounds : Nat) (subject : Value) (cases : List (Expr × Stmt))
    {D : String → Prop} {otherwise : Run Flow} (hA : ∀ name ∈ targetsOfCases cases, A name)
    (hD : ∀ name ∈ declaredOfCases cases, D name)
    (ho : Moves (World.Evolves A D) otherwise) :
    Moves (World.Evolves A D) (execCases rounds subject otherwise cases) := by
  match cases with
  | [] => exact ho
  | (condition, body) :: rest =>
    obtain ⟨hc, hbranches⟩ := List.forall_mem_append.mp hA
    obtain ⟨hb, hrest⟩ := List.forall_mem_append.mp hbranches
    obtain ⟨hdb, hdrest⟩ := List.forall_mem_append.mp hD
    refine .bind (Run.moves_evaluate hc) fun value => ?_
    split
    · exact moves_exec rounds body hb hdb
    · exact moves_execCases rounds subject rest hrest hdrest ho

theorem moves_execIncrement (rounds : Nat) (body : Stmt) {D : String → Prop}
    (hA : ∀ name ∈ body.targets, A name) (hD : ∀ name ∈ declaredOfIncrement body, D name) :
    Moves (World.Evolves A D) (execIncrement rounds body) := by
  match body with
  | .block [first, increment] =>
    obtain ⟨-, hrest⟩ := List.forall_mem_append.mp hA
    obtain ⟨hi, -⟩ := List.forall_mem_append.mp hrest
    exact .bind (moves_exec rounds increment hi hD) fun _ => .pure _
  | .block [] => exact .pure ()
  | .block [_] => exact .pure ()
  | .block (_ :: _ :: _ :: _) => exact .pure ()
  | .expression _ => exact .pure ()
  | .print _ => exact .pure ()
  | .declare _ _ => exact .pure ()
  | .branch _ _ _ => exact .pure ()
  | .loop _ _ _ => exact .pure ()
  | .switch _ _ _ => exact .pure ()
  | .breakLoop => exact .pure ()
  | .continueLoop => exact .pure ()
  | .exitProgram => exact .pure ()

end

/-- The environment after a statement, as far as the statement tells. -/
theorem evolves_exec (rounds : Nat) (s : Stmt) (w : World) :
    Environment.Evolves (· ∈ s.targets) (· ∈ s.declared) w.environment
      (finalState (s.exec rounds) w).environment :=
  moves_exec rounds s (fun _ h => h) (fun _ h => h) w

/-- The environment after a statement as it is read: if anything is declared in the current scope,
then because the statement is the declaration. -/
theorem evolves_exec_of_regular (rounds : Nat) {s : Stmt} (h : s.isDeclaration ∨ s.isRegular)
    (w : World) :
    Environment.Evolves (· ∈ s.targets)
      (fun name => ∃ token initializer, s = .declare token initializer ∧ token.lexeme = name)
      w.environment (finalState (s.exec rounds) w).environment :=
  moves_exec rounds s (fun _ h => h) (fun _ hname => eq_declare_of_mem_declared h hname) w

end Stmt

/-- A program evolves its environment, with whatever names. -/
theorem Program.moves_exec (rounds : Nat) (p : Program) :
    Moves (World.Evolves (fun _ => True) (fun _ => True)) (Program.exec rounds p) := by
  induction p with
  | nil => exact .pure _
  | cons s rest ih =>
    have hs : Moves (World.Evolves (fun _ => True) (fun _ => True)) (s.exec rounds) :=
      s.moves_exec rounds (fun _ _ => trivial) fun _ _ => trivial
    refine .bind hs fun flow => ?_
    cases flow with
    | normal => exact ih
    | breaks => exact ih
    | continues => exact ih
    | exits => exact .pure _

end Treewalk
