import Treewalk.Proofs.Eval.Footprint
import Treewalk.Proofs.Parse.Regular
import Treewalk.Session

set_option autoImplicit false
set_option relaxedAutoImplicit false

/-!
Sessions from their start, one request after another.

A session is asked to run sources, to show what they are read as, or to hand out its reports. No run
leaves a scope open, however it ends, so every request finds the global scope alone.
-/

namespace Treewalk

namespace Session

/-- What a session can be asked for. Where something is run, each loop has a bound on its rounds. -/
inductive Request where
  | run (rounds : Nat) (source : String)
  | runLine (rounds : Nat) (source : String)
  | scan (source : String)
  | parse (source : String)
  | parseLine (source : String)
  | takeDiagnostics

/-- Answers a request: the outcome, if something is run, and the session that follows. -/
def handle (s : Session) : Request → Option Outcome × Session
  | .run rounds source => (s.run rounds source).map some id
  | .runLine rounds source => (s.runLine rounds source).map some id
  | .scan source => (none, (s.scan source).2)
  | .parse source => (none, (s.parse source).2)
  | .parseLine source => (none, (s.parseLine source).2)
  | .takeDiagnostics => (none, s.takeDiagnostics.2)

/-- The session after the requests. -/
def after (s : Session) (requests : List Request) : Session :=
  requests.foldl (fun s request => (s.handle request).2) s

theorem perform_world (s : Session) (action : Run Outcome) :
    (s.perform action).2.world = finalState action s.world := by
  simp only [perform, finalState]
  cases action s.world with
  | ok outcome w => rfl
  | error h w => rfl

theorem moves_executeEntry (rounds : Nat) (entry : Entry) :
    Moves (World.Evolves (fun _ => True) (fun _ => True)) (executeEntry rounds entry) := by
  cases entry with
  | program p => exact .bind (Program.moves_exec rounds p) fun _ => .pure _
  | expression e =>
    exact .bind (Run.moves_evaluate fun _ _ => trivial) fun value =>
      .bind (Run.moves_writeLine _) fun _ => .pure _

/-- A computation that leaves the scopes it opens ends in the scope in which it began. -/
theorem current_perform {s : Session} {action : Run Outcome}
    (h : Moves (World.Evolves (fun _ => True) (fun _ => True)) action) :
    (s.perform action).2.world.environment.current = s.world.environment.current := by
  rw [perform_world]
  exact (h s.world).footprint.current_eq

theorem run_eq (s : Session) (rounds : Nat) (source : String) :
    s.run rounds source =
      if (s.parse source).2.diagnostics.isEmpty then
        (s.parse source).2.perform (execute rounds (s.parse source).1)
      else (.staticErrors, (s.parse source).2) := by
  rcases h : s.parse source with ⟨p, s'⟩
  simp only [run, h]

theorem runLine_eq (s : Session) (rounds : Nat) (source : String) :
    s.runLine rounds source =
      if (s.parseLine source).2.diagnostics.isEmpty then
        (s.parseLine source).2.perform (executeEntry rounds (s.parseLine source).1)
      else (.staticErrors, (s.parseLine source).2) := by
  rcases h : s.parseLine source with ⟨entry, s'⟩
  simp only [runLine, h]

theorem current_run (s : Session) (rounds : Nat) (source : String) :
    (s.run rounds source).2.world.environment.current = s.world.environment.current := by
  have hworld : (s.parse source).2.world = s.world := rfl
  have hmoves : Moves (World.Evolves (fun _ => True) (fun _ => True))
      (execute rounds (s.parse source).1) :=
    moves_executeEntry rounds (.program (s.parse source).1)
  rw [run_eq]
  split
  · rw [current_perform hmoves, hworld]
  · rw [hworld]

theorem current_runLine (s : Session) (rounds : Nat) (source : String) :
    (s.runLine rounds source).2.world.environment.current = s.world.environment.current := by
  have hworld : (s.parseLine source).2.world = s.world := rfl
  rw [runLine_eq]
  split
  · rw [current_perform (moves_executeEntry rounds _), hworld]
  · rw [hworld]

theorem current_handle (s : Session) (request : Request) :
    (s.handle request).2.world.environment.current = s.world.environment.current := by
  cases request with
  | run rounds source =>
    rw [handle, Prod.map_snd, id]
    exact s.current_run rounds source
  | runLine rounds source =>
    rw [handle, Prod.map_snd, id]
    exact s.current_runLine rounds source
  | scan source => rfl
  | parse source => rfl
  | parseLine source => rfl
  | takeDiagnostics => rfl

theorem current_after (s : Session) (requests : List Request) :
    (s.after requests).world.environment.current = s.world.environment.current := by
  induction requests generalizing s with
  | nil => rfl
  | cons request rest ih => exact (ih _).trans (s.current_handle request)

end Session

/-- Execution keeps scopes in order. A statement leaves the scopes that were open as they were, up to
the values of its targets and to what it declares in the current scope. A statement that was read
declares something there only if it is the declaration itself. And a session has its global scope
open after any requests, and no other. -/
theorem exec_keeps_scopes :
    (∀ (rounds : Nat) (s : Stmt) (w : World),
      let env := w.environment
      let env' := (finalState (s.exec rounds) w).environment
      (env'.scopes.size = env.scopes.size ∧ env'.current = env.current ∧
        env'.scopes.map Scope.enclosing = env.scopes.map Scope.enclosing) ∧
      (∀ (position : Nat) (name : String), position ≠ env.current →
        ((env'.valueAt? position name).isSome ↔ (env.valueAt? position name).isSome)) ∧
      (∀ (position : Nat) (name : String),
        env'.valueAt? position name ≠ env.valueAt? position name →
        name ∈ s.targets ∨ position = env.current ∧ name ∈ s.declared)) ∧
    (∀ (tokens : List Token), ∀ s ∈ Stmt.partsOfAll (parseProgram tokens).program,
      ∀ (rounds : Nat) (w : World),
      let env := w.environment
      let env' := (finalState (s.exec rounds) w).environment
      let declares := fun name => ∃ token initializer,
        s = .declare token initializer ∧ token.lexeme = name
      (∀ name, (env'.valueAt? env.current name).isSome →
        (env.valueAt? env.current name).isSome ∨ declares name) ∧
      Environment.Evolves (· ∈ s.targets) declares env env') ∧
    ∀ (limit : Option Nat) (requests : List Session.Request),
      let env := ((Session.start limit).after requests).world.environment
      env.current = 0 ∧ env.scopes.size = 1 := by
  refine ⟨fun rounds s w => ?_, fun tokens s hs rounds w => ?_, fun limit requests => ?_⟩
  · have h := (s.evolves_exec rounds w).footprint
    have hsize := w.environment.size_scopes
    have hsize' := (finalState (s.exec rounds) w).environment.size_scopes
    refine ⟨⟨?_, h.current_eq, Environment.map_enclosing_eq h.current_eq⟩,
      fun position name hne => ⟨fun hsome => ?_, h.kept⟩, fun position name => h.changed⟩
    · rw [hsize, hsize', h.current_eq]
    · rcases h.gained hsome with hold | ⟨heq, -⟩
      · exact hold
      · exact absurd heq hne
  · have hregular := Stmt.regular_of_mem_partsOfAll _ (Parser.areRegular_parseProgram tokens) s hs
    have h := Stmt.evolves_exec_of_regular rounds hregular w
    refine ⟨fun name hsome => ?_, h⟩
    exact (h.footprint.gained hsome).imp id And.right
  · have hcurrent := (Session.start limit).current_after requests
    exact ⟨hcurrent, by rw [Environment.size_scopes, hcurrent]; rfl⟩

end Treewalk
