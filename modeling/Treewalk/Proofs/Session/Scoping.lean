import Treewalk.Proofs.Eval.Scoping
import Treewalk.Proofs.Parse.Regular
import Treewalk.Proofs.Session.Concatenation

set_option autoImplicit false
set_option relaxedAutoImplicit false

/-!
Sources are scoped lexically.

What a source finds when it is run is what its text says: a name is in scope if it was global before
or is declared around it, earlier.
-/

namespace Treewalk

namespace Session

/-- A source without reports has an error as its outcome if its program is stopped by the error. -/
theorem run_eq_runtimeError_iff {s : Session} {source : String}
    (h : (s.parse source).2.diagnostics = []) (rounds : Nat) (e : RuntimeError) :
    (s.run rounds source).1 = .runtimeError e ↔
      ∃ w, (s.parse source).1.exec rounds s.world = .error (.error e) w := by
  rw [run_of_diagnostics_eq_nil h, perform_execute]
  dsimp only
  cases Program.exec rounds (s.parse source).1 s.world with
  | ok completion w => cases completion <;> simp [Outcome.ofCompletion]
  | error stop w => cases stop <;> simp [Outcome.ofHalt]

/-- Scoping is lexical. The recorded run of a source is its run. Each search for a variable in it
fails if the name is not in scope where it occurs, and in no other case; then the failure is the
outcome. And if the outcome is that a variable is undefined, then a search for it failed at a place
where it is not in scope. -/
theorem run_isLexical {s : Session} (hs : s.world.environment.current = 0) {source : String}
    (h : (s.parse source).2.diagnostics = []) (rounds : Nat) :
    let p := (s.parse source).1
    let events := (finalState (p.trace rounds) ⟨s.world, []⟩).events
    let outcome := (s.run rounds source).1
    Traced.forget (p.trace rounds ⟨s.world, []⟩) = p.exec rounds s.world ∧
    (∀ event ∈ events, ∀ error?, event.action = .looksUp error? →
      ∃ o, p.occurrenceAt? event.place = some o ∧
        (error? = some (.undefinedVariable o.name) ↔ ¬ o.InScope s.world.IsGlobal) ∧
        (error? = none ↔ o.InScope s.world.IsGlobal) ∧
        (¬ o.InScope s.world.IsGlobal → outcome = .runtimeError (.undefinedVariable o.name))) ∧
    (∀ name, outcome = .runtimeError (.undefinedVariable name) →
      ∃ event ∈ events, event.action = .looksUp (some (.undefinedVariable name)) ∧
        ∃ o, p.occurrenceAt? event.place = some o ∧ o.name = name ∧
          ¬ o.InScope s.world.IsGlobal) ∧
    ((∀ place o, p.occurrenceAt? place = some o → o.InScope s.world.IsGlobal) →
      ∀ name, outcome ≠ .runtimeError (.undefinedVariable name)) := by
  intro p events outcome
  have hregular : Stmt.areRegular p := Parser.areRegular_parseProgram _
  obtain ⟨hlexical, hraised, hfound⟩ := p.exec_of_events rounds hregular hs
  have houtcome : ∀ e, outcome = .runtimeError e ↔
      ∃ w, p.exec rounds s.world = .error (.error e) w :=
    run_eq_runtimeError_iff h rounds
  -- Nothing but a search can report a variable as undefined, and the search knows its place.
  have hundefined : ∀ name, outcome = .runtimeError (.undefinedVariable name) →
      ∃ event ∈ events, event.action = .looksUp (some (.undefinedVariable name)) ∧
        ∃ o, p.occurrenceAt? event.place = some o ∧ o.name = name ∧
          ¬ o.InScope s.world.IsGlobal := by
    intro name hname
    obtain ⟨w, hstopped⟩ := (houtcome _).mp hname
    obtain ⟨event, hevent, herror⟩ := hfound name w hstopped
    have haction := Event.error?_eq_some.mp herror
    obtain ⟨o, ho, ⟨-, hnone⟩ | ⟨hscope, hsome⟩⟩ := hlexical event hevent _ haction
    · exact absurd hnone (Option.some_ne_none _)
    · have hsame : name = o.name := RuntimeError.undefinedVariable.inj (Option.some.inj hsome)
      exact ⟨event, hevent, haction, o, ho, hsame.symm, hscope⟩
  refine ⟨p.erases_trace rounds ⟨s.world, []⟩, fun event hevent error? haction => ?_, hundefined,
    fun hall name hname => ?_⟩
  · obtain ⟨o, ho, ⟨hscope, hnone⟩ | ⟨hscope, hsome⟩⟩ := hlexical event hevent error? haction
    · exact ⟨o, ho, by simp [hscope, hnone], by simp [hscope, hnone], fun hnot => absurd hscope hnot⟩
    · rw [hsome] at haction
      have herror := (houtcome _).mpr (hraised event hevent _ (Event.error?_eq_some.mpr haction))
      exact ⟨o, ho, by simp [hscope, hsome], by simp [hscope, hsome], fun _ => herror⟩
  · obtain ⟨event, -, -, o, ho, -, hscope⟩ := hundefined name hname
    exact hscope (hall event.place o ho)

/-- In `var a; { var b = a; a = b; } b;` the last name is not in scope. -/
theorem run_isLexical_after_block :
    let s := start none
    let source := "var a; \x7b var b = a; a = b; \x7d b;"
    let name : Token := ⟨.identifier, "b", none, 1⟩
    s.world.environment.current = 0 ∧ (s.parse source).2.diagnostics = [] ∧
      (s.run 1 source).1 = .runtimeError (.undefinedVariable name) ∧
      ∃ place o, (s.parse source).1.occurrenceAt? place = some o ∧ o.name = name ∧
        ¬ o.InScope s.world.IsGlobal := by
  intro s source name
  have hs : s.world.environment.current = 0 := rfl
  have h : (s.parse source).2.diagnostics = [] := by decide +kernel
  have houtcome : (s.run 1 source).1 = .runtimeError (.undefinedVariable name) := by
    decide +kernel
  obtain ⟨event, -, -, o, ho⟩ := (run_isLexical hs h 1).2.2.1 name houtcome
  exact ⟨hs, h, houtcome, event.place, o, ho⟩

end Session

end Treewalk
