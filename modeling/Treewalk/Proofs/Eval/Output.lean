import Treewalk.Proofs.Eval.Composition
import Treewalk.Proofs.Eval.Lockstep

set_option autoImplicit false
set_option relaxedAutoImplicit false

/-!
Output that was there before.

Where output has no limit, a run only adds to it. What was written before the run is neither looked
at nor changed, so the run is the same without it.
-/

namespace Treewalk

/-- The worlds differ in what was written before: in the second world, `earlier` stands in front of
all that is written in the first. Neither has a limit. -/
structure World.Continues (earlier : ByteArray) (w w' : World) : Prop where
  environment_eq : w'.environment = w.environment
  limit_eq : w.sink.limit = none
  sink_eq : w'.sink = ⟨earlier ++ w.sink.written, none⟩

variable {earlier : ByteArray}

theorem World.Continues.of_sink {environment : Environment} {sink sink' : Sink}
    (hlimit : sink.limit = none) (hsink : sink' = ⟨earlier ++ sink.written, none⟩) :
    World.Continues earlier ⟨environment, sink⟩ ⟨environment, sink'⟩ :=
  ⟨rfl, hlimit, hsink⟩

/-- Writing where there is no limit. -/
theorem Run.writeLine_of_limit_eq {environment : Environment} {sink : Sink}
    (h : sink.limit = none) (text : String) :
    writeLine text ⟨environment, sink⟩ =
      .ok () ⟨environment, ⟨sink.written ++ (text ++ "\n").toUTF8, none⟩⟩ := by
  obtain ⟨written, limit⟩ := sink
  obtain rfl : limit = none := h
  rfl

theorem Run.lockstep_evaluate (e : Expr) :
    Lockstep Eq (World.Continues earlier) (evaluate e) (evaluate e) := by
  rintro ⟨env, sink⟩ ⟨env', sink'⟩ ⟨henv, hlimit, hsink⟩
  obtain rfl : env' = env := henv
  simp only [evaluate]
  cases e.eval env' with
  | ok value after => exact .ok value (.of_sink hlimit hsink)
  | error e after => exact .error rfl (.of_sink hlimit hsink)

theorem Run.lockstep_writeLine (text : String) :
    Lockstep Eq (World.Continues earlier) (writeLine text) (writeLine text) := by
  rintro ⟨env, sink⟩ ⟨env', sink'⟩ ⟨henv, hlimit, hsink⟩
  obtain rfl : env' = env := henv
  obtain rfl : sink' = ⟨earlier ++ sink.written, none⟩ := hsink
  have hlimit' : (⟨earlier ++ sink.written, none⟩ : Sink).limit = none := rfl
  rw [writeLine_of_limit_eq hlimit, writeLine_of_limit_eq hlimit', ByteArray.append_assoc]
  exact .ok () (.of_sink rfl rfl)

theorem Run.lockstep_inScope {α : Type} {m : Run α}
    (h : Lockstep Eq (World.Continues earlier) m m) :
    Lockstep Eq (World.Continues earlier) (inScope m) (inScope m) := by
  rintro ⟨env, sink⟩ ⟨env', sink'⟩ ⟨henv, hlimit, hsink⟩
  obtain rfl : env' = env := henv
  have hends := h ⟨env'.enter, sink⟩ ⟨env'.enter, sink'⟩ (.of_sink hlimit hsink)
  simp only [inScope]
  generalize m ⟨env'.enter, sink⟩ = r at hends
  generalize m ⟨env'.enter, sink'⟩ = r' at hends
  cases hends with
  | ok a hw => exact .ok a ⟨congrArg Environment.leave hw.environment_eq, hw.limit_eq, hw.sink_eq⟩
  | error he hw =>
    exact .error he ⟨congrArg Environment.leave hw.environment_eq, hw.limit_eq, hw.sink_eq⟩

/-- A run behind earlier output is in step with itself without that output. -/
theorem compositional_continues (earlier : ByteArray) :
    Run.Compositional (fun _ => True)
      fun _ m => Lockstep Eq (World.Continues earlier) m m where
  pure := .pure
  outOfRounds := .throw rfl
  bind := .bind
  evaluate {e} _ := Run.lockstep_evaluate e
  writeLine := Run.lockstep_writeLine
  define name value := by
    rintro ⟨env, sink⟩ ⟨env', sink'⟩ ⟨henv, hlimit, hsink⟩
    obtain rfl : env' = env := henv
    exact .ok () (.of_sink hlimit hsink)
  inScope := Run.lockstep_inScope

/-- Running an entry behind earlier output ends as it does without, and adds the same output. -/
theorem Session.perform_continues {s s' : Session} (h : s.world.Continues earlier s'.world)
    (rounds : Nat) (entry : Entry) :
    (s'.perform (executeEntry rounds entry)).1 = (s.perform (executeEntry rounds entry)).1 ∧
      (s.perform (executeEntry rounds entry)).2.world.Continues earlier
        (s'.perform (executeEntry rounds entry)).2.world := by
  have hends := holds_executeEntry (compositional_continues earlier) rounds entry
    (fun _ _ => trivial) s.world s'.world h
  simp only [perform]
  generalize executeEntry rounds entry s.world = r at hends
  generalize executeEntry rounds entry s'.world = r' at hends
  cases hends with
  | ok outcome hw => exact ⟨rfl, hw⟩
  | error he hw => exact ⟨congrArg Outcome.ofHalt he.symm, hw⟩

end Treewalk
