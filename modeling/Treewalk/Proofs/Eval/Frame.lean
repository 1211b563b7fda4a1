import Treewalk.Proofs.Environment.Stack
import Treewalk.Proofs.Eval.Lockstep

set_option autoImplicit false
set_option relaxedAutoImplicit false

/-!
Scopes that a program does not notice.

A scope between those that a program opens and those around it makes no difference to the program,
if none of its variables is one that the program reads or assigns and the program declares none in
it. For an empty scope this means that a block without declarations of its own can be opened up.
-/

namespace Treewalk

/-- The second environment has one scope more than the first, with `k` scopes inside it. -/
def Interposed (hidden : Bindings) (k : Nat) (env env' : Environment) : Prop :=
  ∃ inner outer, inner.length = k ∧ outer ≠ [] ∧
    env.maps = inner ++ outer ∧ env'.maps = inner ++ hidden :: outer

variable {hidden : Bindings} {k : Nat} {env env' : Environment} {name : String}

theorem interposed_enter (env : Environment) : Interposed [] 0 env env.enter :=
  ⟨[], env.maps, rfl, env.maps_ne_nil, rfl, env.maps_enter⟩

/-- A scope with nothing inside it is left for the environment without it. -/
theorem Interposed.leave_eq (h : Interposed hidden 0 env env') : env'.leave = env := by
  obtain ⟨inner, outer, hinner, houter, henv, henv'⟩ := h
  obtain rfl := List.length_eq_zero_iff.mp hinner
  apply Environment.maps_injective
  rw [Environment.maps_leave henv' houter, henv]
  rfl

theorem Interposed.get (h : Interposed hidden k env env') (hn : hidden.lookup name = none) :
    env'.get? name = env.get? name := by
  obtain ⟨inner, outer, -, -, henv, henv'⟩ := h
  rw [Environment.get?_eq, Environment.get?_eq, henv, henv', List.findSome?_append,
    List.findSome?_append, List.findSome?_cons, hn]

theorem Interposed.assign (value : Value) (h : Interposed hidden k env env')
    (hn : hidden.lookup name = none) :
    Option.Rel (Interposed hidden k) (env.assign? name value) (env'.assign? name value) := by
  obtain ⟨inner, outer, hinner, houter, henv, henv'⟩ := h
  have hhidden : overwrite? name value (hidden :: outer) =
      (overwrite? name value outer).map (hidden :: ·) := by
    simp [overwrite?, hn]
  have hassign := overwrite?_append name value inner outer
  have hassign' := overwrite?_append name value inner (hidden :: outer)
  rw [← henv] at hassign
  rw [← henv', hhidden] at hassign'
  cases hi : overwrite? name value inner with
  | some inner' =>
    rw [hi] at hassign hassign'
    obtain ⟨after, heq, hmaps⟩ := Environment.exists_assign? hassign
    obtain ⟨after', heq', hmaps'⟩ := Environment.exists_assign? hassign'
    rw [heq, heq']
    exact .some ⟨inner', outer, (length_overwrite? hi).trans hinner, houter, hmaps, hmaps'⟩
  | none =>
    cases ho : overwrite? name value outer with
    | some outer' =>
      rw [hi, ho] at hassign hassign'
      obtain ⟨after, heq, hmaps⟩ := Environment.exists_assign? hassign
      obtain ⟨after', heq', hmaps'⟩ := Environment.exists_assign? hassign'
      have hne : outer' ≠ [] := by
        rintro rfl
        exact houter (List.length_eq_zero_iff.mp (length_overwrite? ho).symm)
      rw [heq, heq']
      exact .some ⟨inner, outer', hinner, hne, hmaps, hmaps'⟩
    | none =>
      rw [hi, ho] at hassign hassign'
      rw [Environment.assign?_eq_none hassign, Environment.assign?_eq_none hassign']
      exact .none

theorem Interposed.define (name : String) (value : Value) (h : Interposed hidden (k + 1) env env') :
    Interposed hidden (k + 1) (env.define name value) (env'.define name value) := by
  obtain ⟨inner, outer, hinner, houter, henv, henv'⟩ := h
  obtain ⟨m, inner, rfl⟩ := List.exists_cons_of_length_eq_add_one hinner
  exact ⟨Scope.bind name value m :: inner, outer, hinner, houter,
    Environment.maps_define henv name value, Environment.maps_define henv' name value⟩

theorem Interposed.enter (h : Interposed hidden k env env') :
    Interposed hidden (k + 1) env.enter env'.enter := by
  obtain ⟨inner, outer, rfl, houter, henv, henv'⟩ := h
  refine ⟨[] :: inner, outer, rfl, houter, ?_, ?_⟩
  · rw [Environment.maps_enter, henv]
    rfl
  · rw [Environment.maps_enter, henv']
    rfl

theorem Interposed.leave (h : Interposed hidden (k + 1) env env') :
    Interposed hidden k env.leave env'.leave := by
  obtain ⟨inner, outer, hinner, houter, henv, henv'⟩ := h
  obtain ⟨m, inner, rfl⟩ := List.exists_cons_of_length_eq_add_one hinner
  refine ⟨inner, outer, Nat.succ.inj hinner, houter, ?_, ?_⟩
  · exact Environment.maps_leave henv (by simp [houter])
  · exact Environment.maps_leave henv' (by simp)

theorem simulation_interposed (hidden : Bindings) :
    Simulation (fun name => hidden.lookup name = none) (Interposed hidden) where
  get h hn := h.get hn
  assign value h hn := h.assign value hn
  define name value h := h.define name value
  enter h := h.enter
  leave h := h.leave

theorem World.Related.leave_eq {w w' : World} (h : World.Related (Interposed hidden 0) w w') :
    (⟨w'.environment.leave, w'.sink⟩ : World) = w := by
  obtain ⟨henv, hsink⟩ := h
  rw [henv.leave_eq, ← hsink]

/-- The second environment has one scope more, which is the innermost. -/
def Opened (env env' : Environment) : Prop :=
  ∃ hidden, Interposed hidden 0 env env'

/-- A run in a scope of its own ends as one without it, if the two end alike up to that scope. -/
theorem Run.inScope_eq_of_ends {α : Type} {m m' : Run α} {env : Environment} {sink : Sink}
    (h : Ends (fun h h' => h' = Halt.mapLines id h) (World.Related Opened) (m ⟨env, sink⟩)
      (m' ⟨env.enter, sink⟩)) : Run.inScope m' ⟨env, sink⟩ = m ⟨env, sink⟩ := by
  simp only [Run.inScope]
  generalize m ⟨env, sink⟩ = r at h
  generalize m' ⟨env.enter, sink⟩ = r' at h
  cases h with
  | ok a hw =>
    obtain ⟨⟨hidden, henv⟩, hsink⟩ := hw
    exact congrArg _ (World.Related.leave_eq ⟨henv, hsink⟩)
  | error he hw =>
    obtain ⟨⟨hidden, henv⟩, hsink⟩ := hw
    rw [he, Halt.mapLines_id]
    exact congrArg _ (World.Related.leave_eq ⟨henv, hsink⟩)

theorem World.Related.opened {w w' : World} (h : World.Related (Interposed hidden 0) w w') :
    World.Related Opened w w' :=
  ⟨⟨hidden, h.environment⟩, h.sink⟩

/-- A scope of its own makes no difference to a run that does not notice it. -/
theorem Run.inScope_eq_self {α : Type} {m : Run α} (h : Run.InStep id (Interposed [] 0) m m) :
    Run.inScope m = m := by
  funext ⟨env, sink⟩
  have hends := h ⟨env, sink⟩ ⟨env.enter, sink⟩ ⟨interposed_enter env, rfl⟩
  exact Run.inScope_eq_of_ends (hends.mono fun _ _ => World.Related.opened)

/-- A block whose statements declare nothing in it is just its statements. -/
theorem Stmt.exec_block_eq_execAll {ss : List Stmt} (h : ∀ s ∈ ss, s.declares = false)
    (rounds : Nat) : (Stmt.block ss).exec rounds = Stmt.execAll rounds ss := by
  have hstep : Run.InStep id (Interposed [] 0) (Stmt.execAll rounds ss)
      (Stmt.execAll rounds (Stmt.mapLinesOfAll id ss)) := by
    apply (simulation_interposed []).inStep_execAll rounds ss
    · intro name _
      rfl
    · intro s hs hdeclares
      exact absurd hdeclares (by simp [h s hs])
  rw [Stmt.mapLinesOfAll_id] at hstep
  exact Run.inScope_eq_self hstep

end Treewalk
