import Treewalk.Proofs.Eval.Footprint
import Treewalk.Proofs.Eval.Trace
import Treewalk.Proofs.Parse.Regular

set_option autoImplicit false
set_option relaxedAutoImplicit false

/-!
Where `exit` ends.

A statement ends with `exits` if it has come to an `exit`, which is then the last thing that it did,
and in no other case. Blocks, branches and loops pass this on. Only the increment of a `for` loop is
executed without a look at how it ends; but where statements are read it is an expression, which
cannot exit.
-/

namespace Treewalk

/-- Whether an event is the start of an `exit` statement. -/
def Event.isExit (event : Event) : Bool :=
  match event.action with
  | .starts .exitProgram => true
  | _ => false

theorem Event.isExit_iff {event : Event} :
    event.isExit ↔ event.action = .starts .exitProgram := by
  unfold isExit
  split
  · next heq => simp [heq]
  · next hother => simpa using hother

/-- The sink after what the event writes. -/
def Event.writtenTo (sink : Sink) (event : Event) : Sink :=
  match event.action with
  | .writes text => (sink.write (text ++ "\n")).1
  | _ => sink

/-- The sink after what the events write. -/
def sinkAfter (sink : Sink) (events : List Event) : Sink :=
  events.foldl Event.writtenTo sink

theorem sinkAfter_snoc (sink : Sink) (events : List Event) (event : Event) :
    sinkAfter sink (events ++ [event]) = event.writtenTo (sinkAfter sink events) := by
  rw [sinkAfter, List.foldl_append]
  rfl

/-- A recorded run that has not come to an `exit`, and has written what its events say. -/
structure Going (sink : Sink) (r : Recording) : Prop where
  noExit : ∀ event ∈ r.events, event.isExit = false
  sink_eq : r.world.sink = sinkAfter sink r.events

/-- A recorded run whose last event is its first `exit`, and which has written what its events say. -/
structure Exited (sink : Sink) (r : Recording) : Prop where
  exit_last : ∃ before exit, r.events = before ++ [exit] ∧ exit.isExit ∧
    ∀ event ∈ before, event.isExit = false
  sink_eq : r.world.sink = sinkAfter sink r.events

section Events

variable {sink : Sink} {r : Recording} {world : World} {event : Event}

theorem Going.snoc (h : Going sink r) (hevent : event.isExit = false)
    (hsink : world.sink = event.writtenTo r.world.sink) :
    Going sink ⟨world, r.events ++ [event]⟩ where
  noExit := List.forall_mem_append.mpr ⟨h.noExit, List.forall_mem_singleton.mpr hevent⟩
  sink_eq := by rw [sinkAfter_snoc, ← h.sink_eq, hsink]

theorem Going.exit (h : Going sink r) (place : Place) :
    Exited sink ⟨r.world, r.events ++ [⟨place, .starts .exitProgram⟩]⟩ where
  exit_last := ⟨r.events, _, rfl, rfl, h.noExit⟩
  sink_eq := by
    rw [sinkAfter_snoc, ← h.sink_eq]
    rfl

theorem Going.not_mem (h : Going sink r) : ¬ ∃ event ∈ r.events, event.isExit := by
  rintro ⟨event, hevent, hexit⟩
  rw [h.noExit event hevent] at hexit
  contradiction

theorem Exited.exists_mem (h : Exited sink r) : ∃ event ∈ r.events, event.isExit := by
  obtain ⟨before, exit, hevents, hexit, -⟩ := h.exit_last
  exact ⟨exit, by simp [hevents], hexit⟩

/-- Nothing comes after an `exit`, since it would have been the last event and the first `exit`. -/
theorem Exited.eq_nil_of_append (h : Exited sink r) {before after : List Event}
    (hevents : r.events = before ++ event :: after) (hevent : event.isExit) : after = [] := by
  obtain ⟨earlier, exit, hlast, -, hnone⟩ := h.exit_last
  rcases List.eq_nil_or_concat after with hnil | ⟨between, last, rfl⟩
  · exact hnil
  · have hsplit : earlier ++ [exit] = (before ++ event :: between) ++ [last] := by
      rw [← hlast, hevents]
      simp
    have hearlier : earlier = before ++ event :: between := (List.append_inj_left' hsplit rfl)
    have hfalse : event.isExit = false := hnone event (by simp [hearlier])
    rw [hfalse] at hevent
    contradiction

end Events

/-- What a recorded run is like where a statement has ended in some way. -/
def Flow.Heeds (sink : Sink) : Flow → Recording → Prop
  | .exits, r => Exited sink r
  | _, r => Going sink r

/-- What a recorded run is like where a program has ended in some way. -/
def Completion.Heeds (sink : Sink) : Completion → Recording → Prop
  | .exited, r => Exited sink r
  | .finished, r => Going sink r

namespace Traced

variable {α β : Type} {sink : Sink} {place : Place}

/-- A recorded run has come to its end with `Q`, or has been stopped before any `exit`. -/
def Settles (sink : Sink) (Q : α → Recording → Prop) : EStateM.Result Halt Recording α → Prop
  | .ok a r => Q a r
  | .error _ r => Going sink r

/-- As long as there was no `exit`, a computation comes to its end with `Q`, or is stopped before any
`exit`. -/
def Leads (sink : Sink) (Q : α → Recording → Prop) (m : Traced α) : Prop :=
  ∀ r, Going sink r → Settles sink Q (m r)

/-- A computation that comes to no `exit`. -/
abbrev Quiet (sink : Sink) (m : Traced α) : Prop :=
  Leads sink (fun _ => Going sink) m

/-- A computation that ends with `exits` if it has come to an `exit`, and in no other case. -/
abbrev PassesExit (sink : Sink) (m : Traced Flow) : Prop :=
  Leads sink (Flow.Heeds sink) m

theorem Leads.pure {Q : α → Recording → Prop} {a : α} (h : ∀ r, Going sink r → Q a r) :
    Leads sink Q (Pure.pure a) :=
  h

theorem Leads.bind {Q : α → Recording → Prop} {R : β → Recording → Prop} {m : Traced α}
    {f : α → Traced β} (hm : Leads sink Q m) (hf : ∀ a r, Q a r → Settles sink R (f a r)) :
    Leads sink R (m >>= f) := by
  intro r hr
  have hfirst := hm r hr
  show Settles sink R (EStateM.bind m f r)
  simp only [EStateM.bind]
  cases h : m r with
  | ok a r' =>
    rw [h] at hfirst
    exact hf a r' hfirst
  | error stop r' =>
    rw [h] at hfirst
    exact hfirst

theorem Leads.evaluates {Q : α → Recording → Prop} {m : Traced α} {e : Expr}
    (hm : Leads sink Q m) : Leads sink Q (note place (.evaluates e) >>= fun _ => m) := by
  rintro ⟨world, events⟩ hr
  exact hm _ (hr.snoc rfl rfl)

theorem Leads.starts {Q : α → Recording → Prop} {m : Traced α} {s : Stmt}
    (hs : Event.isExit ⟨place, .starts s⟩ = false) (hm : Leads sink Q m) :
    Leads sink Q (note place (.starts s) >>= fun _ => m) := by
  rintro ⟨world, events⟩ hr
  exact hm _ (hr.snoc hs rfl)

theorem Quiet.lookUp (m : Evaluation α) : Quiet sink (lookUp place m) := by
  rintro ⟨⟨env, sink'⟩, events⟩ hr
  simp only [Traced.lookUp]
  cases m env with
  | ok a env' => exact hr.snoc rfl rfl
  | error e env' => exact hr.snoc rfl rfl

theorem Quiet.ofExcept (result : Except RuntimeError α) : Quiet sink (ofExcept result) := by
  rintro ⟨world, events⟩ hr
  cases result with
  | ok a => exact hr
  | error e => exact hr

theorem Quiet.define (name : String) (value : Value) :
    Quiet sink (lift (Run.define name value)) :=
  fun _ hr => ⟨hr.noExit, hr.sink_eq⟩

/-- What cannot be written in full is written as far as it fits. -/
theorem Quiet.writeLine (text : String) : Quiet sink (writeLine place text) := by
  rintro ⟨⟨env, sink'⟩, events⟩ hr
  show Settles sink _ (lift (Run.writeLine text) ⟨⟨env, sink'⟩, events ++ [⟨place, .writes text⟩]⟩)
  simp only [lift, Run.writeLine]
  rcases hwrite : sink'.write (text ++ "\n") with ⟨sink'', written⟩
  have hsink : sink'' = Event.writtenTo sink' ⟨place, .writes text⟩ := by
    simp only [Event.writtenTo, hwrite]
  cases written with
  | true => exact hr.snoc rfl hsink
  | false => exact hr.snoc rfl hsink

theorem PassesExit.inScope {m : Traced Flow} (hm : PassesExit sink m) :
    PassesExit sink (inScope m) := by
  rintro ⟨⟨env, sink'⟩, events⟩ hr
  have hinner := hm ⟨⟨env.enter, sink'⟩, events⟩ ⟨hr.noExit, hr.sink_eq⟩
  simp only [Traced.inScope]
  cases h : m ⟨⟨env.enter, sink'⟩, events⟩ with
  | ok flow r =>
    rw [h] at hinner
    cases flow with
    | exits => exact ⟨hinner.exit_last, hinner.sink_eq⟩
    | normal => exact ⟨hinner.noExit, hinner.sink_eq⟩
    | breaks => exact ⟨hinner.noExit, hinner.sink_eq⟩
    | continues => exact ⟨hinner.noExit, hinner.sink_eq⟩
  | error stop r =>
    rw [h] at hinner
    exact ⟨hinner.noExit, hinner.sink_eq⟩

/-- A loop goes on after every end of its body but `exits`. -/
theorem PassesExit.loop {condition : Traced Bool} {body : Traced Flow} {increment : Traced Unit}
    (hc : Quiet sink condition) (hb : PassesExit sink body) (hi : Quiet sink increment)
    (rounds : Nat) : PassesExit sink (loop condition body increment rounds) := by
  induction rounds with
  | zero => exact fun _ hr => hr
  | succ rounds ih =>
    refine hc.bind fun goesOn r hr => ?_
    cases goesOn with
    | false => exact hr
    | true =>
      refine hb.bind (fun flow r hr => ?_) r hr
      cases flow with
      | normal => exact ih r hr
      | breaks => exact hr
      | continues => exact hi.bind (fun _ => ih) r hr
      | exits => exact hr

end Traced

open Traced

theorem Expr.quiet_trace {sink : Sink} (e : Expr) (place : Place) :
    Quiet sink (e.trace place) := by
  induction e generalizing place with
  | literal value => exact .evaluates (.pure fun _ => id)
  | grouping inner ih => exact .evaluates (ih _)
  | unary operator operand ih =>
    exact .evaluates ((ih _).bind fun value => Quiet.ofExcept _)
  | binary left operator right ihl ihr =>
    exact .evaluates ((ihl _).bind fun leftValue =>
      (ihr _).bind fun rightValue => Quiet.ofExcept _)
  | logical left operator right ihl ihr =>
    refine .evaluates ((ihl _).bind fun value => ?_)
    split
    · exact fun _ => id
    · exact ihr _
  | ternary condition ifTrue ifFalse ihc iht ihf =>
    refine .evaluates ((ihc _).bind fun value => ?_)
    split
    · exact iht _
    · exact ihf _
  | reference name => exact .evaluates (Quiet.lookUp _)
  | assign name value ih =>
    exact .evaluates ((ih _).bind fun result =>
      (Quiet.lookUp _).bind fun _ _ => id)

theorem Expr.quiet_traceTest {sink : Sink} (e : Expr) (place : Place) :
    Quiet sink (e.traceTest place) :=
  (e.quiet_trace place).bind fun _ _ => id

namespace Stmt

variable {sink : Sink}

/-- An increment that is read is an expression, so that how it ends may be ignored. -/
theorem quiet_traceIncrement (rounds : Nat) {round : Stmt} (h : isRegularRound round)
    (place : Place) : Quiet sink (traceIncrement rounds place round) := by
  obtain ⟨body, -, rfl | ⟨increment, rfl⟩⟩ := exists_of_isRegularRound h
  · exact fun _ => id
  · have hincrement : Quiet sink ((Stmt.expression increment).trace rounds (place ++ [1])) :=
      .starts rfl ((increment.quiet_trace _).bind fun _ _ => id)
    exact hincrement.bind fun _ _ => id

mutual

/-- A statement that is read passes on every `exit` inside of it. -/
theorem passesExit_trace (rounds : Nat) (s : Stmt) (h : s.isDeclaration ∨ s.isRegular)
    (place : Place) : PassesExit sink (s.trace rounds place) := by
  unfold trace
  match s with
  | .expression value => exact .starts rfl ((value.quiet_trace _).bind fun _ _ => id)
  | .print value =>
    exact .starts rfl ((value.quiet_trace _).bind fun result =>
      (Quiet.writeLine _).bind fun _ _ => id)
  | .declare name initializer =>
    exact .starts rfl ((initializer.quiet_trace _).bind fun value =>
      (Quiet.define _ _).bind fun _ _ => id)
  | .block statements =>
    have hregular : areRegular statements := h.resolve_left Bool.false_ne_true
    exact .starts rfl (PassesExit.inScope (passesExit_traceAll rounds statements hregular place 0))
  | .branch condition thenBranch elseBranch =>
    obtain ⟨hthen, helse⟩ := Bool.and_eq_true_iff.mp (h.resolve_left Bool.false_ne_true)
    refine .starts rfl ((condition.quiet_traceTest _).bind fun holds => ?_)
    cases holds with
    | true => exact passesExit_trace rounds thenBranch (.inr hthen) _
    | false => exact passesExit_traceOption rounds elseBranch helse _
  | .loop .whileLoop condition body =>
    have hbody : body.isRegular := h.resolve_left Bool.false_ne_true
    exact .starts rfl (PassesExit.loop (condition.quiet_traceTest _)
      (passesExit_trace rounds body (.inr hbody) _) (fun _ => id) rounds)
  | .loop .forLoop condition round =>
    have hround : isRegularRound round := h.resolve_left Bool.false_ne_true
    exact .starts rfl (PassesExit.loop (condition.quiet_traceTest _)
      (passesExit_trace rounds round (.inr (isRegular_of_isRegularRound hround)) _)
      (quiet_traceIncrement rounds hround _) rounds)
  | .switch subject cases fallback =>
    obtain ⟨hcases, hfallback⟩ := Bool.and_eq_true_iff.mp (h.resolve_left Bool.false_ne_true)
    exact .starts rfl ((subject.quiet_trace _).bind fun value =>
      passesExit_traceCases rounds value cases hcases _ 0
        (passesExit_traceOption rounds fallback hfallback _))
  | .breakLoop => exact .starts rfl fun _ => id
  | .continueLoop => exact .starts rfl fun _ => id
  | .exitProgram => exact fun r hr => hr.exit place

theorem passesExit_traceAll (rounds : Nat) (ss : List Stmt) (h : areRegular ss) (place : Place)
    (position : Nat) : PassesExit sink (traceAll rounds place position ss) := by
  match ss with
  | [] => exact fun _ => id
  | s :: rest =>
    obtain ⟨hs, hrest⟩ := Bool.and_eq_true_iff.mp h
    refine (passesExit_trace rounds s (Bool.or_eq_true_iff.mp hs) _).bind fun flow r hr => ?_
    cases flow with
    | normal => exact passesExit_traceAll rounds rest hrest place (position + 1) r hr
    | breaks => exact hr
    | continues => exact hr
    | exits => exact hr

theorem passesExit_traceOption (rounds : Nat) (o : Option Stmt) (h : isRegularOption o)
    (place : Place) : PassesExit sink (traceOption rounds place o) := by
  match o with
  | none => exact fun _ => id
  | some s => exact passesExit_trace rounds s (.inr h) place

theorem passesExit_traceCases (rounds : Nat) (subject : Value) (cases : List (Expr × Stmt))
    (h : areRegularCases cases) (place : Place) (position : Nat) {otherwise : Traced Flow}
    (ho : PassesExit sink otherwise) :
    PassesExit sink (traceCases rounds place position subject otherwise cases) := by
  match cases with
  | [] => exact ho
  | (condition, body) :: rest =>
    obtain ⟨hbody, hrest⟩ := Bool.and_eq_true_iff.mp h
    refine (condition.quiet_trace _).bind fun value => ?_
    split
    · exact passesExit_trace rounds body (.inr hbody) _
    · exact passesExit_traceCases rounds subject rest hrest place (position + 1) ho

end

end Stmt

/-- A program that is read exits if it has come to an `exit`, and in no other case. -/
theorem Program.leads_traceFrom {sink : Sink} (rounds : Nat) (p : Program)
    (h : Stmt.areRegular p) (position : Nat) :
    Leads sink (Completion.Heeds sink) (p.traceFrom rounds position) := by
  induction p generalizing position with
  | nil => exact fun _ => id
  | cons s rest ih =>
    obtain ⟨hs, hrest⟩ := Bool.and_eq_true_iff.mp h
    have hfirst : PassesExit sink (s.trace rounds [position]) :=
      s.passesExit_trace rounds (Bool.or_eq_true_iff.mp hs) _
    refine hfirst.bind fun flow r hr => ?_
    cases flow with
    | normal => exact ih hrest _ r hr
    | breaks => exact ih hrest _ r hr
    | continues => exact ih hrest _ r hr
    | exits => exact hr

/-- How a program that is read ends: it exits at its first `exit`, or it does not come to one. -/
theorem Program.exited_or_going (rounds : Nat) {p : Program} (h : Stmt.areRegular p) (w : World) :
    let final := finalState (p.trace rounds) ⟨w, []⟩
    (∃ w', p.exec rounds w = .ok .exited w') ∧ Exited w.sink final ∨
      (¬ ∃ w', p.exec rounds w = .ok .exited w') ∧ Going w.sink final := by
  have hforget : forget (p.trace rounds ⟨w, []⟩) = p.exec rounds w :=
    p.erases_trace rounds ⟨w, []⟩
  have hends : Settles w.sink (Completion.Heeds w.sink) (p.trace rounds ⟨w, []⟩) :=
    p.leads_traceFrom rounds h 0 ⟨w, []⟩ ⟨by simp, rfl⟩
  rw [← hforget, finalState]
  cases htrace : p.trace rounds ⟨w, []⟩ with
  | ok completion r =>
    rw [htrace] at hends
    cases completion with
    | exited => exact .inl ⟨⟨r.world, rfl⟩, hends⟩
    | finished =>
      refine .inr ⟨?_, hends⟩
      rintro ⟨w', hexec⟩
      cases hexec
  | error stop r =>
    rw [htrace] at hends
    refine .inr ⟨?_, hends⟩
    rintro ⟨w', hexec⟩
    cases hexec

/-- No `exit` is lost. The recorded run of a program that was read, with or without reports, is its
run, and the events hold everything that it writes. The program exits if an `exit` was started, and
in no other case; and there is no event after that one: no expression is evaluated, no statement
started and nothing written. -/
theorem exit_ends_execution (tokens : List Token) (rounds : Nat) (w : World) :
    let p := (parseProgram tokens).program
    let final := finalState (p.trace rounds) ⟨w, []⟩
    (Traced.forget (p.trace rounds ⟨w, []⟩) = p.exec rounds w ∧
      final.world.sink = sinkAfter w.sink final.events) ∧
    ((∃ w', p.exec rounds w = .ok .exited w') ↔
      ∃ event ∈ final.events, event.action = .starts .exitProgram) ∧
    ∀ before event after, final.events = before ++ event :: after →
      event.action = .starts .exitProgram → after = [] := by
  intro p final
  have hregular : Stmt.areRegular p := Parser.areRegular_parseProgram tokens
  have hforget := p.erases_trace rounds ⟨w, []⟩
  simp only [← Event.isExit_iff]
  rcases Program.exited_or_going rounds hregular w with ⟨hexec, hexited⟩ | ⟨hexec, hgoing⟩
  · exact ⟨⟨hforget, hexited.sink_eq⟩, ⟨fun _ => hexited.exists_mem, fun _ => hexec⟩,
      fun before event after => hexited.eq_nil_of_append⟩
  · refine ⟨⟨hforget, hgoing.sink_eq⟩,
      ⟨fun h => absurd h hexec, fun h => absurd h hgoing.not_mem⟩, ?_⟩
    intro before event after hevents hexit
    have hmem : event ∈ final.events := by simp [hevents]
    exact absurd ⟨event, hmem, hexit⟩ hgoing.not_mem

end Treewalk
