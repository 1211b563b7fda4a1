import Treewalk.Proofs.Eval.Footprint
import Treewalk.Proofs.Eval.Trace

set_option autoImplicit false
set_option relaxedAutoImplicit false

/-!
Variables are found where the text of a program says so.

Scopes are searched at run time, but at each place of a program exactly those variables are found
that were global at the start or are declared before the place around it. The invariant says this of
the environment, and of every search so far that it ended accordingly.
-/

namespace Treewalk

section Searches

/-- The variables that are found are the global ones and those of the given names. -/
def Environment.Binds (isGlobal : String → Prop) (declared : List String) (env : Environment) :
    Prop :=
  ∀ name, (env.get? name).isSome ↔ isGlobal name ∨ name ∈ declared

variable {isGlobal : String → Prop} {declared : List String} {env env' : Environment}

theorem Environment.Binds.congr (h : env.Binds isGlobal declared)
    (hsame : ∀ name, (env'.get? name).isSome ↔ (env.get? name).isSome) :
    env'.Binds isGlobal declared :=
  fun name => (hsame name).trans (h name)

theorem Environment.Binds.define (h : env.Binds isGlobal declared) (name : String)
    (value : Value) : (env.define name value).Binds isGlobal (name :: declared) := by
  intro other
  rw [isSome_get?_define, h other, List.mem_cons]
  exact or_left_comm

theorem Environment.Binds.enter (h : env.Binds isGlobal declared) :
    env.enter.Binds isGlobal declared := by
  apply h.congr
  intro name
  simp only [isSome_get?_iff, valueAt?_enter]

/-- A search for a variable that leaves all others in their scopes. It fails if there is none of the
name, and in no other case. -/
def Evaluation.Seeks {α : Type} (name : Token) (m : Evaluation α) : Prop :=
  ∀ env : Environment,
    match m env with
    | .ok _ env' => (env.get? name.lexeme).isSome ∧
      ∀ other, (env'.get? other).isSome ↔ (env.get? other).isSome
    | .error e _ => ¬ (env.get? name.lexeme).isSome ∧ e = .undefinedVariable name

theorem Evaluation.seeks_get (name : Token) : Seeks name (get name) := by
  intro env
  simp only [get]
  cases h : env.get? name.lexeme with
  | some value => simp
  | none => simp

theorem Evaluation.seeks_assign (name : Token) (value : Value) :
    Seeks name (assign name value) := by
  intro env
  have hiff := env.isSome_assign?_iff name.lexeme value
  simp only [assign]
  cases h : env.assign? name.lexeme value with
  | some env' =>
    have hfootprint : Environment.Footprint (fun _ => True) (fun _ => False) env env' :=
      .assign trivial h
    exact ⟨hiff.mp (by rw [h]; rfl), hfootprint.isSome_get?_iff⟩
  | none => exact ⟨fun hsome => absurd (hiff.mpr hsome) (by rw [h]; simp), rfl⟩

end Searches

/-- Whether a variable is searched for. -/
def Action.isSearch : Action → Bool
  | .looksUp _ => true
  | _ => false

namespace Event

/-- The error that a search for a variable raised. -/
def error? (event : Event) : Option RuntimeError :=
  match event.action with
  | .looksUp error? => error?
  | _ => none

theorem error?_eq_some {event : Event} {e : RuntimeError} :
    event.error? = some e ↔ event.action = .looksUp (some e) := by
  unfold error?
  split
  · next error? heq => simp [heq]
  · next hother =>
    simp only [reduceCtorEq, false_iff]
    exact hother (some e)

/-- A search for a variable is for the name that occurs at its place, and raises an error if that is
not in scope and in no other case. -/
def IsLexical (occurrenceAt? : Place → Option Occurrence) (isGlobal : String → Prop)
    (event : Event) : Prop :=
  ∀ error?, event.action = .looksUp error? →
    ∃ o, occurrenceAt? event.place = some o ∧
      (o.InScope isGlobal ∧ error? = none ∨
        ¬ o.InScope isGlobal ∧ error? = some (.undefinedVariable o.name))

end Event

section Invariant

variable (occurrenceAt? : Place → Option Occurrence) (isGlobal : String → Prop)

/-- Every search ended as the text says, and found its variable. -/
def FindsAll (events : List Event) : Prop :=
  ∀ event ∈ events, event.IsLexical occurrenceAt? isGlobal ∧ event.error? = none

/-- The events of a run that has stopped: a search that failed is what stopped it, and an undefined
variable stops it in no other way. -/
structure StoppedBy (stop : Halt) (events : List Event) : Prop where
  lexical : ∀ event ∈ events, event.IsLexical occurrenceAt? isGlobal
  raised : ∀ event ∈ events, ∀ e, event.error? = some e → stop = .error e
  found : ∀ name, stop = .error (.undefinedVariable name) →
    ∃ event ∈ events, event.error? = some (.undefinedVariable name)

/-- A recorded run that goes on where the given names are declared. -/
structure GoesOn (declared : List String) (r : Recording) : Prop where
  binds : r.world.environment.Binds isGlobal declared
  findsAll : FindsAll occurrenceAt? isGlobal r.events

end Invariant

section Searching

variable {occurrenceAt? : Place → Option Occurrence} {isGlobal : String → Prop}
  {events : List Event} {event : Event}

theorem FindsAll.snoc (h : FindsAll occurrenceAt? isGlobal events)
    (hlexical : event.IsLexical occurrenceAt? isGlobal) (herror : event.error? = none) :
    FindsAll occurrenceAt? isGlobal (events ++ [event]) :=
  List.forall_mem_append.mpr ⟨h, List.forall_mem_singleton.mpr ⟨hlexical, herror⟩⟩

/-- A run that found all its variables is stopped by something else. -/
theorem FindsAll.stoppedBy (h : FindsAll occurrenceAt? isGlobal events) {stop : Halt}
    (hstop : ∀ name, stop ≠ .error (.undefinedVariable name)) :
    StoppedBy occurrenceAt? isGlobal stop events where
  lexical event hevent := (h event hevent).1
  raised event hevent e he := by
    rw [(h event hevent).2] at he
    contradiction
  found name heq := absurd heq (hstop name)

/-- A run is stopped by the first search that fails. -/
theorem FindsAll.stoppedBy_snoc (h : FindsAll occurrenceAt? isGlobal events)
    (hlexical : event.IsLexical occurrenceAt? isGlobal) {e : RuntimeError}
    (herror : event.error? = some e) :
    StoppedBy occurrenceAt? isGlobal (.error e) (events ++ [event]) where
  lexical := List.forall_mem_append.mpr
    ⟨fun old hold => (h old hold).1, List.forall_mem_singleton.mpr hlexical⟩
  raised := by
    refine List.forall_mem_append.mpr ⟨fun old hold e' he' => ?_, ?_⟩
    · rw [(h old hold).2] at he'
      contradiction
    · refine List.forall_mem_singleton.mpr fun e' he' => ?_
      rw [Option.some.inj (herror.symm.trans he')]
  found name heq := by
    refine ⟨event, List.mem_append_right _ (List.mem_singleton.mpr rfl), ?_⟩
    rw [herror, Halt.error.inj heq]

theorem GoesOn.outOfRounds {declared : List String} {r : Recording}
    (h : GoesOn occurrenceAt? isGlobal declared r) :
    StoppedBy occurrenceAt? isGlobal .outOfRounds r.events :=
  h.findsAll.stoppedBy fun name => by simp

end Searching

namespace Traced

variable {α : Type}

section Invariant

variable (occurrenceAt? : Place → Option Occurrence) (isGlobal : String → Prop)

/-- From where some names are declared, a computation searches as the text says, whatever is
declared when it ends. -/
abbrev Searches (declared : List String) (m : Traced α) : Prop :=
  Keeps (GoesOn occurrenceAt? isGlobal declared)
    (fun r => FindsAll occurrenceAt? isGlobal r.events)
    (fun stop r => StoppedBy occurrenceAt? isGlobal stop r.events) m

/-- From where some names are declared, a computation searches as the text says, and goes on where
other names are declared. -/
abbrev Scopes (declared declared' : List String) (m : Traced α) : Prop :=
  Keeps (GoesOn occurrenceAt? isGlobal declared) (GoesOn occurrenceAt? isGlobal declared')
    (fun stop r => StoppedBy occurrenceAt? isGlobal stop r.events) m

end Invariant

section Rules

variable {occurrenceAt? : Place → Option Occurrence} {isGlobal : String → Prop}
  {declared : List String} {place : Place}

theorem Searches.pure (a : α) : Searches occurrenceAt? isGlobal declared (Pure.pure a) :=
  (Keeps.pure a).mono fun _ hr => hr.findsAll

theorem Keeps.noted {Q : Recording → Prop} {E : Halt → Recording → Prop} {action : Action}
    (haction : action.isSearch = false) {m : Traced α}
    (hm : Keeps (GoesOn occurrenceAt? isGlobal declared) Q E m) :
    Keeps (GoesOn occurrenceAt? isGlobal declared) Q E (note place action >>= fun _ => m) := by
  rintro ⟨world, events⟩ hr
  have herror : Event.error? ⟨place, action⟩ = none := by
    cases action with
    | looksUp error? => contradiction
    | _ => rfl
  have hlexical : Event.IsLexical occurrenceAt? isGlobal ⟨place, action⟩ := by
    intro error? heq
    cases heq
    contradiction
  exact hm ⟨world, events ++ [⟨place, action⟩]⟩ ⟨hr.binds, hr.findsAll.snoc hlexical herror⟩

theorem Keeps.ofExcept {result : Except RuntimeError α}
    (h : ∀ name, result ≠ .error (.undefinedVariable name)) :
    Scopes occurrenceAt? isGlobal declared declared (Traced.ofExcept result) := by
  intro r hr
  cases result with
  | ok a => exact hr
  | error e =>
    apply hr.findsAll.stoppedBy
    intro name heq
    exact h name (by rw [Halt.error.inj heq])

theorem Keeps.writeLine (text : String) :
    Scopes occurrenceAt? isGlobal declared declared (Traced.writeLine place text) := by
  refine .noted rfl fun r hr => ?_
  simp only [lift, Run.writeLine]
  rcases r.world.sink.write (text ++ "\n") with ⟨sink, written⟩
  cases written with
  | true => exact ⟨hr.binds, hr.findsAll⟩
  | false => exact hr.findsAll.stoppedBy fun name heq => by cases heq

theorem Keeps.define (name : String) (value : Value) :
    Scopes occurrenceAt? isGlobal declared (name :: declared) (lift (Run.define name value)) :=
  fun _ hr => ⟨hr.binds.define name value, hr.findsAll⟩

/-- A search finds a name that is in scope, and fails for one that is not. -/
theorem Keeps.lookUp {name : Token} {m : Evaluation α} (hm : Evaluation.Seeks name m)
    (hplace : occurrenceAt? place = some ⟨name, declared⟩) :
    Scopes occurrenceAt? isGlobal declared declared (Traced.lookUp place m) := by
  rintro ⟨⟨env, sink⟩, events⟩ hr
  have hbinds : (env.get? name.lexeme).isSome ↔ Occurrence.InScope isGlobal ⟨name, declared⟩ :=
    hr.binds name.lexeme
  have hseeks := hm env
  simp only [Traced.lookUp]
  cases h : m env with
  | ok a env' =>
    rw [h] at hseeks
    obtain ⟨hfound, hsame⟩ := hseeks
    refine ⟨hr.binds.congr hsame, hr.findsAll.snoc ?_ rfl⟩
    intro error? heq
    exact ⟨_, hplace, .inl ⟨hbinds.mp hfound, (Action.looksUp.inj heq).symm⟩⟩
  | error e env' =>
    rw [h] at hseeks
    obtain ⟨hmissing, rfl⟩ := hseeks
    refine hr.findsAll.stoppedBy_snoc ?_ rfl
    intro error? heq
    exact ⟨_, hplace, .inr ⟨mt hbinds.mpr hmissing, (Action.looksUp.inj heq).symm⟩⟩

/-- In a scope of its own a computation may declare what it likes. -/
theorem Keeps.inScope {A D : String → Prop} {m : Traced α} {n : Run α} (herases : Erases m n)
    (hmoves : Moves (World.Evolves A D) n)
    (hm : Searches occurrenceAt? isGlobal declared m) :
    Scopes occurrenceAt? isGlobal declared declared (Traced.inScope m) := by
  rintro ⟨⟨env, sink⟩, events⟩ hr
  have hinner := hm ⟨⟨env.enter, sink⟩, events⟩ ⟨hr.binds.enter, hr.findsAll⟩
  have hforget : forget (m ⟨⟨env.enter, sink⟩, events⟩) = n ⟨env.enter, sink⟩ := herases _
  have hevolves : World.Evolves A D ⟨env.enter, sink⟩ (finalState n ⟨env.enter, sink⟩) := hmoves _
  simp only [Traced.inScope]
  cases h : m ⟨⟨env.enter, sink⟩, events⟩ with
  | ok a r =>
    -- What the body declared is gone; for the rest the run without events answers.
    rw [h] at hinner hforget
    rw [finalState, ← hforget] at hevolves
    have hfootprint : Environment.Footprint A (fun _ => False) env r.world.environment.leave :=
      (Environment.Evolves.footprint hevolves).leave
    exact ⟨hr.binds.congr hfootprint.isSome_get?_iff, hinner⟩
  | error stop r =>
    rw [h] at hinner
    exact hinner

end Rules

end Traced

open Traced

/-- What occurs at the places below one of them. -/
def OccursBelow (occurrenceAt? : Place → Option Occurrence) (place : Place)
    (part : Place → Option Occurrence) : Prop :=
  ∀ rest, occurrenceAt? (place ++ rest) = part rest

/-- What occurs at the places below the items of a list, from a position on. -/
def OccursFrom (occurrenceAt? : Place → Option Occurrence) (place : Place) (position : Nat)
    (items : Nat → Place → Option Occurrence) : Prop :=
  ∀ i rest, occurrenceAt? (place ++ (position + i) :: rest) = items i rest

section Programs

variable {occurrenceAt? : Place → Option Occurrence} {isGlobal : String → Prop}
  {declared : List String} {place : Place}

theorem OccursBelow.deeper {part : Place → Option Occurrence}
    (h : OccursBelow occurrenceAt? place part) (path : Place) :
    OccursBelow occurrenceAt? (place ++ path) fun rest => part (path ++ rest) := by
  intro rest
  rw [List.append_assoc]
  exact h (path ++ rest)

theorem OccursBelow.here {part : Place → Option Occurrence}
    (h : OccursBelow occurrenceAt? place part) : occurrenceAt? place = part [] := by
  have hnil := h []
  rwa [List.append_nil] at hnil

theorem OccursBelow.items {part : Place → Option Occurrence}
    (h : OccursBelow occurrenceAt? place part) :
    OccursFrom occurrenceAt? place 0 fun i rest => part (i :: rest) := by
  intro i rest
  rw [Nat.zero_add]
  exact h (i :: rest)

section Items

variable {position : Nat} {items : Nat → Place → Option Occurrence}

theorem OccursFrom.first (h : OccursFrom occurrenceAt? place position items) (path : Place) :
    OccursBelow occurrenceAt? (place ++ position :: path) fun rest => items 0 (path ++ rest) := by
  intro rest
  rw [List.append_assoc]
  exact h 0 (path ++ rest)

theorem OccursFrom.rest (h : OccursFrom occurrenceAt? place position items) :
    OccursFrom occurrenceAt? place (position + 1) fun i => items (i + 1) := by
  intro i rest
  rw [Nat.add_assoc, Nat.add_comm 1 i]
  exact h (i + 1) rest

end Items

namespace Operator

/-- No operator searches for a variable. -/
theorem unary_ne_undefinedVariable (operator : Token) (operand : Value) (name : Token) :
    unary operator operand ≠ .error (.undefinedVariable name) := by
  unfold unary
  split
  · simp
  · split <;> simp
  · simp

theorem binary_ne_undefinedVariable (operator : Token) (left right : Value) (name : Token) :
    binary operator left right ≠ .error (.undefinedVariable name) := by
  have hsum : sum operator left right ≠ .error (.undefinedVariable name) := by
    unfold sum
    split <;> simp
  have harithmetic : ∀ f, arithmetic operator f left right ≠ .error (.undefinedVariable name) := by
    intro f
    unfold arithmetic
    split <;> simp
  have hcomparison : comparison operator left right ≠ .error (.undefinedVariable name) := by
    unfold comparison
    split <;> simp
  unfold binary
  split
  all_goals simp [hsum, harithmetic, hcomparison]

end Operator

/-- Evaluating an expression searches for the names that occur in it. -/
theorem Expr.scopes_trace (e : Expr)
    (h : OccursBelow occurrenceAt? place (e.occurrenceAt? declared)) :
    Scopes occurrenceAt? isGlobal declared declared (e.trace place) := by
  induction e generalizing place with
  | literal value => exact .noted rfl (.pure value)
  | grouping inner ih => exact .noted rfl (ih (h.deeper [0]))
  | unary operator operand ih =>
    exact .noted rfl (.bind (ih (h.deeper [0])) fun value =>
      .ofExcept (Operator.unary_ne_undefinedVariable operator value))
  | binary left operator right ihl ihr =>
    exact .noted rfl (.bind (ihl (h.deeper [0])) fun leftValue =>
      .bind (ihr (h.deeper [1])) fun rightValue =>
        .ofExcept (Operator.binary_ne_undefinedVariable operator leftValue rightValue))
  | logical left operator right ihl ihr =>
    refine .noted rfl (.bind (ihl (h.deeper [0])) fun value => ?_)
    split
    · exact .pure value
    · exact ihr (h.deeper [1])
  | ternary condition ifTrue ifFalse ihc iht ihf =>
    refine .noted rfl (.bind (ihc (h.deeper [0])) fun value => ?_)
    split
    · exact iht (h.deeper [1])
    · exact ihf (h.deeper [2])
  | reference name =>
    exact .noted rfl (.lookUp (Evaluation.seeks_get name) h.here)
  | assign name value ih =>
    exact .noted rfl (.bind (ih (h.deeper [0])) fun result =>
      .bind (.lookUp (Evaluation.seeks_assign name result) h.here) fun _ => .pure result)

theorem Expr.scopes_traceTest (e : Expr)
    (h : OccursBelow occurrenceAt? place (e.occurrenceAt? declared)) :
    Scopes occurrenceAt? isGlobal declared declared (e.traceTest place) :=
  .bind (e.scopes_trace h) fun _ => .pure _

namespace Stmt

theorem introduced_eq_nil {s : Stmt} (h : s.isRegular) : s.introduced = [] := by
  cases s with
  | declare name initializer => contradiction
  | _ => rfl

/-- A declaration adds its name to those in scope, but not for its own initializer. -/
theorem scopes_declare (rounds : Nat) (name : Token) (initializer : Expr)
    (h : OccursBelow occurrenceAt? place ((Stmt.declare name initializer).occurrenceAt? declared)) :
    Scopes occurrenceAt? isGlobal declared (name.lexeme :: declared)
      ((Stmt.declare name initializer).trace rounds place) :=
  .noted rfl (.bind (initializer.scopes_trace (h.deeper [0])) fun value =>
    .bind (.define name.lexeme value) fun _ => .pure _)

/-- A statement of a list adds what it declares to the names in scope. -/
theorem scopes_item {rounds : Nat} {s : Stmt} (hs : s.isDeclaration || s.isRegular)
    (h : OccursBelow occurrenceAt? place (s.occurrenceAt? declared))
    (hregular : s.isRegular →
      Scopes occurrenceAt? isGlobal declared declared (s.trace rounds place)) :
    Scopes occurrenceAt? isGlobal declared (s.introduced ++ declared) (s.trace rounds place) := by
  by_cases hr : s.isRegular
  · rw [introduced_eq_nil hr]
    exact hregular hr
  · cases s with
    | declare name initializer => exact scopes_declare rounds name initializer h
    | _ => simp_all [isDeclaration]

/-- The increment of a loop is run outside of the block that it is written in, where the same names
are in scope. -/
theorem scopes_traceIncrement (rounds : Nat) {round : Stmt} (hround : isRegularRound round)
    (h : OccursBelow occurrenceAt? place (round.occurrenceAt? declared)) :
    Scopes occurrenceAt? isGlobal declared declared (traceIncrement rounds place round) := by
  obtain ⟨body, hbody, rfl | ⟨increment, rfl⟩⟩ := exists_of_isRegularRound hround
  · exact .pure ()
  · have hincrement : OccursBelow occurrenceAt? (place ++ [1])
        ((Stmt.expression increment).occurrenceAt? (body.introduced ++ declared)) :=
      h.deeper [1]
    rw [introduced_eq_nil hbody, List.nil_append] at hincrement
    exact .bind (.noted rfl (.bind
      (increment.scopes_trace (hincrement.deeper [0])) fun _ => .pure _)) fun _ => .pure ()

mutual

/-- A regular statement goes on with the names in scope that it began with. -/
theorem scopes_trace (rounds : Nat) (s : Stmt) {declared : List String} {place : Place}
    (hs : s.isRegular) (h : OccursBelow occurrenceAt? place (s.occurrenceAt? declared)) :
    Scopes occurrenceAt? isGlobal declared declared (s.trace rounds place) := by
  unfold trace
  refine .noted rfl ?_
  match s with
  | .expression value => exact .bind (value.scopes_trace (h.deeper [0])) fun _ => .pure _
  | .print value =>
    exact .bind (value.scopes_trace (h.deeper [0])) fun result =>
      .bind (.writeLine _) fun _ => .pure _
  | .declare name initializer => contradiction
  | .block statements =>
    -- The list may end early, with some of its names not declared. None of them outlives the block.
    have hmoves : Moves (World.Evolves (fun _ => True) (fun _ => True))
        (execAll rounds statements) :=
      moves_execAll rounds statements (fun _ _ => trivial) fun _ _ _ _ => trivial
    exact .inScope (erases_traceAll rounds statements place 0) hmoves
      (scopes_traceAll rounds statements hs h.items)
  | .branch condition thenBranch elseBranch =>
    obtain ⟨hthen, helse⟩ := Bool.and_eq_true_iff.mp hs
    refine .bind (condition.scopes_traceTest (h.deeper [0])) fun holds => ?_
    cases holds with
    | true => exact scopes_trace rounds thenBranch hthen (h.deeper [1])
    | false => exact scopes_traceOption rounds elseBranch helse (h.deeper [2])
  | .loop .whileLoop condition body =>
    exact .loop (condition.scopes_traceTest (h.deeper [0]))
      (scopes_trace rounds body hs (h.deeper [1])) (.pure ())
      (fun _ hr => hr.outOfRounds) rounds
  | .loop .forLoop condition round =>
    exact .loop (condition.scopes_traceTest (h.deeper [0]))
      (scopes_trace rounds round (isRegular_of_isRegularRound hs) (h.deeper [1]))
      (scopes_traceIncrement rounds hs (h.deeper [1]))
      (fun _ hr => hr.outOfRounds) rounds
  | .switch subject cases fallback =>
    obtain ⟨hcases, hfallback⟩ := Bool.and_eq_true_iff.mp hs
    exact .bind (subject.scopes_trace (h.deeper [0])) fun value =>
      scopes_traceCases rounds value cases hcases (h.deeper [1]).items
        (scopes_traceOption rounds fallback hfallback (h.deeper [2]))
  | .breakLoop => exact .pure _
  | .continueLoop => exact .pure _
  | .exitProgram => exact .pure _

theorem scopes_traceAll (rounds : Nat) (ss : List Stmt) {declared : List String} {place : Place}
    {position : Nat} (hss : areRegular ss)
    (h : OccursFrom occurrenceAt? place position (occurrenceInAll? declared ss)) :
    Searches occurrenceAt? isGlobal declared (traceAll rounds place position ss) := by
  match ss with
  | [] => exact Searches.pure _
  | s :: rest =>
    obtain ⟨hs, hrest⟩ := Bool.and_eq_true_iff.mp hss
    have hitem : Scopes occurrenceAt? isGlobal declared (s.introduced ++ declared)
        (s.trace rounds (place ++ [position])) :=
      scopes_item hs (h.first []) fun hr => scopes_trace rounds s hr (h.first [])
    refine .bind hitem fun flow => ?_
    cases flow with
    | normal => exact scopes_traceAll rounds rest hrest h.rest
    | breaks => exact Searches.pure _
    | continues => exact Searches.pure _
    | exits => exact Searches.pure _

theorem scopes_traceOption (rounds : Nat) (o : Option Stmt) {declared : List String}
    {place : Place} (ho : isRegularOption o)
    (h : OccursBelow occurrenceAt? place (occurrenceInOption? declared o)) :
    Scopes occurrenceAt? isGlobal declared declared (traceOption rounds place o) := by
  match o with
  | none => exact .pure _
  | some s => exact scopes_trace rounds s ho h

theorem scopes_traceCases (rounds : Nat) (subject : Value) (cases : List (Expr × Stmt))
    {declared : List String} {place : Place} {position : Nat} {otherwise : Traced Flow}
    (hcases : areRegularCases cases)
    (h : OccursFrom occurrenceAt? place position (occurrenceInCases? declared cases))
    (ho : Scopes occurrenceAt? isGlobal declared declared otherwise) :
    Scopes occurrenceAt? isGlobal declared declared
      (traceCases rounds place position subject otherwise cases) := by
  match cases with
  | [] => exact ho
  | (condition, body) :: rest =>
    obtain ⟨hbody, hrest⟩ := Bool.and_eq_true_iff.mp hcases
    refine .bind (condition.scopes_trace (h.first [0])) fun value => ?_
    split
    · exact scopes_trace rounds body hbody (h.first [1])
    · exact scopes_traceCases rounds subject rest hrest h.rest ho

end

end Stmt

/-- A program that is read searches for its names as its text says. -/
theorem Program.scopes_traceFrom (rounds : Nat) (p : Program) {position : Nat}
    (hp : Stmt.areRegular p)
    (h : OccursFrom occurrenceAt? [] position (Stmt.occurrenceInAll? declared p)) :
    Searches occurrenceAt? isGlobal declared (p.traceFrom rounds position) := by
  induction p generalizing position declared with
  | nil => exact Searches.pure _
  | cons s rest ih =>
    obtain ⟨hs, hrest⟩ := Bool.and_eq_true_iff.mp hp
    have hitem : Scopes occurrenceAt? isGlobal declared (s.introduced ++ declared)
        (s.trace rounds [position]) :=
      Stmt.scopes_item hs (h.first []) fun hr => s.scopes_trace rounds hr (h.first [])
    refine .bind hitem fun flow => ?_
    cases flow with
    | normal => exact ih hrest h.rest
    | breaks => exact ih hrest h.rest
    | continues => exact ih hrest h.rest
    | exits => exact Searches.pure _

end Programs

/-- The global variables of a world. -/
def World.IsGlobal (w : World) (name : String) : Prop :=
  (w.environment.valueAt? 0 name).isSome

/-- A program that is read, from a world with its global scope alone: if it comes to its end, it has
found all that it searched for, and if it is stopped, its events tell why. -/
theorem Program.ends_trace (rounds : Nat) {p : Program} (hp : Stmt.areRegular p) {w : World}
    (hw : w.environment.current = 0) :
    EndsWith (fun r => FindsAll p.occurrenceAt? w.IsGlobal r.events)
      (fun stop r => StoppedBy p.occurrenceAt? w.IsGlobal stop r.events)
      (p.trace rounds ⟨w, []⟩) := by
  have hitems : OccursFrom p.occurrenceAt? [] 0 (Stmt.occurrenceInAll? [] p) := by
    intro i rest
    rw [Nat.zero_add]
    rfl
  have hbinds : w.environment.Binds w.IsGlobal [] := by
    intro name
    rw [Environment.isSome_get?_of_current_eq_zero hw]
    simp [World.IsGlobal]
  exact p.scopes_traceFrom rounds hp hitems ⟨w, []⟩ ⟨hbinds, by simp [FindsAll]⟩

/-- What the events of a program say about its end: a search that failed is what stopped it, and an
undefined variable stops it in no other way. -/
theorem Program.exec_of_events (rounds : Nat) {p : Program} (hp : Stmt.areRegular p) {w : World}
    (hw : w.environment.current = 0) :
    let events := (finalState (p.trace rounds) ⟨w, []⟩).events
    (∀ event ∈ events, event.IsLexical p.occurrenceAt? w.IsGlobal) ∧
    (∀ event ∈ events, ∀ e, event.error? = some e →
      ∃ w', p.exec rounds w = .error (.error e) w') ∧
    ∀ name w', p.exec rounds w = .error (.error (.undefinedVariable name)) w' →
      ∃ event ∈ events, event.error? = some (.undefinedVariable name) := by
  have hends := p.ends_trace rounds hp hw
  have hforget : forget (p.trace rounds ⟨w, []⟩) = p.exec rounds w :=
    p.erases_trace rounds ⟨w, []⟩
  rw [← hforget, finalState]
  cases htrace : p.trace rounds ⟨w, []⟩ with
  | ok completion r =>
    rw [htrace] at hends
    refine ⟨fun event hevent => (hends event hevent).1, fun event hevent e he => ?_,
      fun name w' heq => ?_⟩
    · rw [(hends event hevent).2] at he
      contradiction
    · contradiction
  | error stop r =>
    rw [htrace] at hends
    refine ⟨hends.lexical, fun event hevent e he => ⟨r.world, ?_⟩, fun name w' heq => ?_⟩
    · rw [hends.raised event hevent e he]
      rfl
    · exact hends.found name (EStateM.Result.error.inj heq).1

end Treewalk
