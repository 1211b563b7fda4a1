import Mathlib.Data.Finmap
import Treewalk.Eval.Expr
import Treewalk.Proofs.Environment.Evolution

set_option autoImplicit false
set_option relaxedAutoImplicit false

/-!
Environments behave like stacks of finite maps.

Here a stack is a list of maps from names to values, the innermost scope first. It has no positions
and no references between scopes. An environment that is worked on from its creation answers every
request as the stack does, as long as no scope is left that was not entered before.
-/

namespace Treewalk

/-- The variables of a scope, without an order. -/
abbrev ScopeMap := Finmap fun _ : String => Value

/-- What can be done with an environment. -/
inductive ScopeOperation where
  | enter
  | leave
  | define (name : String) (value : Value)
  | assign (name : Token) (value : Value)
  | get (name : Token)

/-- What an operation answers: the value that was asked for, if any, or an error. -/
abbrev ScopeAnswer := Except RuntimeError (Option Value)

namespace ScopeOperation

/-- Whether a scope is opened. -/
def isEnter : ScopeOperation → Bool
  | .enter => true
  | _ => false

/-- Whether a scope is left. -/
def isLeave : ScopeOperation → Bool
  | .leave => true
  | _ => false

/-- Where `opened` scopes are open, no operation leaves a scope that is not open. -/
def NestedIn (opened : Nat) (operations : List ScopeOperation) : Prop :=
  ∀ before ∈ operations.inits, before.countP isLeave ≤ opened + before.countP isEnter

instance (opened : Nat) (operations : List ScopeOperation) :
    Decidable (NestedIn opened operations) :=
  inferInstanceAs (Decidable (∀ before ∈ operations.inits, _))

/-- The answers to operations in a row, and the state that they end in. -/
def performAll {σ : Type} (perform : σ → ScopeOperation → ScopeAnswer × σ) (state : σ) :
    List ScopeOperation → List ScopeAnswer × σ
  | [] => ([], state)
  | operation :: rest =>
    let here := perform state operation
    let later := performAll perform here.2 rest
    (here.1 :: later.1, later.2)

end ScopeOperation

open ScopeOperation

/-- Performs an operation on an environment. -/
def Environment.perform (env : Environment) : ScopeOperation → ScopeAnswer × Environment
  | .enter => (.ok none, env.enter)
  | .leave => (.ok none, env.leave)
  | .define name value => (.ok none, env.define name value)
  | .assign name value =>
    match Evaluation.assign name value env with
    | .ok _ env => (.ok none, env)
    | .error e env => (.error e, env)
  | .get name =>
    match Evaluation.get name env with
    | .ok value env => (.ok (some value), env)
    | .error e env => (.error e, env)

/-- Performs an operation on a stack. A name is looked for from the innermost map outwards. -/
def performOnStack (stack : List ScopeMap) : ScopeOperation → ScopeAnswer × List ScopeMap
  | .enter => (.ok none, ∅ :: stack)
  | .leave => (.ok none, stack.tail)
  | .define name value => (.ok none, stack.modifyHead (·.insert name value))
  | .assign name value =>
    match stack.findIdx? (name.lexeme ∈ ·) with
    | some position => (.ok none, stack.modify position (·.insert name.lexeme value))
    | none => (.error (.undefinedVariable name), stack)
  | .get name =>
    match stack.findSome? (·.lookup name.lexeme) with
    | some value => (.ok (some value), stack)
    | none => (.error (.undefinedVariable name), stack)

/-- The bindings of a scope as a map. -/
def Bindings.toMap (m : Bindings) : ScopeMap :=
  List.toFinmap (m.map fun entry => ⟨entry.1, entry.2⟩)

/-- The scopes of an environment as a stack. -/
def Environment.stack (env : Environment) : List ScopeMap :=
  env.maps.map Bindings.toMap

namespace Bindings

@[simp] theorem lookup_toMap (m : Bindings) (name : String) :
    (toMap m).lookup name = m.lookup name := by
  rw [toMap, Finmap.dlookup_list_toFinmap]
  induction m with
  | nil => rfl
  | cons entry rest ih =>
    obtain ⟨key, value⟩ := entry
    by_cases h : name = key
    · subst h
      simp
    · rw [lookup_cons_of_ne h, List.map_cons, List.dlookup_cons_ne _ _ h, ih]

theorem mem_toMap {m : Bindings} {name : String} :
    name ∈ toMap m ↔ (m.lookup name).isSome := by
  rw [← Finmap.lookup_isSome, lookup_toMap]

theorem toMap_bind (name : String) (value : Value) (m : Bindings) :
    toMap (Scope.bind name value m) = (toMap m).insert name value := by
  apply Finmap.ext_lookup
  intro other
  rw [lookup_toMap, Scope.lookup_bind]
  by_cases h : other = name
  · subst h
    rw [if_pos rfl, Finmap.lookup_insert]
  · rw [if_neg h, Finmap.lookup_insert_of_ne _ h, lookup_toMap]

/-- Overwriting a variable changes the first map that has it. -/
theorem map_toMap_overwrite? (name : String) (value : Value) (ms : List Bindings) :
    (overwrite? name value ms).map (List.map toMap) =
      ((ms.map toMap).findIdx? (name ∈ ·)).map fun position =>
        (ms.map toMap).modify position (·.insert name value) := by
  induction ms with
  | nil => rfl
  | cons m rest ih =>
    rw [overwrite?, List.map_cons, List.findIdx?_cons]
    by_cases h : (m.lookup name).isSome
    · have hmem : name ∈ toMap m := mem_toMap.mpr h
      simp [h, hmem, toMap_bind]
    · have hmem : name ∉ toMap m := fun hmem => h (mem_toMap.mp hmem)
      have hrest := congrArg (Option.map (toMap m :: ·)) ih
      simpa [h, hmem, Function.comp_def] using hrest

end Bindings

namespace Environment

theorem length_stack (env : Environment) : env.stack.length = env.current + 1 := by
  simp [stack, maps, env.size_scopes]

theorem stack_enter (env : Environment) : env.enter.stack = ∅ :: env.stack := by
  rw [stack, maps_enter]
  rfl

theorem stack_leave {env : Environment} (h : 2 ≤ env.stack.length) :
    env.leave.stack = env.stack.tail := by
  cases hmaps : env.maps with
  | nil => exact absurd hmaps env.maps_ne_nil
  | cons m rest =>
    have hrest : rest ≠ [] := by
      rintro rfl
      rw [stack, hmaps, List.map_singleton, List.length_singleton] at h
      omega
    rw [stack, stack, maps_leave hmaps hrest, hmaps]
    rfl

theorem stack_define (env : Environment) (name : String) (value : Value) :
    (env.define name value).stack = env.stack.modifyHead (·.insert name value) := by
  cases hmaps : env.maps with
  | nil => exact absurd hmaps env.maps_ne_nil
  | cons m rest =>
    rw [stack, stack, maps_define hmaps, hmaps, List.map_cons, Bindings.toMap_bind]
    rfl

theorem get?_eq_stack (env : Environment) (name : String) :
    env.get? name = env.stack.findSome? (·.lookup name) := by
  rw [get?_eq, stack, List.findSome?_map]
  simp only [Function.comp_def, Bindings.lookup_toMap]

theorem stack_assign? (env : Environment) (name : String) (value : Value) :
    (env.assign? name value).map stack =
      (env.stack.findIdx? (name ∈ ·)).map fun position =>
        env.stack.modify position (·.insert name value) := by
  have hmaps := congrArg (Option.map (List.map Bindings.toMap)) (env.maps_assign? name value)
  rw [Bindings.map_toMap_overwrite?, Option.map_map] at hmaps
  exact hmaps

/-- One operation on an environment is the operation on its stack. The global scope must not be
left. -/
theorem perform_eq_performOnStack (env : Environment) (operation : ScopeOperation)
    (h : operation.isLeave → 2 ≤ env.stack.length) :
    (env.perform operation).1 = (performOnStack env.stack operation).1 ∧
      (env.perform operation).2.stack = (performOnStack env.stack operation).2 := by
  cases operation with
  | enter => exact ⟨rfl, env.stack_enter⟩
  | leave => exact ⟨rfl, stack_leave (h rfl)⟩
  | define name value => exact ⟨rfl, env.stack_define name value⟩
  | assign name value =>
    have hassign := env.stack_assign? name.lexeme value
    simp only [perform, Evaluation.assign, performOnStack]
    cases hfound : env.stack.findIdx? (name.lexeme ∈ ·) with
    | none =>
      rw [hfound, Option.map_none, Option.map_eq_none_iff] at hassign
      rw [hassign]
      exact ⟨rfl, rfl⟩
    | some position =>
      rw [hfound, Option.map_some, Option.map_eq_some_iff] at hassign
      obtain ⟨env', henv', hstack⟩ := hassign
      rw [henv']
      exact ⟨rfl, hstack⟩
  | get name =>
    simp only [perform, Evaluation.get, performOnStack, get?_eq_stack]
    cases env.stack.findSome? (·.lookup name.lexeme) with
    | none => exact ⟨rfl, rfl⟩
    | some value => exact ⟨rfl, rfl⟩

end Environment

namespace ScopeOperation

/-- How many scopes an operation opens. -/
def entered (operation : ScopeOperation) : Nat :=
  if operation.isEnter then 1 else 0

/-- How many scopes an operation leaves. -/
def left (operation : ScopeOperation) : Nat :=
  if operation.isLeave then 1 else 0

theorem countP_isEnter_cons (operation : ScopeOperation) (rest : List ScopeOperation) :
    (operation :: rest).countP isEnter = rest.countP isEnter + operation.entered :=
  List.countP_cons

theorem countP_isLeave_cons (operation : ScopeOperation) (rest : List ScopeOperation) :
    (operation :: rest).countP isLeave = rest.countP isLeave + operation.left :=
  List.countP_cons

variable {opened opened' : Nat} {operation : ScopeOperation} {rest : List ScopeOperation}

theorem NestedIn.tail (h : NestedIn opened (operation :: rest))
    (hopened : opened' + operation.left = opened + operation.entered) :
    NestedIn opened' rest := by
  intro before hbefore
  have hlonger : operation :: before ∈ (operation :: rest).inits := by
    simpa using hbefore
  have hle := h _ hlonger
  rw [countP_isLeave_cons, countP_isEnter_cons] at hle
  omega

theorem NestedIn.pos_of_leave (h : NestedIn opened (operation :: rest))
    (hleave : operation.isLeave) : 1 ≤ opened := by
  have hfirst : [operation] ∈ (operation :: rest).inits := by simp
  have hle := h _ hfirst
  cases operation with
  | leave => simpa [isLeave, isEnter] using hle
  | _ => contradiction

theorem NestedIn.of_append {before after : List ScopeOperation}
    (h : NestedIn opened (before ++ after)) : NestedIn opened before := by
  intro first hfirst
  apply h
  rw [List.mem_inits] at hfirst ⊢
  exact hfirst.trans (List.prefix_append before after)

end ScopeOperation

/-- How many maps there are after an operation, if there was one to drop. -/
theorem length_performOnStack {stack : List ScopeMap} {operation : ScopeOperation}
    (h : operation.isLeave → 1 ≤ stack.length) :
    (performOnStack stack operation).2.length + operation.left =
      stack.length + operation.entered := by
  cases operation with
  | enter => rfl
  | leave =>
    have hlength : 1 ≤ stack.length := h rfl
    show stack.tail.length + 1 = stack.length
    rw [List.length_tail]
    omega
  | define name value => simp [performOnStack, left, entered, isLeave, isEnter]
  | assign name value =>
    simp only [performOnStack]
    split
    · simp [left, entered, isLeave, isEnter]
    · rfl
  | get name =>
    simp only [performOnStack]
    split
    · rfl
    · rfl

/-- Along nested operations, an environment answers as its stack and ends with the stack that this
one ends with. The scopes that are open then are those that were entered and not left. -/
theorem Environment.performAll_eq_performOnStack (env : Environment)
    {operations : List ScopeOperation} (h : NestedIn env.current operations) :
    let final := performAll perform env operations
    let expected := performAll performOnStack env.stack operations
    final.1 = expected.1 ∧ final.2.stack = expected.2 ∧
      final.2.current + operations.countP isLeave =
        env.current + operations.countP isEnter := by
  induction operations generalizing env with
  | nil => exact ⟨rfl, rfl, rfl⟩
  | cons operation rest ih =>
    have hlength := env.length_stack
    have hleave : operation.isLeave → 2 ≤ env.stack.length := by
      intro hleave
      have hpos := h.pos_of_leave hleave
      omega
    obtain ⟨hanswer, hstack⟩ := env.perform_eq_performOnStack operation hleave
    have hcurrent : (env.perform operation).2.current + operation.left =
        env.current + operation.entered := by
      have hcount := length_performOnStack fun hl => Nat.le_of_succ_le (hleave hl)
      rw [← hstack, length_stack, hlength] at hcount
      omega
    obtain ⟨hanswers, hfinal, hopened⟩ := ih _ (h.tail hcurrent)
    rw [hstack] at hanswers hfinal
    refine ⟨?_, hfinal, ?_⟩
    · simp only [performAll, hanswer, hanswers]
    · rw [countP_isLeave_cons, countP_isEnter_cons]
      simp only [performAll]
      omega

theorem length_performAll {operations : List ScopeOperation} (h : NestedIn 0 operations) :
    (performAll performOnStack [∅] operations).2.length + operations.countP isLeave =
      1 + operations.countP isEnter := by
  obtain ⟨-, hstack, hcurrent⟩ := Environment.empty.performAll_eq_performOnStack h
  have hlength := (performAll Environment.perform .empty operations).2.length_stack
  have hempty : Environment.empty.stack = [∅] := rfl
  rw [hstack, hempty] at hlength
  have hzero : Environment.empty.current = 0 := rfl
  omega

/-- An environment is a stack of maps. Operations on a new environment, in which no scope is left
that was not entered, are answered as on a stack with one empty map, and end with the same maps. The
innermost scope is the last one then, the first scope has none around it and every other one has the
one before it. And whenever a scope was left, there was another map below its own. -/
theorem Environment.performAll_refines_stack {operations : List ScopeOperation}
    (h : NestedIn 0 operations) :
    let final := performAll perform empty operations
    let expected := performAll performOnStack [∅] operations
    let env := final.2
    (final.1 = expected.1 ∧ env.stack = expected.2) ∧
    (env.current = env.scopes.size - 1 ∧ env.scopes.size ≠ 0 ∧
      env.scopes[0]?.map Scope.enclosing = some none ∧
      ∀ i, i + 1 < env.scopes.size → env.scopes[i + 1]?.map Scope.enclosing = some (some i)) ∧
    (expected.2.length + operations.countP isLeave = 1 + operations.countP isEnter ∧
      ∀ before after, operations = before ++ .leave :: after →
        2 ≤ (performAll performOnStack [∅] before).2.length) := by
  intro final expected env
  obtain ⟨hanswers, hstack, -⟩ := empty.performAll_eq_performOnStack h
  have hsize := env.size_scopes
  refine ⟨⟨hanswers, hstack⟩, ⟨by omega, by omega, ?_, fun i hi => ?_⟩, ?_, ?_⟩
  · obtain ⟨m, hscope⟩ := exists_scope (Nat.zero_le env.current)
    rw [hscope]
    rfl
  · have hle : i + 1 ≤ env.current := by omega
    obtain ⟨m, hscope⟩ := exists_scope hle
    rw [hscope]
    rfl
  · exact length_performAll h
  · rintro before after rfl
    have hcount := length_performAll h.of_append
    have hleave : before.countP isLeave + 1 ≤ before.countP isEnter := by
      have hprefix : before ++ [.leave] ∈ (before ++ .leave :: after).inits := by simp
      simpa [isLeave, isEnter] using h _ hprefix
    omega

/-- A variable is hidden by another one, which is overwritten; it is back when the scope is left, and
no variable of another name can be overwritten. -/
theorem Environment.performAll_refines_stack_shadowed :
    let a : Token := ⟨.identifier, "a", none, 1⟩
    let b : Token := ⟨.identifier, "b", none, 2⟩
    let operations : List ScopeOperation := [.define "a" .nil, .enter, .define "a" (.boolean true),
      .assign a (.boolean false), .get a, .leave, .get a, .assign b .nil]
    NestedIn 0 operations ∧
      (performAll performOnStack [∅] operations).1 = [.ok none, .ok none, .ok none, .ok none,
        .ok (some (.boolean false)), .ok none, .ok (some .nil), .error (.undefinedVariable b)] := by
  intro a b operations
  have h : NestedIn 0 operations := by decide
  refine ⟨h, ?_⟩
  rw [← (performAll_refines_stack h).1.1]
  decide +kernel

end Treewalk
