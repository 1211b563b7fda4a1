import Treewalk.Eval.Error

set_option autoImplicit false
set_option relaxedAutoImplicit false

/-!
Variables in nested scopes.

Scopes are stored in one array and refer to the scope around them by position. The scope at position
0 is the global one. A scope that is left is dropped with everything stored behind it.

An environment carries what opening and leaving scopes keep: the innermost scope is the last one,
and around each scope is the one before it.
-/

namespace Treewalk

/-- A scope: its variables and the position of the scope around it. -/
structure Scope where
  bindings : List (String × Value)
  enclosing : Option Nat
  deriving DecidableEq

namespace Scope

/-- The value of a variable of this scope. -/
def get? (s : Scope) (name : String) : Option Value :=
  s.bindings.lookup name

/-- Gives a variable a value among bindings, in the place where the name already stands. -/
def bind (name : String) (value : Value) : List (String × Value) → List (String × Value)
  | [] => [(name, value)]
  | (key, old) :: rest =>
    if key = name then (key, value) :: rest else (key, old) :: bind name value rest

/-- Gives a variable of this scope a value, old or new. -/
def set (s : Scope) (name : String) (value : Value) : Scope :=
  { s with bindings := bind name value s.bindings }

end Scope

/-- The position of the scope around the one at the given position. -/
def Scope.around : Nat → Option Nat
  | 0 => none
  | position + 1 => some position

/-- All open scopes, and the position of the innermost one. -/
structure Environment where
  scopes : Array Scope
  current : Nat
  size_scopes : scopes.size = current + 1
  enclosing_eq : ∀ (position : Nat) (scope : Scope),
    scopes[position]? = some scope → scope.enclosing = Scope.around position
  deriving DecidableEq

namespace Environment

/-- Only the global scope is open, and it is empty. -/
def empty : Environment where
  scopes := #[⟨[], none⟩]
  current := 0
  size_scopes := rfl
  enclosing_eq := by
    intro position scope h
    obtain ⟨hlt, rfl⟩ := Array.getElem?_eq_some_iff.mp h
    have hzero : position = 0 := Nat.lt_one_iff.mp hlt
    subst hzero
    rfl

/-- Opens a scope inside the current one. -/
def enter (env : Environment) : Environment where
  scopes := env.scopes.push ⟨[], some env.current⟩
  current := env.scopes.size
  size_scopes := Array.size_push _
  enclosing_eq := by
    intro position scope h
    rw [Array.getElem?_push] at h
    split at h
    · next hlast =>
      obtain rfl := Option.some.inj h
      rw [hlast, env.size_scopes]
      rfl
    · exact env.enclosing_eq position scope h

/-- Only the global scope has no scope around it. -/
theorem current_eq_of_enclosing {env : Environment} {bindings : List (String × Value)} {outer : Nat}
    (h : env.scopes[env.current]? = some ⟨bindings, some outer⟩) : env.current = outer + 1 := by
  have henclosing : some outer = Scope.around env.current := env.enclosing_eq _ _ h
  cases hcurrent : env.current with
  | zero =>
    rw [hcurrent] at henclosing
    contradiction
  | succ position =>
    rw [hcurrent] at henclosing
    obtain rfl := Option.some.inj henclosing
    rfl

/-- Leaves the current scope for the one around it. The global scope is never left. -/
def leave (env : Environment) : Environment :=
  match h : env.scopes[env.current]? with
  | some ⟨_, some outer⟩ =>
    { scopes := env.scopes.take env.current
      current := outer
      size_scopes := by
        have hsize := env.size_scopes
        have hcurrent := current_eq_of_enclosing h
        rw [Array.take_eq_extract, Array.size_extract]
        omega
      enclosing_eq := by
        intro position scope hscope
        rw [Array.take_eq_extract, Array.getElem?_extract, Nat.zero_add] at hscope
        split at hscope
        · exact env.enclosing_eq position scope hscope
        · contradiction }
  | _ => env

/-- The number of scopes open inside the global one. -/
def depth (env : Environment) : Nat :=
  env.scopes.size - 1

/-- The position of the first scope that has the variable, from a position outwards, among at most
so many scopes. -/
def resolveFrom (scopes : Array Scope) (name : String) : Nat → Nat → Option Nat
  | 0, _ => none
  | n + 1, position =>
    match scopes[position]? with
    | none => none
    | some scope =>
      if (scope.get? name).isSome then some position
      else
        match scope.enclosing with
        | none => none
        | some outer => resolveFrom scopes name n outer

/-- The position of the innermost scope that has the variable. -/
def resolve (env : Environment) (name : String) : Option Nat :=
  resolveFrom env.scopes name env.scopes.size env.current

/-- The value of the innermost variable of that name. -/
def get? (env : Environment) (name : String) : Option Value := do
  let position ← env.resolve name
  let scope ← env.scopes[position]?
  scope.get? name

/-- Gives a variable of the scope at a position a value. -/
def store (env : Environment) (position : Nat) (name : String) (value : Value) : Environment where
  scopes := env.scopes.modify position (·.set name value)
  current := env.current
  size_scopes := by rw [Array.size_modify, env.size_scopes]
  enclosing_eq := by
    intro i scope h
    rw [Array.getElem?_modify] at h
    split at h
    · obtain ⟨old, hold, rfl⟩ := Option.map_eq_some_iff.mp h
      exact env.enclosing_eq i old hold
    · exact env.enclosing_eq i scope h

/-- Declares a variable in the current scope. -/
def define (env : Environment) (name : String) (value : Value) : Environment :=
  env.store env.current name value

/-- Overwrites the innermost variable of that name; never declares one. -/
def assign? (env : Environment) (name : String) (value : Value) : Option Environment :=
  match env.resolve name with
  | some position => some (env.store position name value)
  | none => none

end Environment

end Treewalk
