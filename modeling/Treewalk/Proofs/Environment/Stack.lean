import Treewalk.Environment

set_option autoImplicit false
set_option relaxedAutoImplicit false

/-!
Environments as stacks of variables.

`Environment.maps` lists the variables of the open scopes from the innermost outwards. It determines
the environment, and every operation has its equation on it: the positions by which scopes refer to
each other cannot be seen.
-/

namespace Treewalk

/-- The variables of one scope. -/
abbrev Bindings := List (String × Value)

/-- Overwrites a variable in the first of the scopes that has it. -/
def overwrite? (name : String) (value : Value) : List Bindings → Option (List Bindings)
  | [] => none
  | m :: rest =>
    if (m.lookup name).isSome then some (Scope.bind name value m :: rest)
    else (overwrite? name value rest).map (m :: ·)

namespace Environment

/-- The variables of the open scopes, from the innermost outwards. -/
def maps (env : Environment) : List Bindings :=
  (env.scopes.toList.map Scope.bindings).reverse

theorem maps_ne_nil (env : Environment) : env.maps ≠ [] := by
  intro h
  have hlength := congrArg List.length h
  have hsize := env.size_scopes
  simp only [maps, List.length_reverse, List.length_map, Array.length_toList,
    List.length_nil] at hlength
  omega

/-- Scopes at the same position with the same variables are the same scope. -/
theorem scope_eq_of_bindings_eq {env env' : Environment} {position : Nat} {scope scope' : Scope}
    (h : env.scopes[position]? = some scope) (h' : env'.scopes[position]? = some scope')
    (hb : scope.bindings = scope'.bindings) : scope = scope' := by
  have he := env.enclosing_eq _ _ h
  have he' := env'.enclosing_eq _ _ h'
  cases scope
  cases scope'
  simp_all

/-- An environment is determined by the variables in its scopes. -/
theorem maps_injective {env env' : Environment} (h : env.maps = env'.maps) : env = env' := by
  have hmap : env.scopes.toList.map Scope.bindings = env'.scopes.toList.map Scope.bindings :=
    List.reverse_inj.mp h
  have hsize : env.scopes.size = env'.scopes.size := by
    simpa using congrArg List.length hmap
  have hscopes : env.scopes = env'.scopes := by
    apply Array.ext hsize
    intro position hlt hlt'
    have hb := congrArg (·[position]?) hmap
    simp only [List.getElem?_map, Array.getElem?_toList, Array.getElem?_eq_getElem hlt,
      Array.getElem?_eq_getElem hlt', Option.map_some, Option.some.injEq] at hb
    exact scope_eq_of_bindings_eq (Array.getElem?_eq_getElem hlt)
      (Array.getElem?_eq_getElem hlt') hb
  have hcurrent : env.current = env'.current := by
    have h₁ := env.size_scopes
    have h₂ := env'.size_scopes
    omega
  cases env
  cases env'
  simp_all

@[simp] theorem maps_enter (env : Environment) : env.enter.maps = [] :: env.maps := by
  simp [maps, enter]

/-- The scopes that are open when the innermost one is not counted. -/
theorem maps_tail (env : Environment) :
    env.maps.tail = ((env.scopes.take env.current).toList.map Scope.bindings).reverse := by
  have hlength : env.scopes.toList.length = env.current + 1 := by
    rw [Array.length_toList, env.size_scopes]
  simp [maps, List.tail_reverse, List.dropLast_eq_take, hlength]

theorem exists_scope {env : Environment} {position : Nat} (h : position ≤ env.current) :
    ∃ m, env.scopes[position]? = some ⟨m, Scope.around position⟩ := by
  have hlt : position < env.scopes.size := by
    rw [env.size_scopes]
    omega
  rcases hscope : env.scopes[position]? with - | ⟨m, enclosing⟩
  · exact absurd (Array.getElem?_eq_none_iff.mp hscope) (by omega)
  · have henclosing : enclosing = Scope.around position := env.enclosing_eq _ _ hscope
    exact ⟨m, by rw [henclosing]⟩

theorem maps_leave {env : Environment} {m : Bindings} {rest : List Bindings}
    (h : env.maps = m :: rest) (hr : rest ≠ []) : env.leave.maps = rest := by
  have htail := env.maps_tail
  rw [h, List.tail_cons] at htail
  obtain ⟨m, hscope⟩ := exists_scope (Nat.le_refl env.current)
  cases hcurrent : env.current with
  | zero =>
    rw [hcurrent] at htail
    exact absurd (htail.trans (by simp)) hr
  | succ outer =>
    have hinner : env.scopes[env.current]? = some ⟨m, some outer⟩ := by
      rw [hscope, hcurrent]
      rfl
    unfold leave
    split
    · exact htail.symm
    · next hnone => exact absurd hinner (hnone _ _)

/-- A value is stored in the scope that has the given number of scopes around it. -/
theorem maps_store {env : Environment} {inner outer : List Bindings} {m : Bindings}
    (h : env.maps = inner ++ m :: outer) (name : String) (value : Value) :
    (env.store outer.length name value).maps = inner ++ Scope.bind name value m :: outer := by
  have hmap : env.scopes.toList.map Scope.bindings = outer.reverse ++ m :: inner.reverse := by
    have hreverse := congrArg List.reverse h
    simpa [maps] using hreverse
  obtain ⟨before, behind, hscopes, hbefore, hbehind⟩ := List.map_eq_append_iff.mp hmap
  obtain ⟨scope, after, rfl, rfl, hafter⟩ := List.map_eq_cons_iff.mp hbehind
  have hlength : outer.length = before.length := by
    rw [← List.length_reverse, ← hbefore, List.length_map]
  simp [maps, store, hscopes, hlength, List.modify_eq_take_drop, Scope.set, hbefore, hafter]

theorem maps_define {env : Environment} {m : Bindings} {rest : List Bindings}
    (h : env.maps = m :: rest) (name : String) (value : Value) :
    (env.define name value).maps = Scope.bind name value m :: rest := by
  have hlength : env.current = rest.length := by
    have hmaps := congrArg List.length h
    have hsize := env.size_scopes
    simp only [maps, List.length_reverse, List.length_map, Array.length_toList,
      List.length_cons] at hmaps
    omega
  have hsplit : env.maps = [] ++ m :: rest := h
  rw [define, hlength]
  exact maps_store hsplit name value

/-- The variables of the scopes before a position, from the innermost outwards. -/
def mapsBefore (env : Environment) (position : Nat) : List Bindings :=
  ((env.scopes.toList.take position).map Scope.bindings).reverse

theorem mapsBefore_succ {env : Environment} {position : Nat} {m : Bindings} {enclosing : Option Nat}
    (h : env.scopes[position]? = some ⟨m, enclosing⟩) :
    env.mapsBefore (position + 1) = m :: env.mapsBefore position := by
  simp [mapsBefore, List.take_add_one, h]

theorem maps_eq_mapsBefore (env : Environment) : env.maps = env.mapsBefore (env.current + 1) := by
  rw [← env.size_scopes, mapsBefore,
    List.take_of_length_le (Nat.le_of_eq Array.length_toList), maps]

@[simp] theorem length_mapsBefore {env : Environment} {position : Nat}
    (h : position ≤ env.current + 1) : (env.mapsBefore position).length = position := by
  have hsize := env.size_scopes
  simp only [mapsBefore, List.length_reverse, List.length_map, List.length_take,
    Array.length_toList]
  omega

/-- Looking for a variable from a position outwards ends at the first scope that has it. -/
theorem resolveFrom_spec {env : Environment} (name : String) {n position : Nat}
    (hn : position < n) (h : position ≤ env.current) :
    (resolveFrom env.scopes name n position = none ∧
      ∀ m ∈ env.mapsBefore (position + 1), m.lookup name = none) ∨
    ∃ inner m outer, env.mapsBefore (position + 1) = inner ++ m :: outer ∧
      resolveFrom env.scopes name n position = some outer.length ∧
      (∀ i ∈ inner, i.lookup name = none) ∧ (m.lookup name).isSome := by
  induction n generalizing position with
  | zero => exact absurd hn (Nat.not_lt_zero _)
  | succ n ih =>
    obtain ⟨m, hscope⟩ := exists_scope h
    have hbefore := mapsBefore_succ hscope
    rw [hbefore]
    by_cases hfound : (m.lookup name).isSome
    · right
      refine ⟨[], m, env.mapsBefore position, rfl, ?_, by simp, hfound⟩
      rw [length_mapsBefore (by omega)]
      simp [resolveFrom, hscope, Scope.get?, hfound]
    · have hmissing : m.lookup name = none := Option.not_isSome_iff_eq_none.mp hfound
      cases position with
      | zero =>
        left
        constructor
        · simp [resolveFrom, hscope, Scope.get?, hmissing, Scope.around]
        · intro i hi
          obtain rfl := List.mem_singleton.mp hi
          exact hmissing
      | succ outer =>
        have hnext : resolveFrom env.scopes name (n + 1) (outer + 1) =
            resolveFrom env.scopes name n outer := by
          simp [resolveFrom, hscope, Scope.get?, hmissing, Scope.around]
        rw [hnext]
        rcases ih (by omega) (by omega : outer ≤ env.current) with
          ⟨hnone, hall⟩ | ⟨inner, m', rest, heq, hsome, hinner, hm'⟩
        · exact .inl ⟨hnone, List.forall_mem_cons.mpr ⟨hmissing, hall⟩⟩
        · exact .inr ⟨m :: inner, m', rest, by rw [heq]; rfl, hsome,
            List.forall_mem_cons.mpr ⟨hmissing, hinner⟩, hm'⟩

theorem resolve_spec (env : Environment) (name : String) :
    (env.resolve name = none ∧ ∀ m ∈ env.maps, m.lookup name = none) ∨
    ∃ inner m outer, env.maps = inner ++ m :: outer ∧ env.resolve name = some outer.length ∧
      (∀ i ∈ inner, i.lookup name = none) ∧ (m.lookup name).isSome := by
  rw [maps_eq_mapsBefore, resolve]
  apply resolveFrom_spec
  · rw [env.size_scopes]
    omega
  · omega

/-- The scope with the given number of scopes around it. -/
theorem getElem?_scopes {env : Environment} {inner outer : List Bindings} {m : Bindings}
    (h : env.maps = inner ++ m :: outer) :
    ∃ scope, env.scopes[outer.length]? = some scope ∧ scope.bindings = m := by
  have hmap : env.scopes.toList.map Scope.bindings = outer.reverse ++ m :: inner.reverse := by
    have hreverse := congrArg List.reverse h
    simpa [maps] using hreverse
  have hm : (env.scopes.toList.map Scope.bindings)[outer.length]? = some m := by
    rw [hmap, ← List.length_reverse]
    simp
  rw [List.getElem?_map, Array.getElem?_toList] at hm
  exact Option.map_eq_some_iff.mp hm

/-- A variable has the value that the innermost scope with it gives. -/
theorem get?_eq (env : Environment) (name : String) :
    env.get? name = env.maps.findSome? (·.lookup name) := by
  rcases env.resolve_spec name with ⟨hnone, hall⟩ | ⟨inner, m, outer, hmaps, hsome, hinner, hm⟩
  · rw [get?, hnone]
    exact (List.findSome?_eq_none_iff.mpr hall).symm
  · obtain ⟨scope, hscope, rfl⟩ := getElem?_scopes hmaps
    rw [get?, hsome, hmaps, List.findSome?_append, List.findSome?_eq_none_iff.mpr hinner]
    obtain ⟨value, hvalue⟩ := Option.isSome_iff_exists.mp hm
    simp [hscope, Scope.get?, hvalue]

end Environment

theorem overwrite?_eq_none {name : String} {ms : List Bindings} (value : Value)
    (h : ∀ m ∈ ms, m.lookup name = none) : overwrite? name value ms = none := by
  induction ms with
  | nil => rfl
  | cons m ms ih =>
    obtain ⟨hm, hms⟩ := List.forall_mem_cons.mp h
    simp [overwrite?, hm, ih hms]

/-- The outer scopes are reached only if no inner one has the variable. -/
theorem overwrite?_append (name : String) (value : Value) (inner outer : List Bindings) :
    overwrite? name value (inner ++ outer) =
      ((overwrite? name value inner).map (· ++ outer)).or
        ((overwrite? name value outer).map (inner ++ ·)) := by
  induction inner with
  | nil => simp [overwrite?]
  | cons m inner ih =>
    by_cases hm : (m.lookup name).isSome
    · simp [overwrite?, hm]
    · simp only [List.cons_append, overwrite?, hm, ih]
      cases overwrite? name value inner <;> simp [Function.comp_def]

theorem length_overwrite? {name : String} {value : Value} {ms ms' : List Bindings}
    (h : overwrite? name value ms = some ms') : ms'.length = ms.length := by
  induction ms generalizing ms' with
  | nil => contradiction
  | cons m ms ih =>
    rw [overwrite?] at h
    split at h
    · obtain rfl := Option.some.inj h
      rfl
    · obtain ⟨rest, hrest, rfl⟩ := Option.map_eq_some_iff.mp h
      rw [List.length_cons, List.length_cons, ih hrest]

/-- Assigning overwrites the variable in the innermost scope that has it, and fails if none has. -/
theorem Environment.maps_assign? (env : Environment) (name : String) (value : Value) :
    (env.assign? name value).map maps = overwrite? name value env.maps := by
  rcases env.resolve_spec name with ⟨hnone, hall⟩ | ⟨inner, m, outer, hmaps, hsome, hinner, hm⟩
  · rw [assign?, hnone, overwrite?_eq_none value hall]
    rfl
  · rw [assign?, hsome, hmaps, overwrite?_append, overwrite?_eq_none value hinner]
    simp [overwrite?, hm, maps_store hmaps]

theorem Environment.exists_assign? {env : Environment} {name : String} {value : Value}
    {ms : List Bindings} (h : overwrite? name value env.maps = some ms) :
    ∃ env', env.assign? name value = some env' ∧ env'.maps = ms := by
  rw [← maps_assign?] at h
  exact Option.map_eq_some_iff.mp h

theorem Environment.assign?_eq_none {env : Environment} {name : String} {value : Value}
    (h : overwrite? name value env.maps = none) : env.assign? name value = none := by
  rw [← maps_assign?] at h
  exact Option.map_eq_none_iff.mp h

end Treewalk
