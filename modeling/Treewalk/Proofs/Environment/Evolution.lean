import Treewalk.Proofs.Environment.Stack

set_option autoImplicit false
set_option relaxedAutoImplicit false

/-!
How programs change environments.

A program reaches its variables in three ways: it overwrites a variable, it declares one in the
current scope, and it opens a scope that it leaves again. `Environment.Evolves` says that one
environment comes from another in these ways, and with which names. `Environment.Footprint` says
what can be different then: the scopes are the same ones, and only the names in question have other
values.
-/

namespace Treewalk

theorem lookup_cons_of_ne {name key : String} (h : name ≠ key) (value : Value) (m : Bindings) :
    List.lookup name ((key, value) :: m) = m.lookup name := by
  have hbeq : (name == key) = false := by simpa using h
  rw [List.lookup_cons, hbeq]

theorem Scope.lookup_bind (name : String) (value : Value) (m : Bindings) (other : String) :
    (Scope.bind name value m).lookup other =
      if other = name then some value else m.lookup other := by
  induction m with
  | nil =>
    by_cases h : other = name
    · simp [Scope.bind, h]
    · rw [Scope.bind, lookup_cons_of_ne h, if_neg h]
  | cons entry rest ih =>
    obtain ⟨key, old⟩ := entry
    rw [Scope.bind]
    split
    · next hkey =>
      subst hkey
      by_cases h : other = key
      · simp [h]
      · rw [lookup_cons_of_ne h, lookup_cons_of_ne h, if_neg h]
    · next hkey =>
      by_cases h : other = key
      · subst h
        simp [hkey]
      · rw [lookup_cons_of_ne h, lookup_cons_of_ne h, ih]

namespace Environment

/-- The value of a name in the scope at a position. -/
def valueAt? (env : Environment) (position : Nat) (name : String) : Option Value :=
  env.scopes[position]?.bind (·.get? name)

variable {env env' : Environment} {position outer : Nat} {name : String} {value : Value}

theorem valueAt?_eq_none (h : env.current < position) : env.valueAt? position name = none := by
  have hsize := env.size_scopes
  have hnone : env.scopes[position]? = none := Array.getElem?_eq_none (by omega)
  rw [valueAt?, hnone]
  rfl

theorem le_current_of_isSome (h : (env.valueAt? position name).isSome) :
    position ≤ env.current := by
  apply Nat.le_of_not_lt
  intro hlt
  rw [valueAt?_eq_none hlt] at h
  contradiction

/-- A scope that has just been opened has no names. -/
@[simp] theorem valueAt?_enter (env : Environment) (position : Nat) (name : String) :
    env.enter.valueAt? position name = env.valueAt? position name := by
  have hsize := env.size_scopes
  by_cases hnew : position = env.scopes.size
  · have hnone : env.valueAt? position name = none := valueAt?_eq_none (by omega)
    rw [hnone]
    simp [valueAt?, enter, hnew, Scope.get?]
  · simp [valueAt?, enter, Array.getElem?_push, hnew]

@[simp] theorem current_enter (env : Environment) : env.enter.current = env.current + 1 :=
  env.size_scopes

/-- Leaving a scope that is not the global one. -/
theorem leave_eq_take (h : env.current = outer + 1) :
    env.leave.current = outer ∧ env.leave.scopes = env.scopes.take env.current := by
  obtain ⟨m, hscope⟩ := exists_scope (Nat.le_refl env.current)
  have hinner : env.scopes[env.current]? = some ⟨m, some outer⟩ := by
    rw [hscope, h]
    rfl
  unfold leave
  split
  · next hsome =>
    have hcurrent := current_eq_of_enclosing hsome
    exact ⟨by simp only; omega, rfl⟩
  · next hnone => exact absurd hinner (hnone _ _)

theorem valueAt?_leave (h : env.current = outer + 1) (position : Nat) (name : String) :
    env.leave.valueAt? position name =
      if position ≤ outer then env.valueAt? position name else none := by
  obtain ⟨hcurrent, hscopes⟩ := leave_eq_take h
  split
  · next hle =>
    have hlt : position < min env.current env.scopes.size := by
      have hsize := env.size_scopes
      omega
    rw [valueAt?, hscopes, Array.take_eq_extract, Array.getElem?_extract, Nat.zero_add,
      if_pos (by omega)]
    rfl
  · next hle => exact valueAt?_eq_none (by omega)

theorem valueAt?_store (hp : position ≤ env.current) (name : String) (value : Value) (i : Nat)
    (other : String) :
    (env.store position name value).valueAt? i other =
      if i = position ∧ other = name then some value else env.valueAt? i other := by
  obtain ⟨m, hscope⟩ := exists_scope hp
  by_cases hi : i = position
  · subst hi
    simp [valueAt?, store, Array.getElem?_modify, hscope, Scope.set, Scope.get?,
      Scope.lookup_bind]
  · have hne : position ≠ i := fun h => hi h.symm
    simp [valueAt?, store, Array.getElem?_modify, hi, hne]

/-- Assigning stores the value in a scope that has the variable. -/
theorem exists_store_of_assign (h : env.assign? name value = some env') :
    ∃ position, (env.valueAt? position name).isSome ∧ env' = env.store position name value := by
  rcases env.resolve_spec name with ⟨hnone, -⟩ | ⟨inner, m, outer, hmaps, hsome, -, hm⟩
  · rw [assign?, hnone] at h
    contradiction
  · obtain ⟨scope, hscope, rfl⟩ := getElem?_scopes hmaps
    rw [assign?, hsome] at h
    obtain rfl := Option.some.inj h
    refine ⟨outer.length, ?_, rfl⟩
    simpa [valueAt?, hscope, Scope.get?] using hm

/-- A variable can be overwritten if there is one. -/
theorem isSome_assign?_iff (env : Environment) (name : String) (value : Value) :
    (env.assign? name value).isSome ↔ (env.get? name).isSome := by
  rcases env.resolve_spec name with ⟨hnone, -⟩ | ⟨inner, m, outer, hmaps, hsome, -, hm⟩
  · simp [assign?, get?, hnone]
  · obtain ⟨scope, hscope, rfl⟩ := getElem?_scopes hmaps
    have hget : (env.get? name).isSome := by
      simpa [get?, hsome, hscope, Scope.get?] using hm
    simp [assign?, hsome, hget]

/-- A variable can be read if one of the scopes has it. -/
theorem isSome_get?_iff (env : Environment) (name : String) :
    (env.get? name).isSome ↔ ∃ position, (env.valueAt? position name).isSome := by
  rw [get?_eq, List.isSome_findSome?, List.any_eq_true]
  constructor
  · rintro ⟨m, hm, hlookup⟩
    obtain ⟨scope, hscope, rfl⟩ := List.mem_map.mp (List.mem_reverse.mp hm)
    obtain ⟨position, hposition⟩ := List.mem_iff_getElem?.mp hscope
    rw [Array.getElem?_toList] at hposition
    exact ⟨position, by simpa [valueAt?, hposition, Scope.get?] using hlookup⟩
  · rintro ⟨position, hsome⟩
    obtain ⟨m, hscope⟩ := exists_scope (le_current_of_isSome hsome)
    refine ⟨m, ?_, by simpa [valueAt?, hscope, Scope.get?] using hsome⟩
    refine List.mem_reverse.mpr (List.mem_map.mpr ⟨⟨m, Scope.around position⟩, ?_, rfl⟩)
    exact List.mem_iff_getElem?.mpr ⟨position, by rw [Array.getElem?_toList, hscope]⟩

/-- With the global scope alone, the variables are its variables. -/
theorem isSome_get?_of_current_eq_zero (h : env.current = 0) (name : String) :
    (env.get? name).isSome ↔ (env.valueAt? 0 name).isSome := by
  rw [isSome_get?_iff]
  constructor
  · rintro ⟨position, hsome⟩
    have hle := le_current_of_isSome hsome
    obtain rfl : position = 0 := by omega
    exact hsome
  · exact fun hsome => ⟨0, hsome⟩

/-- How scopes refer to each other depends on their number only. -/
theorem map_enclosing_eq (h : env'.current = env.current) :
    env'.scopes.map Scope.enclosing = env.scopes.map Scope.enclosing := by
  have hsize := env.size_scopes
  have hsize' := env'.size_scopes
  apply Array.ext
  · rw [Array.size_map, Array.size_map]
    omega
  · intro i hi hi'
    rw [Array.size_map] at hi hi'
    rw [Array.getElem_map, Array.getElem_map,
      env.enclosing_eq i _ (Array.getElem?_eq_getElem hi'),
      env'.enclosing_eq i _ (Array.getElem?_eq_getElem hi)]

/-- An environment comes from another one by overwriting variables of the names in `A`, by declaring
variables of the names in `D` in the current scope, and by what goes on in scopes that are opened and
left again. -/
inductive Evolves (A : String → Prop) : (String → Prop) → Environment → Environment → Prop where
  | refl {D : String → Prop} (env : Environment) : Evolves A D env env
  | assign {D : String → Prop} {env mid env' : Environment} {name : String} {value : Value}
      (before : Evolves A D env mid) (hname : A name) (h : mid.assign? name value = some env') :
      Evolves A D env env'
  | define {D : String → Prop} {env mid : Environment} {name : String} (value : Value)
      (before : Evolves A D env mid) (hname : D name) : Evolves A D env (mid.define name value)
  | scope {D D' : String → Prop} {env mid inner : Environment} (before : Evolves A D env mid)
      (within : Evolves A D' mid.enter inner) : Evolves A D env inner.leave

variable {A D : String → Prop}

theorem Evolves.trans {mid : Environment} (h : Evolves A D env mid) (h' : Evolves A D mid env') :
    Evolves A D env env' := by
  induction h' with
  | refl => exact h
  | assign _ hname hassign ih => exact .assign (ih h) hname hassign
  | define value _ hname ih => exact .define value (ih h) hname
  | scope _ within ih _ => exact .scope (ih h) within

/-- What can be different in an environment that comes from another one. -/
structure Footprint (A D : String → Prop) (env env' : Environment) : Prop where
  current_eq : env'.current = env.current
  kept : ∀ {position : Nat} {name : String}, (env.valueAt? position name).isSome →
    (env'.valueAt? position name).isSome
  gained : ∀ {position : Nat} {name : String}, (env'.valueAt? position name).isSome →
    (env.valueAt? position name).isSome ∨ position = env.current ∧ D name
  changed : ∀ {position : Nat} {name : String},
    env'.valueAt? position name ≠ env.valueAt? position name →
    A name ∨ position = env.current ∧ D name

theorem Footprint.refl (env : Environment) : Footprint A D env env where
  current_eq := rfl
  kept h := h
  gained h := .inl h
  changed h := absurd rfl h

theorem Footprint.trans {mid : Environment} (h : Footprint A D env mid)
    (h' : Footprint A D mid env') : Footprint A D env env' where
  current_eq := h'.current_eq.trans h.current_eq
  kept hsome := h'.kept (h.kept hsome)
  gained hsome := by
    rcases h'.gained hsome with hmid | ⟨hposition, hname⟩
    · exact h.gained hmid
    · exact .inr ⟨hposition.trans h.current_eq, hname⟩
  changed {position name} hne := by
    by_cases hmid : mid.valueAt? position name = env.valueAt? position name
    · rw [← hmid] at hne
      rcases h'.changed hne with hname | ⟨hposition, hname⟩
      · exact .inl hname
      · exact .inr ⟨hposition.trans h.current_eq, hname⟩
    · exact h.changed hmid

/-- A value is stored where the variable already is, or in the current scope. -/
theorem Footprint.store (value : Value) (hp : position ≤ env.current)
    (h : A name ∧ (env.valueAt? position name).isSome ∨ position = env.current ∧ D name) :
    Footprint A D env (env.store position name value) := by
  have hstore := valueAt?_store hp name value
  refine ⟨rfl, fun {i other} hold => ?_, fun {i other} hnew => ?_, fun {i other} hne => ?_⟩
  · rw [hstore]
    split
    · rfl
    · exact hold
  · rw [hstore] at hnew
    split at hnew
    · next heq =>
      obtain ⟨rfl, rfl⟩ := heq
      exact h.imp And.right id
    · exact .inl hnew
  · rw [hstore] at hne
    split at hne
    · next heq =>
      obtain ⟨rfl, rfl⟩ := heq
      exact h.imp And.left id
    · exact absurd rfl hne

theorem Footprint.assign (hname : A name) (h : env.assign? name value = some env') :
    Footprint A D env env' := by
  obtain ⟨position, hsome, rfl⟩ := exists_store_of_assign h
  exact .store value (le_current_of_isSome hsome) (.inl ⟨hname, hsome⟩)

theorem Footprint.define (env : Environment) (value : Value) (hname : D name) :
    Footprint A D env (env.define name value) :=
  .store value (Nat.le_refl _) (.inr ⟨rfl, hname⟩)

/-- What was declared in a scope is gone when the scope is left. -/
theorem Footprint.leave {D' : String → Prop} {inner : Environment}
    (h : Footprint A D' env.enter inner) : Footprint A D env inner.leave := by
  have hcurrent : inner.current = env.current + 1 := h.current_eq.trans env.current_enter
  have hleave := valueAt?_leave hcurrent
  refine ⟨(leave_eq_take hcurrent).1, fun {i name} hold => ?_, fun {i name} hnew => ?_,
    fun {i name} hne => ?_⟩
  · have hle : i ≤ env.current := le_current_of_isSome hold
    rw [hleave, if_pos hle]
    exact h.kept (by rwa [valueAt?_enter])
  · rw [hleave] at hnew
    split at hnew
    · next hle =>
      rcases h.gained hnew with hold | ⟨rfl, -⟩
      · exact .inl (by rwa [valueAt?_enter] at hold)
      · rw [current_enter] at hle
        omega
    · contradiction
  · rw [hleave] at hne
    split at hne
    · next hle =>
      rw [← valueAt?_enter env] at hne
      rcases h.changed hne with hname | ⟨rfl, -⟩
      · exact .inl hname
      · rw [current_enter] at hle
        omega
    · next hle =>
      rw [valueAt?_eq_none (by omega)] at hne
      exact absurd rfl hne

theorem Evolves.footprint (h : Evolves A D env env') : Footprint A D env env' := by
  induction h with
  | refl env => exact .refl env
  | assign _ hname hassign ih => exact ih.trans (.assign hname hassign)
  | define value _ hname ih => exact ih.trans (.define _ value hname)
  | scope _ _ ih ihInner => exact ih.trans ihInner.leave

/-- Where nothing is declared, the same variables can be read. -/
theorem Footprint.isSome_get?_iff (h : Footprint A (fun _ => False) env env') (name : String) :
    (env'.get? name).isSome ↔ (env.get? name).isSome := by
  rw [Environment.isSome_get?_iff, Environment.isSome_get?_iff]
  constructor
  · rintro ⟨position, hsome⟩
    rcases h.gained hsome with hold | ⟨-, hfalse⟩
    · exact ⟨position, hold⟩
    · exact hfalse.elim
  · rintro ⟨position, hsome⟩
    exact ⟨position, h.kept hsome⟩

theorem isSome_get?_define (env : Environment) (name : String) (value : Value) (other : String) :
    ((env.define name value).get? other).isSome ↔ other = name ∨ (env.get? other).isSome := by
  have hstore := valueAt?_store (Nat.le_refl env.current) name value
  rw [Environment.isSome_get?_iff, Environment.isSome_get?_iff]
  constructor
  · rintro ⟨position, hsome⟩
    rw [Environment.define, hstore] at hsome
    split at hsome
    · next heq => exact .inl heq.2
    · exact .inr ⟨position, hsome⟩
  · rintro (rfl | ⟨position, hsome⟩)
    · exact ⟨env.current, by rw [Environment.define, hstore, if_pos ⟨rfl, rfl⟩]; rfl⟩
    · refine ⟨position, ?_⟩
      rw [Environment.define, hstore]
      split
      · rfl
      · exact hsome

end Environment

end Treewalk
