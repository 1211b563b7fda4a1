import Treewalk.Eval.Stmt
import Treewalk.Proofs.Grammar.Programs
import Treewalk.Token.Scan

set_option autoImplicit false
set_option relaxedAutoImplicit false

/-!
Where `break` and `continue` end.

A statement can end in one of them only if it has one that none of its loops is around. The grammar
keeps both inside of loops, so no statement of a program that is read without reports ends so.
-/

namespace Treewalk

namespace Run

variable {α β : Type}

/-- Every result of the run has the property. -/
def Yields (P : α → Prop) (m : Run α) : Prop :=
  ∀ (w : World) (a : α) (w' : World), m w = .ok a w' → P a

variable {P : α → Prop} {Q : β → Prop}

theorem Yields.pure {a : α} (h : P a) : Yields P (Pure.pure a) := by
  intro w b w' hb
  obtain ⟨rfl, -⟩ := EStateM.Result.ok.inj hb
  exact h

theorem Yields.bind {m : Run α} {f : α → Run β} (hm : Yields P m)
    (hf : ∀ a, P a → Yields Q (f a)) : Yields Q (m >>= f) := by
  intro w b w' hb
  have hbind : EStateM.bind m f w = .ok b w' := hb
  unfold EStateM.bind at hbind
  split at hbind
  · next a mid h => exact hf a (hm w a mid h) mid b w' hbind
  · contradiction

/-- The last part of a run gives the result. -/
theorem Yields.after (m : Run α) {f : α → Run β} (hf : ∀ a, Yields Q (f a)) :
    Yields Q (m >>= f) := by
  have hm : Yields (fun _ => True) m := fun _ _ _ _ => trivial
  exact hm.bind fun a _ => hf a

theorem Yields.throw (h : Halt) : Yields P (MonadExcept.throw h : Run α) := by
  intro w a w' ha
  contradiction

theorem Yields.inScope {m : Run α} (h : Yields P m) : Yields P (Run.inScope m) := by
  rintro ⟨env, sink⟩ a w' ha
  simp only [Run.inScope] at ha
  split at ha
  · next b env' sink' hm =>
    obtain ⟨rfl, -⟩ := EStateM.Result.ok.inj ha
    exact h _ b _ hm
  · contradiction

end Run

/-- The ends of a statement after which its surroundings are not to be left for a loop. -/
def Flow.IsSettled (flow : Flow) : Prop :=
  flow = .normal ∨ flow = .exits

/-- A loop catches every `break` and `continue` of its body. -/
theorem Run.yields_loop (condition : Run Bool) (body : Run Flow) (increment : Run Unit)
    (rounds : Nat) : Run.Yields Flow.IsSettled (Run.loop condition body increment rounds) := by
  induction rounds with
  | zero => exact .throw _
  | succ rounds ih =>
    refine .after _ fun goesOn => ?_
    cases goesOn with
    | false => exact .pure (.inl rfl)
    | true =>
      refine .after _ fun flow => ?_
      cases flow with
      | normal => exact ih
      | breaks => exact .pure (.inl rfl)
      | continues => exact .after _ fun _ => ih
      | exits => exact .pure (.inr rfl)

namespace Stmt

mutual

/-- Whether a statement has a `break` or `continue` that none of its loops is around. -/
def signals : Stmt → Bool
  | .expression _ => false
  | .print _ => false
  | .declare _ _ => false
  | .block statements => signalsOfAll statements
  | .branch _ thenBranch elseBranch => thenBranch.signals || signalsOfOption elseBranch
  | .loop _ _ _ => false
  | .switch _ cases fallback => signalsOfCases cases || signalsOfOption fallback
  | .breakLoop => true
  | .continueLoop => true
  | .exitProgram => false

/-- Whether one of the statements has such a `break` or `continue`. -/
def signalsOfAll : List Stmt → Bool
  | [] => false
  | s :: rest => s.signals || signalsOfAll rest

/-- Whether a branch of a switch has such a `break` or `continue`. -/
def signalsOfCases : List (Expr × Stmt) → Bool
  | [] => false
  | (_, body) :: rest => body.signals || signalsOfCases rest

/-- Whether an optional statement has such a `break` or `continue`. -/
def signalsOfOption : Option Stmt → Bool
  | none => false
  | some s => s.signals

end

mutual

/-- A statement without such a `break` or `continue` never ends in one. -/
theorem yields_exec (rounds : Nat) (s : Stmt) (h : s.signals = false) :
    Run.Yields Flow.IsSettled (s.exec rounds) := by
  match s with
  | .expression value => exact .after _ fun _ => .pure (.inl rfl)
  | .print value => exact .after _ fun _ => .after _ fun _ => .pure (.inl rfl)
  | .declare name initializer => exact .after _ fun _ => .after _ fun _ => .pure (.inl rfl)
  | .block statements => exact .inScope (yields_execAll rounds statements h)
  | .branch condition thenBranch elseBranch =>
    obtain ⟨hthen, helse⟩ := Bool.or_eq_false_iff.mp h
    refine .after _ fun holds => ?_
    cases holds with
    | true => exact yields_exec rounds thenBranch hthen
    | false => exact yields_execOption rounds elseBranch helse
  | .loop .whileLoop condition body => exact Run.yields_loop _ _ _ rounds
  | .loop .forLoop condition body => exact Run.yields_loop _ _ _ rounds
  | .switch subject cases fallback =>
    obtain ⟨hcases, hfallback⟩ := Bool.or_eq_false_iff.mp h
    exact .after _ fun value =>
      yields_execCases rounds value cases hcases (yields_execOption rounds fallback hfallback)
  | .breakLoop => contradiction
  | .continueLoop => contradiction
  | .exitProgram => exact .pure (.inr rfl)

theorem yields_execAll (rounds : Nat) (ss : List Stmt) (h : signalsOfAll ss = false) :
    Run.Yields Flow.IsSettled (execAll rounds ss) := by
  match ss with
  | [] => exact .pure (.inl rfl)
  | s :: rest =>
    obtain ⟨hs, hrest⟩ := Bool.or_eq_false_iff.mp h
    refine (yields_exec rounds s hs).bind fun flow hflow => ?_
    rcases hflow with rfl | rfl
    · exact yields_execAll rounds rest hrest
    · exact .pure (.inr rfl)

theorem yields_execOption (rounds : Nat) (o : Option Stmt) (h : signalsOfOption o = false) :
    Run.Yields Flow.IsSettled (execOption rounds o) := by
  match o with
  | none => exact .pure (.inl rfl)
  | some s => exact yields_exec rounds s h

theorem yields_execCases (rounds : Nat) (subject : Value) (cases : List (Expr × Stmt))
    {otherwise : Run Flow} (h : signalsOfCases cases = false)
    (ho : Run.Yields Flow.IsSettled otherwise) :
    Run.Yields Flow.IsSettled (execCases rounds subject otherwise cases) := by
  match cases with
  | [] => exact ho
  | (condition, body) :: rest =>
    obtain ⟨hbody, hrest⟩ := Bool.or_eq_false_iff.mp h
    refine .after _ fun value => ?_
    split
    · exact yields_exec rounds body hbody
    · exact yields_execCases rounds subject rest hrest ho

end

end Stmt

namespace Grammar

theorem ForHead.signals_tree (h : ForHead) (body : Stmt) : (h.tree body).signals = false := by
  have hinitializer := h.initializer.isInitializer_tree
  unfold ForHead.tree
  cases htree : h.initializer.tree with
  | none => rfl
  | some s =>
    have hs : s.isInitializer := hinitializer s htree
    cases s with
    | declare name value => rfl
    | expression value => rfl
    | _ => contradiction

mutual

/-- Outside of loops, every `break` and `continue` of a statement is in a loop of the statement. -/
theorem Statement.signals_tree :
    {inLoop dangling : Bool} → (s : Statement inLoop dangling) → inLoop = false →
      s.tree.signals = false
  | _, _, .expression _ _, _ => by rw [Statement.tree, Stmt.signals]
  | _, _, .print _ _ _, _ => by rw [Statement.tree, Stmt.signals]
  | _, _, .block _ body _, h => by
    rw [Statement.tree, Stmt.signals]
    exact body.signals_tree h
  | _, _, .ifThen _ thenBranch, h => by
    rw [Statement.tree, Stmt.signals, thenBranch.signals_tree h]
    rfl
  | _, _, .ifElse _ thenBranch _ elseBranch, h => by
    rw [Statement.tree, Stmt.signals, thenBranch.signals_tree h, Stmt.signalsOfOption,
      elseBranch.signals_tree h]
    rfl
  | _, _, .whileLoop _ _, _ => by rw [Statement.tree, Stmt.signals]
  | _, _, .forLoop head body, _ => by
    rw [Statement.tree]
    exact head.signals_tree body.tree
  | _, _, .switch _ _ branches _, h => by
    obtain ⟨hcases, hfallback⟩ := branches.signals_tree h
    rw [Statement.tree, Stmt.signals, hcases, hfallback]
    rfl
  | _, _, .breakLoop _ _, h => by contradiction
  | _, _, .continueLoop _ _, h => by contradiction
  | _, _, .exitProgram _ _, _ => by rw [Statement.tree, Stmt.signals]

theorem Sequence.signals_tree :
    {inLoop : Bool} → (q : Sequence inLoop) → inLoop = false → Stmt.signalsOfAll q.tree = false
  | _, .nil, _ => by rw [Sequence.tree, Stmt.signalsOfAll]
  | _, .declaration first rest, h => by
    rw [Sequence.tree, Stmt.signalsOfAll, rest.signals_tree h]
    rfl
  | _, .statement first rest, h => by
    rw [Sequence.tree, Stmt.signalsOfAll, first.signals_tree h, rest.signals_tree h]
    rfl

theorem Branches.signals_tree :
    {inLoop seen : Bool} → (b : Branches inLoop seen) → inLoop = false →
      Stmt.signalsOfCases b.cases = false ∧ Stmt.signalsOfOption b.fallback = false
  | _, _, .nil, _ => by
    rw [Branches.cases, Branches.fallback]
    exact ⟨rfl, rfl⟩
  | _, _, .case _ _ _ body rest, h => by
    obtain ⟨hcases, hfallback⟩ := rest.signals_tree h
    rw [Branches.cases, Branches.fallback, Stmt.signalsOfCases, Stmt.signals,
      body.signals_tree h, hcases]
    exact ⟨rfl, hfallback⟩
  | _, _, .default _ _ body rest, h => by
    rw [Branches.cases, Branches.fallback, Stmt.signalsOfOption, Stmt.signals]
    exact ⟨(rest.signals_tree h).1, body.signals_tree h⟩

end

end Grammar

theorem Stmt.signals_eq_false_of_mem {ss : List Stmt} (h : signalsOfAll ss = false) :
    ∀ s ∈ ss, s.signals = false := by
  induction ss with
  | nil => simp
  | cons s rest ih =>
    obtain ⟨hs, hrest⟩ := Bool.or_eq_false_iff.mp h
    exact List.forall_mem_cons.mpr ⟨hs, ih hrest⟩

/-- A statement of a source that is read without reports ends normally or at an `exit`, or is stopped
by an error. No `break` or `continue` gets out of it. -/
theorem exec_isSettled {source : String}
    (h : (parseProgram (Scan.ofSource source).tokens).diagnostics = []) :
    ∀ s ∈ (parseProgram (Scan.ofSource source).tokens).program,
      ∀ (rounds : Nat) (w : World),
        (∃ w', s.exec rounds w = .ok .normal w') ∨ (∃ w', s.exec rounds w = .ok .exits w') ∨
          ∃ stop w', s.exec rounds w = .error stop w' := by
  intro s hs rounds w
  have hreads := reads_program_of_diagnostics_eq_nil h
  obtain ⟨-, p, -, hp⟩ := (reads_program_iff (finishOf_kind _) (beforeEnd_ne_eof _)).mp hreads
  rw [← hp] at hs
  have hsignals : s.signals = false := Stmt.signals_eq_false_of_mem (p.signals_tree rfl) s hs
  have hyields := s.yields_exec rounds hsignals w
  cases hexec : s.exec rounds w with
  | ok flow w' =>
    rcases hyields flow w' hexec with rfl | rfl
    · exact .inl ⟨w', rfl⟩
    · exact .inr (.inl ⟨w', rfl⟩)
  | error stop w' => exact .inr (.inr ⟨stop, w', rfl⟩)

/-- Loops inside of a loop, a branch of a switch and a block. -/
theorem exec_isSettled_nested :
    let source := "for (var i = true; i; i = nil) \x7b if (!i) continue; while (i) break; \x7d\n" ++
      "switch (nil) \x7b case nil: while (true) \x7b break; \x7d default: exit; \x7d"
    let parsed := parseProgram (Scan.ofSource source).tokens
    parsed.diagnostics = [] ∧
      ∀ s ∈ parsed.program, ∀ (rounds : Nat) (w : World),
        (∃ w', s.exec rounds w = .ok .normal w') ∨ (∃ w', s.exec rounds w = .ok .exits w') ∨
          ∃ stop w', s.exec rounds w = .error stop w' := by
  intro source parsed
  have h : (parseProgram (Scan.ofSource source).tokens).diagnostics = [] := by decide +kernel
  exact ⟨h, exec_isSettled h⟩

end Treewalk
