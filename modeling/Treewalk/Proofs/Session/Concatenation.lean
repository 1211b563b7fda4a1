import Treewalk.Proofs.Eval.Lockstep
import Treewalk.Proofs.Grammar.Programs
import Treewalk.Proofs.Parse.Relocation
import Treewalk.Proofs.Scan.Append
import Treewalk.Session

set_option autoImplicit false
set_option relaxedAutoImplicit false

/-!
Running sources in a row.

Two sources with a line end between them are scanned, read and run as one after the other, if the
first one has no reports. Only an `else` at the start of the second one could reach into the first.
All that the second one can notice are its lines.
-/

namespace Treewalk

open Treewalk.Grammar Treewalk.Parser

variable {g : Nat → Nat} {finish : Token}

theorem SyntaxError.diagnostic_mapLines (g : Nat → Nat) (e : SyntaxError) :
    (e.mapLines g).diagnostic = e.diagnostic.mapLine g := by
  cases e <;> rfl

/-- A program with its reports on other lines. -/
def ParsedProgram.mapLines (g : Nat → Nat) (p : ParsedProgram) : ParsedProgram :=
  ⟨p.program.map (Stmt.mapLines g), p.diagnostics.map (Diagnostic.mapLine g)⟩

theorem run_program {tokens : List Token} (hf : finish.kind = .eof)
    (h : ∀ t ∈ tokens, t.kind ≠ .eof) :
    program.run (tokens ++ [finish]) =
      declarations (8 * (tokens.length + 1)) false [.eof] finish tokens := by
  rw [run_append_finish program hf h, program]

/-- Behind the tokens of a program, what follows is read as it is read alone. -/
theorem parseProgram_append_tokens (p : Grammar.Program) {second : List Token}
    (hf : finish.kind = .eof) (hsecond : ∀ t ∈ second, t.kind ≠ .eof)
    (helse : NextNot [.elseWord] second) (g : Nat → Nat) :
    parseProgram (p.tokens ++ second.map (Token.mapLine g) ++ [finish.mapLine g]) =
      let parsed := (parseProgram (second ++ [finish])).mapLines g
      ⟨p.tree ++ parsed.program, parsed.diagnostics⟩ := by
  have hmap : ∀ t ∈ second.map (Token.mapLine g), t.kind ≠ .eof := by
    simpa using hsecond
  have hall : ∀ t ∈ p.tokens ++ second.map (Token.mapLine g), t.kind ≠ .eof :=
    List.forall_mem_append.mpr ⟨p.tokens_ne_eof, hmap⟩
  have helse' : NextNot [.elseWord] (second.map (Token.mapLine g)) := by
    cases second with
    | nil => simp
    | cons t rest => simpa using helse
  have hfinish : (finish.mapLine g).kind = .eof := hf
  obtain ⟨m, hm, hread⟩ := sequenceIsRead hfinish p
    (8 * ((p.tokens ++ second.map (Token.mapLine g)).length + 1)) (second.map (Token.mapLine g))
    [.eof] (by decide) helse' (by omega)
  rw [List.length_map] at hm
  have hmove := declarations_mapLines g false (List.mem_singleton.mpr rfl) hf
    (n := 8 * (second.length + 1)) (by omega) hm
  simp only [parseProgram]
  rw [run_program hfinish hall, hread, run_program hf hsecond, prepend, bind_apply, hmove]
  rcases hreading : declarations (8 * (second.length + 1)) false [.eof] finish second with
    ⟨outcome, pending, recorded⟩
  obtain ⟨ss, hok⟩ : ∃ ss, (declarations (8 * (second.length + 1)) false [.eof] finish
      second).outcome = .ok ss := declarations_outcome ..
  rw [hreading] at hok
  obtain rfl : outcome = .ok ss := hok
  have hdiagnostic : SyntaxError.diagnostic ∘ SyntaxError.mapLines g =
      Diagnostic.mapLine g ∘ SyntaxError.diagnostic :=
    funext (SyntaxError.diagnostic_mapLines g)
  simp [ParsedProgram.mapLines, Reading.mapLines, pure_apply, hdiagnostic]

/-- Behind tokens that are read without reports, what follows is read as it is read alone. -/
theorem parseProgram_append {first second : List Token} {finish₁ : Token}
    (hf₁ : finish₁.kind = .eof) (hfirst : ∀ t ∈ first, t.kind ≠ .eof)
    (h : (parseProgram (first ++ [finish₁])).diagnostics = [])
    (hf : finish.kind = .eof) (hsecond : ∀ t ∈ second, t.kind ≠ .eof)
    (helse : NextNot [.elseWord] second) (g : Nat → Nat) :
    parseProgram (first ++ second.map (Token.mapLine g) ++ [finish.mapLine g]) =
      let parsed := (parseProgram (second ++ [finish])).mapLines g
      ⟨(parseProgram (first ++ [finish₁])).program ++ parsed.program, parsed.diagnostics⟩ := by
  have hbefore : beforeEnd (first ++ [finish₁]) = first := beforeEnd_append_finish hf₁ hfirst []
  obtain ⟨-, p, hp, htree⟩ :=
    (reads_program_iff (finishOf_kind _) (beforeEnd_ne_eof _)).mp
      (reads_program_of_diagnostics_eq_nil h)
  rw [hbefore] at hp
  rw [← htree, ← hp]
  exact parseProgram_append_tokens p hf hsecond helse g

/-- A program is run statement by statement. -/
theorem Program.exec_append (rounds : Nat) (p q : Program) :
    Program.exec rounds (p ++ q) = (do
      let completion ← Program.exec rounds p
      match completion with
      | .finished => Program.exec rounds q
      | .exited => pure .exited) := by
  induction p with
  | nil => rfl
  | cons s rest ih =>
    rw [List.cons_append, Program.exec, Program.exec, bind_assoc]
    apply bind_congr
    intro flow
    cases flow with
    | normal => exact ih
    | breaks => exact ih
    | continues => exact ih
    | exits => rfl

/-- A program on other lines differs in the lines of its errors only. -/
theorem Program.inStep_exec (g : Nat → Nat) (rounds : Nat) (p : Program) :
    Run.InStep g Eq (Program.exec rounds p) (Program.exec rounds (p.map (Stmt.mapLines g))) := by
  induction p with
  | nil => exact .pure _
  | cons s rest ih =>
    have hs : Run.InStep g Eq (s.exec rounds) ((s.mapLines g).exec rounds) :=
      simulation_eq.inStep_exec rounds s (k := 1) (fun _ _ => trivial) fun _ => Nat.one_pos
    apply Lockstep.bind hs
    intro flow
    cases flow with
    | normal => exact ih
    | breaks => exact ih
    | continues => exact ih
    | exits => exact .pure _

/-- The outcome of a source on other lines. -/
def Outcome.mapLines (g : Nat → Nat) : Outcome → Outcome
  | .runtimeError e => .runtimeError (e.mapLines g)
  | other => other

theorem World.Related.eq {w w' : World} (h : World.Related Eq w w') : w = w' := by
  obtain ⟨henvironment, hsink⟩ := h
  cases w
  cases w'
  simp_all

namespace Session

theorem perform_execute (rounds : Nat) (s : Session) (p : Program) :
    s.perform (execute rounds p) =
      match Program.exec rounds p s.world with
      | .ok completion world => (.ofCompletion completion, { s with world := world })
      | .error h world => (.ofHalt h, { s with world := world }) := by
  have hexecute : execute rounds p s.world =
      EStateM.bind (Program.exec rounds p) (fun completion => pure (.ofCompletion completion))
        s.world := rfl
  rw [perform, hexecute, EStateM.bind]
  cases Program.exec rounds p s.world with
  | ok completion world => rfl
  | error h world => rfl

/-- Running a program on other lines changes nothing but the line of an error. -/
theorem perform_mapLines (g : Nat → Nat) (rounds : Nat) (s : Session) (p : Program) :
    s.perform (execute rounds (p.map (Stmt.mapLines g))) =
      let (outcome, s) := s.perform (execute rounds p)
      (outcome.mapLines g, s) := by
  have hends := Program.inStep_exec g rounds p s.world s.world ⟨rfl, rfl⟩
  rw [perform_execute, perform_execute]
  generalize Program.exec rounds p s.world = r at hends
  generalize Program.exec rounds (p.map (Stmt.mapLines g)) s.world = r' at hends
  cases hends with
  | ok completion hw =>
    rw [hw.eq]
    cases completion <;> rfl
  | @error h h' _ _ hh hw =>
    rw [hw.eq, hh]
    cases h with
    | error e => rfl
    | outOfRounds => rfl

/-- The second of two sources is read behind the first as it is read alone. -/
theorem parse_append (s : Session) {first second : String}
    (h : (s.parse first).2.diagnostics = [])
    (helse : ∀ t ∈ (Scan.ofSource second).tokens.head?, t.kind ≠ .elseWord) :
    s.parse (first ++ "\n" ++ second) =
      let g := (· + Scan.lines first)
      ((s.parse first).1 ++ (s.parse second).1.map (Stmt.mapLines g),
        { s with diagnostics := (s.parse second).2.diagnostics.map (Diagnostic.mapLine g) }) := by
  obtain ⟨hscan, hparse⟩ := List.append_eq_nil_iff.mp h
  have hnext : NextNot [.elseWord] (Scan.ofSource second).found := by
    intro t ht hkind
    apply helse t _ (List.mem_singleton.mp hkind)
    rw [Scan.tokens_eq_found, List.head?_append, ht]
    rfl
  have hfinish : (Token.eof (Scan.ofSource second).line).kind = .eof := rfl
  have hprogram := parseProgram_append rfl (Scan.found_ne_eof first) hparse hfinish
    (Scan.found_ne_eof second) hnext (· + Scan.lines first)
  simp only [parse, scan, Scan.tokens_append hscan, Scan.diagnostics_append hscan, hprogram,
    Scan.tokens_eq_found, ParsedProgram.mapLines, List.map_append]

theorem run_of_diagnostics_eq_nil {s : Session} {source : String}
    (h : (s.parse source).2.diagnostics = []) (rounds : Nat) :
    s.run rounds source =
      perform { s with diagnostics := [] } (execute rounds (s.parse source).1) := by
  have hsession : (s.parse source).2 = { s with diagnostics := [] } := by
    rw [← h]
    rfl
  rw [← hsession]
  rcases hparse : s.parse source with ⟨p, s'⟩
  rw [hparse] at h
  have hnil : s'.diagnostics = [] := h
  simp [run, hparse, hnil]

theorem run_of_diagnostics_ne_nil {s : Session} {source : String}
    (h : (s.parse source).2.diagnostics ≠ []) (rounds : Nat) :
    s.run rounds source = (.staticErrors, (s.parse source).2) := by
  rcases hparse : s.parse source with ⟨p, s'⟩
  rw [hparse] at h
  simp [run, hparse, h]

theorem perform_diagnostics (s : Session) (action : Run Outcome) :
    (s.perform action).2.diagnostics = s.diagnostics := by
  unfold perform
  split
  · rfl
  · rfl

/-- A program is performed in parts, the second one if the first comes to its end. -/
theorem perform_append (rounds : Nat) (s : Session) (p q : Program) :
    s.perform (execute rounds (p ++ q)) =
      match s.perform (execute rounds p) with
      | (.completed, s) => s.perform (execute rounds q)
      | stopped => stopped := by
  have happend : Program.exec rounds (p ++ q) s.world =
      EStateM.bind (Program.exec rounds p) _ s.world :=
    congrFun (Program.exec_append rounds p q) s.world
  rw [perform_execute, perform_execute, happend, EStateM.bind]
  cases Program.exec rounds p s.world with
  | ok completion world =>
    cases completion with
    | finished => exact (perform_execute rounds { s with world := world } q).symm
    | exited => rfl
  | error h world =>
    cases h with
    | error e => rfl
    | outOfRounds => rfl

/-- Runs a source and, if it comes to its end, another one as many lines below. -/
def runInOrder (rounds : Nat) (s : Session) (first second : String) : Outcome × Session :=
  match s.run rounds first with
  | (.completed, s) =>
    let (outcome, s) := s.run rounds second
    (outcome.mapLines (· + Scan.lines first), s)
  | stopped => stopped

/-- Running two sources in a row is running the first and then the second, whose lines are counted
from the first; reports about the second are the only ones, and keep both from being run. -/
theorem run_append (rounds : Nat) (s : Session) (first second : String)
    (h : (s.parse first).2.diagnostics = [])
    (helse : ∀ t ∈ (Scan.ofSource second).tokens.head?, t.kind ≠ .elseWord) :
    ((s.parse second).2.diagnostics = [] →
      s.run rounds (first ++ "\n" ++ second) = s.runInOrder rounds first second) ∧
    ((s.parse second).2.diagnostics ≠ [] →
      s.run rounds (first ++ "\n" ++ second) =
        (.staticErrors, { s with diagnostics :=
          (s.parse second).2.diagnostics.map (Diagnostic.mapLine (· + Scan.lines first)) })) := by
  have hparse := parse_append s h helse
  constructor
  · intro hsecond
    have hboth : (s.parse (first ++ "\n" ++ second)).2.diagnostics = [] := by
      rw [hparse, hsecond]
      rfl
    have hdiagnostics := perform_diagnostics { s with diagnostics := [] }
      (execute rounds (s.parse first).1)
    rw [run_of_diagnostics_eq_nil hboth, runInOrder, run_of_diagnostics_eq_nil h, hparse,
      perform_append]
    rcases hfirst : perform { s with diagnostics := [] } (execute rounds (s.parse first).1) with
      ⟨outcome, s'⟩
    rw [hfirst] at hdiagnostics
    cases outcome with
    | completed =>
      have hnil : s'.diagnostics = [] := hdiagnostics
      have hsession : { s' with diagnostics := [] } = s' := by
        rw [← hnil]
      have hrun : s'.run rounds second = s'.perform (execute rounds (s.parse second).1) := by
        have hparse' : (s'.parse second).2.diagnostics = [] := hsecond
        rw [run_of_diagnostics_eq_nil hparse', hsession]
        rfl
      simp only [hrun]
      rw [perform_mapLines]
    | _ => rfl
  · intro hsecond
    have hboth : (s.parse (first ++ "\n" ++ second)).2.diagnostics ≠ [] := by
      rw [hparse]
      simpa using hsecond
    rw [run_of_diagnostics_ne_nil hboth, hparse]

/-- The second source fails on its second line. -/
theorem run_append_negated :
    let s := Session.start none
    let first := "var a; // nil"
    let second := "print a;\n-a;"
    (s.parse first).2.diagnostics = [] ∧
      (∀ t ∈ (Scan.ofSource second).tokens.head?, t.kind ≠ .elseWord) ∧
      (s.parse second).2.diagnostics = [] ∧
      s.run 1 (first ++ "\n" ++ second) = s.runInOrder 1 first second := by
  intro s first second
  have hfirst : (s.parse first).2.diagnostics = [] := by decide +kernel
  have helse : ∀ t ∈ (Scan.ofSource second).tokens.head?, t.kind ≠ .elseWord := by decide +kernel
  have hsecond : (s.parse second).2.diagnostics = [] := by decide +kernel
  exact ⟨hfirst, helse, hsecond, (run_append 1 s first second hfirst helse).1 hsecond⟩

end Session

end Treewalk
