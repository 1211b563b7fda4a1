import Treewalk.Proofs.Eval.LoopControl
import Treewalk.Proofs.Session.Concatenation

set_option autoImplicit false
set_option relaxedAutoImplicit false

/-!
How running a source ends.

A source that is run, whether as a program or at a prompt, is an entry with reports about it. The
reports come from the source alone. If there are any, that is the outcome and nothing else happens;
if there are none, the outcome is that of the entry.
-/

namespace Treewalk

namespace Session

/-- The reports about a source that is read as a program. -/
def programReports (source : String) : List Diagnostic :=
  (Scan.ofSource source).diagnostics ++ (parseProgram (Scan.ofSource source).tokens).diagnostics

/-- The reports about a source that is read as a line typed at a prompt. -/
def entryReports (source : String) : List Diagnostic :=
  (Scan.ofSource source).diagnostics ++ (parseEntry (Scan.ofSource source).tokens).diagnostics

/-- Runs an entry, unless there are reports about it. -/
def submit (rounds : Nat) (s : Session) (reports : List Diagnostic) (entry : Entry) :
    Outcome × Session :=
  if reports.isEmpty then perform { s with diagnostics := reports } (executeEntry rounds entry)
  else (.staticErrors, { s with diagnostics := reports })

theorem run_eq_submit (rounds : Nat) (s : Session) (source : String) :
    s.run rounds source = s.submit rounds (programReports source)
      (.program (parseProgram (Scan.ofSource source).tokens).program) := rfl

theorem runLine_eq_submit (rounds : Nat) (s : Session) (source : String) :
    s.runLine rounds source = s.submit rounds (entryReports source)
      (parseEntry (Scan.ofSource source).tokens).entry := rfl

section Submissions

variable {rounds : Nat} {s : Session} {reports : List Diagnostic} {entry : Entry}

theorem submit_of_ne_nil (h : reports ≠ []) :
    s.submit rounds reports entry = (.staticErrors, { s with diagnostics := reports }) := by
  have hempty : ¬ reports.isEmpty := by simpa using h
  rw [submit, if_neg hempty]

theorem submit_diagnostics : (s.submit rounds reports entry).2.diagnostics = reports := by
  unfold submit
  split
  · rw [perform_diagnostics]
  · rfl

theorem run_diagnostics (rounds : Nat) (s : Session) (source : String) :
    (s.run rounds source).2.diagnostics = programReports source := by
  rw [run_eq_submit, submit_diagnostics]

theorem runLine_diagnostics (rounds : Nat) (s : Session) (source : String) :
    (s.runLine rounds source).2.diagnostics = entryReports source := by
  rw [runLine_eq_submit, submit_diagnostics]

/-- An entry that comes to its end has completed or exited. -/
theorem yields_executeEntry (rounds : Nat) (entry : Entry) :
    Run.Yields (fun outcome => outcome = .completed ∨ outcome = .exited)
      (executeEntry rounds entry) := by
  cases entry with
  | program p =>
    refine .after _ fun completion => .pure ?_
    cases completion with
    | finished => exact .inl rfl
    | exited => exact .inr rfl
  | expression e => exact .after _ fun _ => .after _ fun _ => .pure (.inl rfl)

/-- An entry that is performed completes, exits, or is stopped. -/
theorem perform_executeEntry_cases (s : Session) (rounds : Nat) (entry : Entry) :
    (s.perform (executeEntry rounds entry)).1 = .completed ∨
      (s.perform (executeEntry rounds entry)).1 = .exited ∨
      ∃ stop w, executeEntry rounds entry s.world = .error stop w ∧
        (s.perform (executeEntry rounds entry)).1 = .ofHalt stop := by
  have hyields := yields_executeEntry rounds entry s.world
  unfold perform
  cases hexec : executeEntry rounds entry s.world with
  | ok outcome w =>
    rcases hyields outcome w hexec with rfl | rfl
    · exact .inl rfl
    · exact .inr (.inl rfl)
  | error stop w => exact .inr (.inr ⟨stop, w, rfl, rfl⟩)

/-- The reports of a source are its outcome if there are any, and in no other case. -/
theorem submit_eq_staticErrors_iff :
    (s.submit rounds reports entry).1 = .staticErrors ↔ reports ≠ [] := by
  constructor
  · rintro houtcome rfl
    have hperform : (perform { s with diagnostics := [] } (executeEntry rounds entry)).1 =
        .staticErrors := houtcome
    rcases perform_executeEntry_cases { s with diagnostics := [] } rounds entry with
      hcompleted | hexited | ⟨stop, w, -, hstop⟩
    · rw [hcompleted] at hperform
      contradiction
    · rw [hexited] at hperform
      contradiction
    · rw [hstop] at hperform
      cases stop with
      | error e => contradiction
      | outOfRounds => contradiction
  · intro h
    rw [submit_of_ne_nil h]

end Submissions

end Session

end Treewalk
