import Treewalk.CommandLine.Command
import Treewalk.Proofs.CommandLine.Lines
import Treewalk.Proofs.Eval.Output
import Treewalk.Proofs.Session.Outcomes
import Treewalk.Proofs.Session.Prompt

set_option autoImplicit false
set_option relaxedAutoImplicit false

/-!
Typing a script.

A text whose lines are programs by themselves can be given as a script or typed at the prompt. As a
script it is read as the programs of its lines in a row, so it does what the lines do one after
another. The prompt runs the lines in a session too, and takes the output of each line out of it.
-/

namespace Treewalk

namespace Session

/-- Runs lines typed one after another, up to one that exits: their outcomes, and the session that
follows. -/
def runLines (rounds : Nat) (s : Session) : List String → List Outcome × Session
  | [] => ([], s)
  | line :: rest =>
    let (outcome, s) := s.runLine rounds line
    if outcome = .exited then ([outcome], s)
    else
      let (outcomes, s) := s.runLines rounds rest
      (outcome :: outcomes, s)

/-- The source is a program by itself, and it does not begin with an `else` that would belong to what
stands before it. -/
structure StandsAlone (source : String) : Prop where
  reports_eq : programReports source = []
  not_else : ∀ t ∈ (Scan.ofSource source).tokens.head?, t.kind ≠ .elseWord

/-- No line was stopped by an error, or by the bound on the rounds of loops. -/
def Undisturbed (outcomes : List Outcome) : Prop :=
  ∀ outcome ∈ outcomes, outcome ≠ .outOfRounds ∧ ∀ e, outcome ≠ .runtimeError e

section Reading

variable {first second : String}

theorem StandsAlone.scan_diagnostics (h : StandsAlone first) :
    (Scan.ofSource first).diagnostics = [] :=
  (List.append_eq_nil_iff.mp h.reports_eq).1

/-- A carriage return at the end of a line makes no difference. -/
theorem StandsAlone.scan_return (h : StandsAlone first) :
    Scan.ofSource (first ++ "\r") = Scan.ofSource first :=
  Scan.ofSource_return h.scan_diagnostics

theorem StandsAlone.of_scan_eq (h : StandsAlone first)
    (hscan : Scan.ofSource second = Scan.ofSource first) : StandsAlone second where
  reports_eq := by
    rw [programReports, hscan]
    exact h.reports_eq
  not_else := by
    rw [hscan]
    exact h.not_else

theorem StandsAlone.parse_append (h₁ : StandsAlone first) (h₂ : StandsAlone second) (s : Session) :
    s.parse (first ++ "\n" ++ second) =
      ((s.parse first).1 ++ (s.parse second).1.map (Stmt.mapLines (· + Scan.lines first)),
        { s with diagnostics := [] }) := by
  have hparse := Session.parse_append s h₁.reports_eq h₂.not_else
  have hsecond : (s.parse second).2.diagnostics = [] := h₂.reports_eq
  rw [hparse, hsecond]
  rfl

/-- Sources that stand alone do so together. -/
theorem StandsAlone.append (h₁ : StandsAlone first) (h₂ : StandsAlone second) :
    StandsAlone (first ++ "\n" ++ second) where
  reports_eq := by
    have hparse := h₁.parse_append h₂ (start none)
    exact congrArg (fun parsed => parsed.2.diagnostics) hparse
  not_else := by
    intro t ht
    rw [Scan.tokens_append h₁.scan_diagnostics, List.append_assoc, List.head?_append] at ht
    cases hfound : (Scan.ofSource first).found.head? with
    | some t' =>
      rw [hfound, Option.some_or, Option.mem_some_iff] at ht
      apply h₁.not_else t
      rw [Scan.tokens_eq_found, List.head?_append, hfound, ht]
      rfl
    | none =>
      -- The first source has no tokens, so the token is that of the second, on another line.
      have hmap : (Scan.ofSource second).found.map (Token.mapLine (· + Scan.lines first)) ++
          [(Token.eof (Scan.ofSource second).line).mapLine (· + Scan.lines first)] =
          (Scan.ofSource second).tokens.map (Token.mapLine (· + Scan.lines first)) := by
        rw [Scan.tokens_eq_found, List.map_append]
        rfl
      rw [hfound, Option.none_or, hmap, List.head?_map] at ht
      obtain ⟨t', ht', rfl⟩ := Option.map_eq_some_iff.mp ht
      exact h₂.not_else t' ht'

end Reading

section Running

variable {rounds : Nat} {s : Session} {line : String}

/-- At the prompt, a source that stands alone is performed as the program that it is. -/
theorem runLine_of_standsAlone (hs : s.diagnostics = []) (h : StandsAlone line) :
    s.runLine rounds line = s.perform (execute rounds (s.parse line).1) := by
  have hparse : (s.parse line).2.diagnostics = [] := h.reports_eq
  have hsession : (s.parse line).2 = s := by
    have hs' : { s with diagnostics := (s.parse line).2.diagnostics } = s := by
      rw [hparse, ← hs]
    exact hs'
  rw [runLine_eq, parseLine_of_diagnostics_eq_nil hparse, hsession, hs]
  rfl

theorem StandsAlone.entryReports_eq (h : StandsAlone line) : entryReports line = [] := by
  obtain ⟨hscan, hparse⟩ := List.append_eq_nil_iff.mp h.reports_eq
  rw [entryReports, hscan, parseEntry_of_diagnostics_eq_nil hparse]
  rfl

theorem runLine_diagnostics_eq_nil (rounds : Nat) (s : Session) (h : StandsAlone line) :
    (s.runLine rounds line).2.diagnostics = [] := by
  rw [runLine_diagnostics, h.entryReports_eq]

/-- A line that is not stopped completes or exits. -/
theorem runLine_completed_or_exited (h : StandsAlone line)
    (hundisturbed : Undisturbed [(s.runLine rounds line).1]) :
    (s.runLine rounds line).1 = .completed ∨ (s.runLine rounds line).1 = .exited := by
  obtain ⟨hrounds, herror⟩ := List.forall_mem_singleton.mp hundisturbed
  cases houtcome : (s.runLine rounds line).1 with
  | completed => exact .inl rfl
  | exited => exact .inr rfl
  | staticErrors =>
    rw [runLine_eq_submit] at houtcome
    exact absurd h.entryReports_eq (submit_eq_staticErrors_iff.mp houtcome)
  | runtimeError e => exact absurd houtcome (herror e)
  | outOfRounds => exact absurd houtcome hrounds

theorem runLines_cons (rounds : Nat) (s : Session) (line : String) (rest : List String) :
    s.runLines rounds (line :: rest) =
      let here := s.runLine rounds line
      let later := here.2.runLines rounds rest
      if here.1 = .exited then ([here.1], here.2) else (here.1 :: later.1, later.2) := by
  rw [runLines]

theorem runLines_of_exited {rest : List String} (h : (s.runLine rounds line).1 = .exited) :
    s.runLines rounds (line :: rest) = ([.exited], (s.runLine rounds line).2) := by
  simp only [runLines_cons, h, if_pos]

theorem runLines_of_completed {rest : List String} (h : (s.runLine rounds line).1 = .completed) :
    s.runLines rounds (line :: rest) =
      let later := (s.runLine rounds line).2.runLines rounds rest
      (.completed :: later.1, later.2) := by
  have hne : Outcome.completed ≠ .exited := by decide
  simp only [runLines_cons, h, if_neg hne]

theorem Undisturbed.head {rest : List String}
    (h : Undisturbed (s.runLines rounds (line :: rest)).1) :
    Undisturbed [(s.runLine rounds line).1] := by
  intro outcome houtcome
  apply h
  rw [List.mem_singleton.mp houtcome, runLines_cons]
  simp only
  split <;> exact List.mem_cons_self

theorem Undisturbed.tail {rest : List String}
    (h : Undisturbed (s.runLines rounds (line :: rest)).1)
    (hcompleted : (s.runLine rounds line).1 = .completed) :
    Undisturbed ((s.runLine rounds line).2.runLines rounds rest).1 := by
  rw [runLines_of_completed hcompleted] at h
  exact (List.forall_mem_cons.mp h).2

/-- Two sources in a row are performed one after the other. -/
theorem perform_append_of_standsAlone {first second : String} (h₁ : StandsAlone first)
    (h₂ : StandsAlone second) :
    s.perform (execute rounds (s.parse (first ++ "\n" ++ second)).1) =
      match s.perform (execute rounds (s.parse first).1) with
      | (.completed, s') =>
        let (outcome, s') := s'.perform (execute rounds (s'.parse second).1)
        (outcome.mapLines (· + Scan.lines first), s')
      | stopped => stopped := by
  rw [h₁.parse_append h₂, perform_append]
  rcases s.perform (execute rounds (s.parse first).1) with ⟨outcome, s'⟩
  cases outcome with
  | completed => exact perform_mapLines _ rounds s' _
  | _ => rfl

end Running

end Session

namespace CommandLine

open Session

theorem withoutReturn_cases (line : List Char) :
    line = withoutReturn line ∨ line = withoutReturn line ++ ['\r'] := by
  unfold withoutReturn
  split
  · next h =>
    obtain ⟨start, rfl⟩ := List.getLast?_eq_some_iff.mp h
    right
    rw [List.dropLast_concat]
  · exact .inl rfl

theorem scan_withoutReturn {line : List Char} (h : StandsAlone (String.ofList (withoutReturn line))) :
    Scan.ofSource (String.ofList line) = Scan.ofSource (String.ofList (withoutReturn line)) := by
  rcases withoutReturn_cases line with hline | hline
  · rw [← hline]
  · have hreturn : String.ofList line = String.ofList (withoutReturn line) ++ "\r" :=
      (congrArg String.ofList hline).trans String.ofList_append
    rw [hreturn, h.scan_return]

/-- The characters with their lines: if the lines stand alone then so does the text, and running it is
running its lines. -/
def RunsAsLines (rounds : Nat) (cs : List Char) (lines : List (List Char)) : Prop :=
  (∀ line ∈ lines, StandsAlone (String.ofList line)) →
    StandsAlone (String.ofList cs) ∧
    ∀ s : Session, s.diagnostics = [] →
      Undisturbed (s.runLines rounds (lines.map String.ofList)).1 →
      ∃ outcome, (outcome = .completed ∨ outcome = .exited) ∧
        s.perform (execute rounds (s.parse (String.ofList cs)).1) =
          (outcome, (s.runLines rounds (lines.map String.ofList)).2)

theorem runsAsLines_nil (rounds : Nat) : RunsAsLines rounds [] [] := by
  intro _
  refine ⟨⟨by decide +kernel, by decide +kernel⟩, fun s hs hundisturbed => ?_⟩
  exact ⟨.completed, .inl rfl, rfl⟩

theorem runsAsLines_last (rounds : Nat) (line : List Char) : RunsAsLines rounds line [line] := by
  intro hlines
  have hline : StandsAlone (String.ofList line) := hlines line (List.mem_singleton.mpr rfl)
  refine ⟨hline, fun s hs hundisturbed => ?_⟩
  rw [List.map_singleton] at hundisturbed ⊢
  have hcases := runLine_completed_or_exited hline hundisturbed.head
  refine ⟨(s.runLine rounds (String.ofList line)).1, hcases, ?_⟩
  rw [← runLine_of_standsAlone hs hline]
  rcases hcases with hcompleted | hexited
  · rw [runLines_of_completed hcompleted]
    rfl
  · rw [runLines_of_exited hexited]

/-- The lines after the first come behind it, with or without a carriage return between. -/
theorem runsAsLines_cons {rounds : Nat} {line rest : List Char} {lines : List (List Char)}
    (ih : RunsAsLines rounds rest lines) :
    RunsAsLines rounds (line ++ '\n' :: rest) (withoutReturn line :: lines) := by
  intro hlines
  obtain ⟨hline, hrest⟩ := List.forall_mem_cons.mp hlines
  obtain ⟨hsecond, hruns⟩ := ih hrest
  have hscan := scan_withoutReturn hline
  have hfirst : StandsAlone (String.ofList line) := hline.of_scan_eq hscan
  have htext : String.ofList (line ++ '\n' :: rest) =
      String.ofList line ++ "\n" ++ String.ofList rest := by
    rw [List.append_cons, String.ofList_append, String.ofList_append]
  rw [htext]
  refine ⟨hfirst.append hsecond, fun s hs hundisturbed => ?_⟩
  rw [List.map_cons] at hundisturbed ⊢
  have hcases := runLine_completed_or_exited hline hundisturbed.head
  have hperform : s.perform (execute rounds (s.parse (String.ofList line)).1) =
      s.runLine rounds (String.ofList (withoutReturn line)) := by
    rw [runLine_of_standsAlone hs hline, parse_eq, parse_eq, hscan]
  have hs' := runLine_diagnostics_eq_nil rounds s hline
  rw [perform_append_of_standsAlone hfirst hsecond, hperform]
  rcases hcases with hcompleted | hexited
  · obtain ⟨outcome, houtcome, hrest⟩ := hruns _ hs' (hundisturbed.tail hcompleted)
    refine ⟨outcome, houtcome, ?_⟩
    rw [runLines_of_completed hcompleted]
    rcases hrun : s.runLine rounds (String.ofList (withoutReturn line)) with ⟨first, s'⟩
    rw [hrun] at hcompleted hrest
    obtain rfl : first = .completed := hcompleted
    simp only [hrest]
    rcases houtcome with rfl | rfl <;> rfl
  · refine ⟨.exited, .inr rfl, ?_⟩
    rw [runLines_of_exited hexited]
    rcases hrun : s.runLine rounds (String.ofList (withoutReturn line)) with ⟨first, s'⟩
    rw [hrun] at hexited
    obtain rfl : first = .exited := hexited
    rfl

theorem runsAsLines (rounds : Nat) (cs : List Char) : RunsAsLines rounds cs (charLines [] cs) :=
  charLines_induction (P := RunsAsLines rounds) (runsAsLines_nil rounds)
    (fun line _ _ => runsAsLines_last rounds line) (fun _ _ _ ih => runsAsLines_cons ih) cs

theorem standsAlone_of_lines {text : String} (hlines : ∀ line ∈ textLines text, StandsAlone line) :
    StandsAlone text := by
  have htext := (runsAsLines 0 text.toList (List.forall_mem_map.mp hlines)).1
  rwa [String.ofList_toList] at htext

/-- A text whose lines stand alone is run as its lines are. -/
theorem run_of_lines {rounds : Nat} {text : String} {s : Session} (hs : s.diagnostics = [])
    (hlines : ∀ line ∈ textLines text, StandsAlone line)
    (hundisturbed : Undisturbed (s.runLines rounds (textLines text)).1) :
    ∃ outcome, (outcome = .completed ∨ outcome = .exited) ∧
      s.run rounds text = (outcome, (s.runLines rounds (textLines text)).2) := by
  have hruns := (runsAsLines rounds text.toList (List.forall_mem_map.mp hlines)).2
  rw [String.ofList_toList] at hruns
  have hsession : { s with diagnostics := [] } = s := by rw [← hs]
  rw [run_of_diagnostics_eq_nil (standsAlone_of_lines hlines).reports_eq, hsession]
  exact hruns s hs hundisturbed

theorem complaints_eq_empty {outcome : Outcome} {s : Session}
    (houtcome : outcome = .completed ∨ outcome = .exited) (hs : s.diagnostics = []) :
    complaints outcome s = "" := by
  have hreports : reports s = "" := by
    rw [reports, hs]
    rfl
  rcases houtcome with rfl | rfl
  · exact hreports
  · exact hreports

section Prompt

variable {rounds : Nat} {earlier : ByteArray} {p s : Session}

/-- An entry does the same behind earlier output. -/
theorem submit_continues (h : p.world.Continues earlier s.world) (rounds : Nat)
    (reports : List Diagnostic) (entry : Entry) :
    (s.submit rounds reports entry).1 = (p.submit rounds reports entry).1 ∧
      (p.submit rounds reports entry).2.world.Continues earlier
        (s.submit rounds reports entry).2.world := by
  unfold submit
  split
  · have hworld : World.Continues earlier (Session.mk p.world reports).world
        (Session.mk s.world reports).world := h
    exact perform_continues hworld rounds entry
  · exact ⟨rfl, h⟩

/-- Taking the output out of a session adds it to what was written before. -/
theorem continues_withoutOutput (h : p.world.Continues earlier s.world) :
    (withoutOutput p).world.Continues (earlier ++ p.world.sink.written) s.world where
  environment_eq := h.environment_eq
  limit_eq := rfl
  sink_eq := by
    have hempty : (withoutOutput p).world.sink.written = .empty := rfl
    rw [h.sink_eq, hempty, ByteArray.append_empty]

theorem promptStep_of_standsAlone {line : String} (h : StandsAlone line)
    (houtcome : (p.runLine rounds line).1 = .completed ∨ (p.runLine rounds line).1 = .exited) :
    promptStep rounds .run p line =
      let (outcome, p') := p.runLine rounds line
      ⟨withoutOutput p', p'.world.sink.written, "", outcome = .exited⟩ := by
  have hcomplaints := complaints_eq_empty houtcome (runLine_diagnostics_eq_nil rounds p h)
  rw [promptStep]
  simp only [hcomplaints]

theorem promptLines_of_exited {line : String} (h : StandsAlone line)
    (hexited : (p.runLine rounds line).1 = .exited) (rest : List (List UInt8)) :
    promptLines rounds .run p (line.toUTF8.toList :: rest) =
      ⟨0, (p.runLine rounds line).2.world.sink.written, ""⟩ := by
  rw [promptLines, lineText?_toUTF8]
  simp only [promptStep_of_standsAlone h (.inr hexited), hexited, decide_true, if_pos]

theorem promptLines_of_completed {line : String} (h : StandsAlone line)
    (hcompleted : (p.runLine rounds line).1 = .completed) (rest : List (List UInt8)) :
    promptLines rounds .run p (line.toUTF8.toList :: rest) =
      let after := (p.runLine rounds line).2
      let later := promptLines rounds .run (withoutOutput after) rest
      ⟨later.status, after.world.sink.written ++ later.output, later.errors⟩ := by
  have hends : decide (Outcome.completed = .exited) = false := by decide
  rw [promptLines, lineText?_toUTF8]
  simp only [promptStep_of_standsAlone h (.inl hcompleted), hcompleted, hends, Bool.false_eq_true,
    if_false, String.empty_append]

/-- The prompt answers to lines that stand alone with the output that they add in a session. -/
theorem promptLines_of_lines {lines : List String} (hlines : ∀ line ∈ lines, StandsAlone line)
    (hworld : p.world.Continues earlier s.world) (hempty : p.world.sink.written = .empty)
    (hundisturbed : Undisturbed (s.runLines rounds lines).1) :
    ∃ output, promptLines rounds .run p (lines.map fun line => line.toUTF8.toList) =
        ⟨0, output, ""⟩ ∧
      (s.runLines rounds lines).2.world.sink.written = earlier ++ output := by
  induction lines generalizing p s earlier with
  | nil =>
    refine ⟨.empty, rfl, ?_⟩
    have hwritten := congrArg Sink.written hworld.sink_eq
    rw [hempty] at hwritten
    exact hwritten
  | cons line rest ih =>
    obtain ⟨hline, hrest⟩ := List.forall_mem_cons.mp hlines
    obtain ⟨hsame, hafter⟩ := submit_continues hworld rounds (entryReports line)
      (parseEntry (Scan.ofSource line).tokens).entry
    rw [← runLine_eq_submit, ← runLine_eq_submit] at hsame hafter
    rw [List.map_cons]
    rcases runLine_completed_or_exited hline hundisturbed.head with hcompleted | hexited
    · obtain ⟨output, hprompt, houtput⟩ := ih hrest (continues_withoutOutput hafter) rfl
        (hundisturbed.tail hcompleted)
      refine ⟨(p.runLine rounds line).2.world.sink.written ++ output, ?_, ?_⟩
      · simp only [promptLines_of_completed hline (hsame.symm.trans hcompleted), hprompt]
      · rw [runLines_of_completed hcompleted, ← ByteArray.append_assoc]
        exact houtput
    · refine ⟨(p.runLine rounds line).2.world.sink.written, ?_, ?_⟩
      · exact promptLines_of_exited hline (hsame.symm.trans hexited) _
      · rw [runLines_of_exited hexited]
        exact congrArg Sink.written hafter.sink_eq

end Prompt

/-- Typing a script gives what running it gives. If each line of a text is a program by itself, and if
no line that is run is stopped, then the prompt with the text as its input and the text run as a script
write the same output and no complaints, and both succeed. A line that exits ends both. -/
theorem prompt_agrees_with_script (rounds : Nat) (text path : String) (input : ByteArray)
    (readFile : String → Except ReadFailure ByteArray) (promptArguments scriptArguments : List String)
    (hprompt : Invocation.ofArguments promptArguments = .prompt .run)
    (hscript : Invocation.ofArguments scriptArguments = .script path .run)
    (hfile : readFile path = .ok text.toUTF8)
    (hlines : ∀ line ∈ textLines text, StandsAlone line)
    (hundisturbed : Undisturbed ((start none).runLines rounds (textLines text)).1) :
    ∃ output, respond rounds readFile text.toUTF8 promptArguments = ⟨0, output, ""⟩ ∧
      respond rounds readFile input scriptArguments = ⟨0, output, ""⟩ := by
  have hworld : World.Continues .empty (start none).world (start none).world := by
    refine ⟨rfl, rfl, ?_⟩
    rw [ByteArray.empty_append]
    rfl
  obtain ⟨output, hlinesOutput, hwritten⟩ := promptLines_of_lines hlines hworld rfl hundisturbed
  obtain ⟨outcome, houtcome, hrun⟩ := run_of_lines rfl hlines hundisturbed
  have hreports := run_diagnostics rounds (start none) text
  rw [hrun, (standsAlone_of_lines hlines).reports_eq] at hreports
  have hcomplaints := complaints_eq_empty houtcome hreports
  have hstatus : exitStatus outcome = 0 := by
    rcases houtcome with rfl | rfl <;> rfl
  rw [ByteArray.empty_append] at hwritten
  refine ⟨output, ?_, ?_⟩
  · rw [respond, hprompt]
    simp only [promptResponse, inputLines_toUTF8, hlinesOutput]
  · rw [respond, hscript]
    simp only [scriptResponse, hfile, sourceOf, fromUTF8?_toUTF8, sourceResponse, hrun, hstatus,
      hwritten, hcomplaints]

/-- The third line exits, and the last one, which would fail, is not run. -/
theorem prompt_agrees_with_script_exit :
    let text := "var a = \"hi\";\r\nprint a; // once\nexit;\nprint b;"
    let readFile : String → Except ReadFailure ByteArray := fun _ => .ok text.toUTF8
    (textLines text = ["var a = \"hi\";", "print a; // once", "exit;", "print b;"] ∧
      ((start none).runLines 1 (textLines text)).1 = [.completed, .completed, .exited]) ∧
    ∃ output, respond 1 readFile text.toUTF8 [] = ⟨0, output, ""⟩ ∧
      respond 1 readFile .empty ["greet.lox"] = ⟨0, output, ""⟩ := by
  intro text readFile
  have hlines : textLines text = ["var a = \"hi\";", "print a; // once", "exit;", "print b;"] := by
    decide +kernel
  have houtcomes : ((start none).runLines 1 (textLines text)).1 =
      [.completed, .completed, .exited] := by
    decide +kernel
  have halone : ∀ line ∈ textLines text, StandsAlone line := by
    have hreports : ∀ line ∈ textLines text, programReports line = [] := by decide +kernel
    have helse : ∀ line ∈ textLines text, ∀ t ∈ (Scan.ofSource line).tokens.head?,
        t.kind ≠ .elseWord := by
      decide +kernel
    exact fun line hline => ⟨hreports line hline, helse line hline⟩
  have hundisturbed : Undisturbed ((start none).runLines 1 (textLines text)).1 := by
    rw [houtcomes]
    intro outcome houtcome
    simp only [List.mem_cons, List.not_mem_nil, or_false] at houtcome
    rcases houtcome with rfl | rfl | rfl <;> simp
  exact ⟨⟨hlines, houtcomes⟩, prompt_agrees_with_script 1 text "greet.lox" .empty readFile []
    ["greet.lox"] (by decide +kernel) (by decide +kernel) rfl halone hundisturbed⟩

end CommandLine

end Treewalk
