import Treewalk.Proofs.Session.Concatenation
import Treewalk.Proofs.Session.Requests

set_option autoImplicit false
set_option relaxedAutoImplicit false

/-!
Lines at a prompt beside programs.

What is typed at a prompt is read as an expression or as a program, never both ways: a program that
is not empty has a semicolon or a closing brace, and an expression has neither. So a program does at
the prompt what it does elsewhere, and an expression does what printing it does.
-/

namespace Treewalk

open Treewalk.Grammar Treewalk.Parser

variable {finish : Token}

/-- A bare expression is one that the grammar spells with all of the tokens before the end. -/
theorem run_expression_iff {tokens : List Token} {e : Expr} :
    expression.run tokens = ⟨.ok e, [], []⟩ ↔
      ∃ s : Expression 0, s.tokens = beforeEnd tokens ∧ s.tree = e := by
  have hiff : expression.run tokens = ⟨.ok e, [], []⟩ ↔ Spells 0 (beforeEnd tokens) e [] :=
    reads_expression_iff (finishOf_kind tokens)
  rw [hiff]
  constructor
  · rintro ⟨s, hs, htree, -⟩
    rw [List.append_nil] at hs
    exact ⟨s, hs.symm, htree⟩
  · rintro ⟨s, hs, htree⟩
    exact ⟨s, by rw [List.append_nil, hs], htree, by simp [Closed]⟩

/-- What is read as a program without reports is a program at the prompt. -/
theorem parseEntry_of_diagnostics_eq_nil {tokens : List Token}
    (h : (parseProgram tokens).diagnostics = []) :
    parseEntry tokens = ⟨.program (parseProgram tokens).program, []⟩ := by
  obtain ⟨-, p, hp, -⟩ :=
    (reads_program_iff (finishOf_kind tokens) (beforeEnd_ne_eof tokens)).mp
      (reads_program_of_diagnostics_eq_nil h)
  unfold parseEntry
  split
  · next e he =>
    obtain ⟨s, hs, -⟩ := run_expression_iff.mp he
    exact absurd (hp.trans hs.symm) (p.tokens_ne s)
  · simp only [h]

theorem run_expression_of_parseEntry {tokens : List Token} {e : Expr}
    (h : (parseEntry tokens).entry = .expression e) :
    expression.run tokens = ⟨.ok e, [], []⟩ := by
  unfold parseEntry at h
  split at h
  · next e' he =>
    obtain rfl := Entry.expression.inj h
    exact he
  · contradiction

/-- An expression without a semicolon behind it is no statement. -/
theorem expressionStatement_error (hf : finish.kind = .eof) (e : Expression 0) :
    expressionStatement finish e.tokens =
      ⟨.error (.unexpected (.token .semicolon "after expression") finish), [], []⟩ := by
  have hread : expression.Reads finish e.tokens e.tree [] := by
    refine (reads_expression_iff hf).mpr ⟨e, ?_, rfl, by simp [Closed]⟩
    rw [List.append_nil]
  rw [expressionStatement, hread.bind_eq]
  rfl

theorem declaration_expression (hf : finish.kind = .eof) (e : Expression 0) (n : Nat)
    (inLoop : Bool) :
    declaration (n + 2) inLoop finish e.tokens =
      ⟨.ok none, [], [.unexpected (.token .semicolon "after expression") finish]⟩ := by
  obtain ⟨t, ts, htokens, ht⟩ := e.exists_head
  have hnext : NextNot [.varWord] (e.tokens ++ []) := e.nextNot (by decide) []
  rw [List.append_nil] at hnext
  have hdecline : (accept? [.varWord]).Reads finish e.tokens none e.tokens := .decline hnext
  have hstatement : statement (n + 1) inLoop finish e.tokens =
      ⟨.error (.unexpected (.token .semicolon "after expression") finish), [], []⟩ := by
    rw [← expressionStatement_error hf e, htokens]
    exact statement_eq_expressionStatement n inLoop ht ts
  rw [declaration, recover, hdecline.bind_eq]
  simp only [hstatement]
  rfl

/-- An expression alone, read as a program, misses its semicolon at the end. -/
theorem parseProgram_expression (hf : finish.kind = .eof) (e : Expression 0) :
    parseProgram (e.tokens ++ [finish]) =
      ⟨[], [⟨finish.line, .finish, "Expect ';' after expression."⟩]⟩ := by
  have hnext : (e.tokens.headD finish).kind ∉ [Kind.eof] := by
    obtain ⟨t, ts, htokens, ht⟩ := e.exists_head
    have hstart : ∀ k ∈ expressionStarts, k ∉ [Kind.eof] := by decide
    rw [htokens]
    exact hstart t.kind ht
  have hkind : currentKind.Reads finish e.tokens (e.tokens.headD finish).kind e.tokens :=
    .currentKind _
  have hend : (declarations (8 * e.tokens.length + 7) false [.eof]).Reads finish [] [] [] :=
    reads_declarations_nil (by omega) (by simp [hf])
  have hreading : declarations (8 * (e.tokens.length + 1)) false [.eof] finish e.tokens =
      ⟨.ok [], [], [.unexpected (.token .semicolon "after expression") finish]⟩ := by
    rw [show 8 * (e.tokens.length + 1) = 8 * e.tokens.length + 7 + 1 by omega, declarations,
      hkind.bind_eq, if_neg hnext, bind_apply, declaration_expression hf e]
    simp only [hend.bind_eq]
    rfl
  have hlocation : Location.ofToken finish = .finish := if_pos hf
  simp only [parseProgram, run_program hf e.tokens_ne_eof, hreading, List.map_cons, List.map_nil,
    SyntaxError.diagnostic, SyntaxError.token, Diagnostic.atToken, hlocation]
  rfl

namespace Scan

/-- A word in front of a source, with a blank behind it, is one token more. -/
theorem ofSource_print (source : String) :
    ofSource ("print " ++ source) =
      ⟨.token ⟨.printWord, "print", none, 1⟩ :: (ofSource source).items,
        (ofSource source).line⟩ := by
  have hchars : ("print " ++ source).toList =
      'p' :: 'r' :: 'i' :: 'n' :: 't' :: ' ' :: source.toList := by
    simp
  have hword : step 1 'p' ('r' :: 'i' :: 'n' :: 't' :: ' ' :: source.toList) =
      ⟨some (.token ⟨.printWord, "print", none, 1⟩), 1, ' ' :: source.toList⟩ := rfl
  have hblank : step 1 ' ' source.toList = ⟨none, 1, source.toList⟩ := rfl
  calc ofSource ("print " ++ source)
    _ = ofChars 1 ('p' :: 'r' :: 'i' :: 'n' :: 't' :: ' ' :: source.toList) := by
      rw [ofSource, hchars]
      rfl
    _ = ⟨.token ⟨.printWord, "print", none, 1⟩ :: (ofChars 1 source.toList).items,
          (ofChars 1 source.toList).line⟩ := by
      rw [ofChars_cons, hword]
      simp only
      rw [ofChars_cons, hblank]
      rfl

end Scan

namespace Session

theorem parseLine_eq (s : Session) (source : String) :
    s.parseLine source =
      ((parseEntry (Scan.ofSource source).tokens).entry,
        { s with diagnostics := (Scan.ofSource source).diagnostics ++
          (parseEntry (Scan.ofSource source).tokens).diagnostics }) := rfl

theorem parse_eq (s : Session) (source : String) :
    s.parse source =
      ((parseProgram (Scan.ofSource source).tokens).program,
        { s with diagnostics := (Scan.ofSource source).diagnostics ++
          (parseProgram (Scan.ofSource source).tokens).diagnostics }) := rfl

/-- A source that is read as a program without reports is the same program at the prompt. -/
theorem parseLine_of_diagnostics_eq_nil {s : Session} {source : String}
    (h : (s.parse source).2.diagnostics = []) :
    s.parseLine source = (.program (s.parse source).1, (s.parse source).2) := by
  obtain ⟨-, hparse⟩ := List.append_eq_nil_iff.mp h
  rw [parseLine_eq, parse_eq, parseEntry_of_diagnostics_eq_nil hparse, hparse]

/-- What a bare expression at the prompt is spelled by. -/
theorem exists_of_parseLine {s : Session} {source : String} {e : Expr}
    (he : (s.parseLine source).1 = .expression e) (h : (s.parseLine source).2.diagnostics = []) :
    (Scan.ofSource source).diagnostics = [] ∧
      ∃ g : Expression 0, g.tokens = (Scan.ofSource source).found ∧ g.tree = e := by
  simp only [parseLine_eq, List.append_eq_nil_iff] at he h
  obtain ⟨g, hg, htree⟩ := run_expression_iff.mp (run_expression_of_parseEntry he)
  rw [beforeEnd_tokens] at hg
  exact ⟨h.1, g, hg, htree⟩

/-- Printing what is spelled like an expression is read as printing the expression. -/
theorem parse_print {source : String} (hscan : (Scan.ofSource source).diagnostics = [])
    {g : Expression 0} (hg : g.tokens = (Scan.ofSource source).found) (s : Session) :
    s.parse ("print " ++ source ++ "\n;") = ([.print g.tree], { s with diagnostics := [] }) := by
  have hitems := Scan.ofSource_print source
  have hdiagnostics : (Scan.ofSource ("print " ++ source)).diagnostics = [] := by
    rw [hitems]
    exact hscan
  have hfound : (Scan.ofSource ("print " ++ source)).found =
      ⟨.printWord, "print", none, 1⟩ :: g.tokens := by
    rw [hitems, hg]
    rfl
  have hend : Scan.ofSource ";" = ⟨[.token ⟨.semicolon, ";", none, 1⟩], 1⟩ := rfl
  let f := (· + Scan.lines ("print " ++ source))
  let p : Grammar.Program := .statement (.print ⟨⟨.printWord, "print", none, 1⟩, by simp⟩ g
    ⟨⟨.semicolon, ";", none, f 1⟩, by simp⟩) .nil
  have hp : p.tokens = (⟨.printWord, "print", none, 1⟩ :: g.tokens) ++
      [⟨.semicolon, ";", none, f 1⟩] := by
    simp [p, Sequence.tokens, Statement.tokens]
  have htokens : (Scan.ofSource ("print " ++ source ++ "\n" ++ ";")).tokens =
      p.tokens ++ [Token.eof (f 1)] := by
    rw [Scan.tokens_append hdiagnostics, hfound, hend, hp]
    rfl
  have hread : program (Token.eof (f 1)) p.tokens = ⟨.ok p.tree, [], []⟩ :=
    (reads_program_iff rfl p.tokens_ne_eof).mpr ⟨rfl, p, rfl, rfl⟩
  have hparse : parseProgram (p.tokens ++ [Token.eof (f 1)]) = ⟨p.tree, []⟩ := by
    rw [parseProgram, run_append_finish program rfl p.tokens_ne_eof, hread]
    rfl
  have hend' : "\n;" = "\n" ++ ";" := rfl
  rw [hend', ← String.append_assoc, parse_eq, htokens, hparse, Scan.diagnostics_append hdiagnostics, hend]
  rfl

theorem executeEntry_expression (rounds : Nat) (e : Expr) :
    executeEntry rounds (.expression e) = execute rounds [.print e] := by
  simp [executeEntry, execute, Program.exec, Stmt.exec, Outcome.ofCompletion]

/-- What is typed at a prompt does what it does as a program. A source that is a program without
reports is run as that program. A source that is an expression is run as a program that prints it,
while as a program it misses its semicolon and has no effect. -/
theorem runLine_agrees (rounds : Nat) (s : Session) (source : String) :
    ((s.parse source).2.diagnostics = [] →
      s.runLine rounds source = s.run rounds source ∧
      (s.run rounds source).2.diagnostics = []) ∧
    ∀ e, (s.parseLine source).1 = .expression e → (s.parseLine source).2.diagnostics = [] →
      s.runLine rounds source = s.run rounds ("print " ++ source ++ "\n;") ∧
      s.run rounds source = (.staticErrors, { s with diagnostics :=
        [⟨(Scan.ofSource source).line, .finish, "Expect ';' after expression."⟩] }) := by
  refine ⟨fun h => ⟨?_, ?_⟩, fun e he h => ?_⟩
  · rw [runLine_eq, run_eq, parseLine_of_diagnostics_eq_nil h]
    rfl
  · rw [run_of_diagnostics_eq_nil h, perform_diagnostics]
  · obtain ⟨hscan, g, hg, rfl⟩ := exists_of_parseLine he h
    have hprint := parse_print hscan hg s
    have hsession : (s.parseLine source).2 = { s with diagnostics := [] } := by
      rw [← h]
      rfl
    have hparse : s.parse source = ([], { s with diagnostics :=
        [⟨(Scan.ofSource source).line, .finish, "Expect ';' after expression."⟩] }) := by
      rw [parse_eq, Scan.tokens_eq_found, ← hg, hscan, parseProgram_expression rfl g]
      rfl
    constructor
    · rw [runLine_eq, run_eq, hprint, he, hsession, executeEntry_expression]
    · rw [run_eq, hparse]
      rfl

/-- At the prompt, `!nil // yes` writes `true` and `print !nil;` is a program. -/
theorem runLine_agrees_not_nil :
    let s := start none
    let line := "!nil // yes"
    let tree : Expr := .unary ⟨.bang, "!", none, 1⟩ (.literal .nil)
    ((s.parse "print !nil;").2.diagnostics = [] ∧
      s.runLine 0 "print !nil;" = s.run 0 "print !nil;") ∧
    (s.parseLine line).1 = .expression tree ∧ (s.parseLine line).2.diagnostics = [] ∧
    (s.runLine 0 line).1 = .completed ∧
    s.runLine 0 line = s.run 0 ("print " ++ line ++ "\n;") ∧
    s.run 0 line = (.staticErrors, { s with diagnostics :=
      [⟨(Scan.ofSource line).line, .finish, "Expect ';' after expression."⟩] }) := by
  intro s line tree
  have hprogram : (s.parse "print !nil;").2.diagnostics = [] := by decide +kernel
  have htree : (match (s.parseLine line).1 with
      | .expression e => some e
      | .program _ => none) = some tree := by
    decide +kernel
  have hentry : (s.parseLine line).1 = .expression tree := by
    revert htree
    cases (s.parseLine line).1 with
    | program p =>
      intro h
      cases h
    | expression e =>
      intro h
      rw [Option.some.inj h]
  have hclean : (s.parseLine line).2.diagnostics = [] := by decide +kernel
  have hcompleted : (s.runLine 0 line).1 = .completed := by decide +kernel
  exact ⟨⟨hprogram, ((runLine_agrees 0 s "print !nil;").1 hprogram).1⟩, hentry, hclean, hcompleted,
    (runLine_agrees 0 s line).2 tree hentry hclean⟩

end Session

end Treewalk
