import Treewalk.Proofs.Scan.Steps
import Treewalk.Proofs.Syntax.Lines

set_option autoImplicit false
set_option relaxedAutoImplicit false

/-!
Scans of sources in a row.

No token reaches past the end of a line, except for a string, which must find its closing quote.
So the scan of a source without lexical errors goes on behind it, on a new line, as a scan of what
follows would, on later lines.
-/

namespace Treewalk

/-- The error on another line. -/
def LexicalError.mapLine (g : Nat → Nat) : LexicalError → LexicalError
  | .unexpectedCharacter character line => .unexpectedCharacter character (g line)
  | .unterminatedString line => .unterminatedString (g line)

/-- The item on another line. -/
def ScanItem.mapLine (g : Nat → Nat) : ScanItem → ScanItem
  | .token t => .token (t.mapLine g)
  | .error e => .error (e.mapLine g)

/-- The report on another line. -/
def Diagnostic.mapLine (g : Nat → Nat) (d : Diagnostic) : Diagnostic :=
  { d with line := g d.line }

theorem ScanItem.token?_mapLine (g : Nat → Nat) (i : ScanItem) :
    (i.mapLine g).token? = i.token?.map (Token.mapLine g) := by
  cases i <;> rfl

theorem ScanItem.error?_mapLine (g : Nat → Nat) (i : ScanItem) :
    (i.mapLine g).error? = i.error?.map (LexicalError.mapLine g) := by
  cases i <;> rfl

theorem filterMap_token?_mapLine (g : Nat → Nat) (items : List ScanItem) :
    (items.map (ScanItem.mapLine g)).filterMap ScanItem.token? =
      (items.filterMap ScanItem.token?).map (Token.mapLine g) := by
  have htoken : ScanItem.token? ∘ ScanItem.mapLine g = fun i => i.token?.map (Token.mapLine g) :=
    funext (ScanItem.token?_mapLine g)
  rw [List.filterMap_map, htoken, List.map_filterMap]

theorem filterMap_error?_mapLine (g : Nat → Nat) (items : List ScanItem) :
    (items.map (ScanItem.mapLine g)).filterMap ScanItem.error? =
      (items.filterMap ScanItem.error?).map (LexicalError.mapLine g) := by
  have herror : ScanItem.error? ∘ ScanItem.mapLine g =
      fun i => i.error?.map (LexicalError.mapLine g) := funext (ScanItem.error?_mapLine g)
  rw [List.filterMap_map, herror, List.map_filterMap]

theorem LexicalError.diagnostic_mapLine (g : Nat → Nat) (e : LexicalError) :
    (e.mapLine g).diagnostic = e.diagnostic.mapLine g := by
  cases e <;> rfl

namespace Scan

/-- The same step some lines below. -/
def Step.lower (d : Nat) (s : Step) : Step :=
  ⟨s.item.map (ScanItem.mapLine (· + d)), s.line + d, s.rest⟩

/-- The same scan some lines below. -/
def lower (d : Nat) (s : Scan) : Scan :=
  ⟨s.items.map (ScanItem.mapLine (· + d)), s.line + d⟩

theorem slashStep_lower (line d : Nat) (rest : List Char) :
    slashStep (line + d) rest = (slashStep line rest).lower d := by
  unfold slashStep
  split
  · rfl
  · rfl

theorem stringStep_lower (line d : Nat) (cs : List Char) :
    stringStep (line + d) cs = (stringStep line cs).lower d := by
  unfold stringStep
  split
  · next b _ =>
    have hline : line + d + lineBreaks b.raw = line + lineBreaks b.raw + d := by omega
    simp only [hline]
    rfl
  · have hline : line + d + lineBreaks cs = line + lineBreaks cs + d := by omega
    simp only [hline]
    rfl

theorem equalStep_lower (alone paired : Kind) (line d : Nat) (c : Char) (rest : List Char) :
    equalStep alone paired (line + d) c rest = (equalStep alone paired line c rest).lower d := by
  unfold equalStep
  split
  · rfl
  · rfl

/-- Where a step starts makes no difference but for the lines. -/
theorem step_lower (line d : Nat) (c : Char) (rest : List Char) :
    step (line + d) c rest = (step line c rest).lower d := by
  unfold step
  split
  · rfl
  split
  · have hline : line + d + 1 = line + 1 + d := by omega
    rw [hline]
    rfl
  split
  · exact slashStep_lower line d rest
  split
  · exact stringStep_lower line d rest
  split
  · rfl
  split
  · rfl
  split
  · rfl
  · exact equalStep_lower _ _ line d c rest
  · rfl

theorem ofChars_lower (line d : Nat) (cs : List Char) :
    ofChars (line + d) cs = (ofChars line cs).lower d := by
  induction line, cs using Scan.induction with
  | nil line => rfl
  | cons line c rest ih =>
    rw [ofChars_cons, ofChars_cons, step_lower]
    simp only [Step.lower, ih, lower, List.map_append]
    cases (step line c rest).item <;> rfl

/-- The body is closed before what follows can matter. -/
theorem stringBody?_append {cs : List Char} {b : StringBody} (h : stringBody? cs = some b)
    (more : List Char) : stringBody? (cs ++ more) = some { b with rest := b.rest ++ more } := by
  fun_induction stringBody? cs generalizing b with
  | case1 => contradiction
  | case2 rest =>
    obtain rfl := Option.some.inj h
    rfl
  | case3 rest ih =>
    obtain ⟨body, hbody, rfl⟩ := Option.map_eq_some_iff.mp h
    simp only [List.cons_append, stringBody?, ih hbody]
    rfl
  | case4 rest ih =>
    obtain ⟨body, hbody, rfl⟩ := Option.map_eq_some_iff.mp h
    simp only [List.cons_append, stringBody?, ih hbody]
    rfl
  | case5 c rest hquote hescaped hbackslash ih =>
    obtain ⟨body, hbody, rfl⟩ := Option.map_eq_some_iff.mp h
    cases rest with
    | nil => contradiction
    | cons d rest =>
      rw [List.cons_append, stringBody?, ih hbody]
      · rfl
      · exact hquote
      · intro rest' hc hrest
        exact hescaped rest hc (by rw [(List.cons.inj hrest).1])
      · intro rest' hc hrest
        exact hbackslash rest hc (by rw [(List.cons.inj hrest).1])

/-- What cannot go on in `p` ends what `p` takes. -/
theorem takeWhile_append_stop {p : Char → Bool} {b : Char} (hb : p b = false)
    (cs more : List Char) : (cs ++ b :: more).takeWhile p = cs.takeWhile p := by
  induction cs with
  | nil => simp [hb]
  | cons c cs ih =>
    by_cases hc : p c
    · simp [List.takeWhile_cons_of_pos hc, ih]
    · simp [List.takeWhile_cons_of_neg hc]

theorem dropWhile_append_stop {p : Char → Bool} {b : Char} (hb : p b = false)
    (cs more : List Char) : (cs ++ b :: more).dropWhile p = cs.dropWhile p ++ b :: more := by
  induction cs with
  | nil => simp [hb]
  | cons c cs ih =>
    by_cases hc : p c
    · simp [List.dropWhile_cons_of_pos hc, ih]
    · simp [List.dropWhile_cons_of_neg hc]

/-- The step with more characters behind those that it leaves. -/
def Step.append (s : Step) (more : List Char) : Step :=
  { s with rest := s.rest ++ more }

/-- The character that ends a line, or the one that may stand before it. -/
def EndsLine (b : Char) : Prop :=
  b = '\n' ∨ b = '\r'

/-- A line end belongs to no number. -/
theorem numeral_append {b : Char} (hb : EndsLine b) (cs more : List Char) :
    numeral (cs ++ b :: more) =
      ((numeral cs).1, (numeral cs).2.1, (numeral cs).2.2 ++ b :: more) := by
  have hdigit : Char.isDigit b = false := by
    rcases hb with rfl | rfl <;> rfl
  have hpoint : b ≠ '.' := by
    rcases hb with rfl | rfl <;> decide
  have htake := takeWhile_append_stop hdigit cs more
  have hdrop := dropWhile_append_stop hdigit cs more
  simp only [numeral, htake, hdrop]
  generalize cs.takeWhile Char.isDigit = whole
  rcases cs.dropWhile Char.isDigit with - | ⟨c, rest⟩
  · simp [hpoint]
  by_cases hc : c = '.'
  · subst hc
    rcases rest with - | ⟨d, rest⟩
    · simp [hdigit]
    by_cases hd : d.isDigit
    · simp [hd, takeWhile_append_stop hdigit, dropWhile_append_stop hdigit]
    · simp [hd]
  · simp [hc]

theorem slashStep_append (line : Nat) (rest more : List Char) :
    slashStep line (rest ++ '\n' :: more) = (slashStep line rest).append ('\n' :: more) := by
  rcases rest with - | ⟨c, rest⟩
  · rfl
  by_cases hc : c = '/'
  · subst hc
    have hstop : ('\n' != '\n') = false := rfl
    have hdrop := dropWhile_append_stop (p := (· != '\n')) hstop rest more
    simp only [List.cons_append, slashStep, hdrop]
    rfl
  · simp [slashStep, hc, Step.append, Step.plain]

/-- A string without an error is closed. -/
theorem stringBody?_ne_none {line : Nat} {cs : List Char}
    (h : ∀ i ∈ (stringStep line cs).item, i.error? = none) : stringBody? cs ≠ none := by
  intro hnone
  simp [stringStep, hnone, ScanItem.error?] at h

theorem stringStep_append (line : Nat) {cs : List Char} (h : stringBody? cs ≠ none)
    (more : List Char) : stringStep line (cs ++ more) = (stringStep line cs).append more := by
  obtain ⟨b, hb⟩ := Option.ne_none_iff_exists'.mp h
  simp only [stringStep, hb, stringBody?_append hb more]
  rfl

theorem numberStep_append {b : Char} (hb : EndsLine b) (line : Nat) (cs more : List Char) :
    numberStep line (cs ++ b :: more) = (numberStep line cs).append (b :: more) := by
  simp only [numberStep, numeral_append hb]
  rfl

theorem wordStep_append {b : Char} (hb : EndsLine b) (line : Nat) (cs more : List Char) :
    wordStep line (cs ++ b :: more) = (wordStep line cs).append (b :: more) := by
  have hpart : isWordPart b = false := by
    rcases hb with rfl | rfl <;> rfl
  simp only [wordStep, takeWhile_append_stop hpart, dropWhile_append_stop hpart]
  rfl

theorem equalStep_append {b : Char} (hb : EndsLine b) (alone paired : Kind) (line : Nat) (c : Char)
    (rest more : List Char) :
    equalStep alone paired line c (rest ++ b :: more) =
      (equalStep alone paired line c rest).append (b :: more) := by
  have hequal : b ≠ '=' := by
    rcases hb with rfl | rfl <;> decide
  rcases rest with - | ⟨d, rest⟩
  · simp [equalStep, hequal, Step.append, Step.plain]
  by_cases hd : d = '='
  · subst hd
    rfl
  · simp [equalStep, hd, Step.append, Step.plain]

/-- A step that finds no error does not look past the end of a line, which only a comment may do with
the character before it. -/
theorem step_append_of_slash {b : Char} (hb : EndsLine b) {line : Nat} {c : Char}
    {rest more : List Char} (h : ∀ i ∈ (step line c rest).item, i.error? = none)
    (hslash : c = '/' →
      slashStep line (rest ++ b :: more) = (slashStep line rest).append (b :: more)) :
    step line c (rest ++ b :: more) = (step line c rest).append (b :: more) := by
  unfold step
  split
  · rfl
  split
  · rfl
  split
  · next hc => exact hslash hc
  split
  · next hquote =>
    subst hquote
    have hstep : step line '"' rest = stringStep line rest := rfl
    rw [hstep] at h
    exact stringStep_append line (stringBody?_ne_none h) _
  split
  · exact numberStep_append hb line (c :: rest) more
  split
  · exact wordStep_append hb line (c :: rest) more
  split
  · rfl
  · exact equalStep_append hb _ _ line c rest more
  · rfl

theorem step_append {line : Nat} {c : Char} {rest : List Char}
    (h : ∀ i ∈ (step line c rest).item, i.error? = none) (more : List Char) :
    step line c (rest ++ '\n' :: more) = (step line c rest).append ('\n' :: more) :=
  step_append_of_slash (.inl rfl) h fun _ => slashStep_append line rest more

/-- A carriage return behind a slash is left, or taken by a comment that reaches up to the end. -/
theorem slashStep_return (line : Nat) (rest : List Char) :
    slashStep line (rest ++ ['\r']) = (slashStep line rest).append ['\r'] ∨
      slashStep line (rest ++ ['\r']) = slashStep line rest := by
  rcases rest with - | ⟨c, comment⟩
  · exact .inl rfl
  by_cases hc : c = '/'
  · subst hc
    by_cases hline : '\n' ∈ comment
    · obtain ⟨words, more, rfl⟩ := List.append_of_mem hline
      have hstop : ('\n' != '\n') = false := rfl
      have hdrop := dropWhile_append_stop (p := (· != '\n')) hstop words
      left
      simp [slashStep, hdrop, Step.append, Step.skip]
    · have hall : ∀ d ∈ comment, (d != '\n') = true :=
        fun d hd => bne_iff_ne.mpr (ne_of_mem_of_not_mem hd hline)
      have hdrop : (comment ++ []).dropWhile (· != '\n') = [] := List.dropWhile_append_of_pos hall
      have hdrop' : (comment ++ ['\r']).dropWhile (· != '\n') = [] :=
        List.dropWhile_append_of_pos hall
      rw [List.append_nil] at hdrop
      right
      simp only [List.cons_append, slashStep, hdrop, hdrop']
  · left
    simp [slashStep, hc, Step.append, Step.plain]

/-- A carriage return behind a source without lexical errors is layout. -/
theorem ofChars_return {line : Nat} {cs : List Char}
    (h : ∀ i ∈ (ofChars line cs).items, i.error? = none) :
    ofChars line (cs ++ ['\r']) = ofChars line cs := by
  induction line, cs using Scan.induction with
  | nil line => exact ofChars_cons line '\r' []
  | cons line c rest ih =>
    rw [ofChars_cons] at h
    obtain ⟨hhere, hlater⟩ := List.forall_mem_append.mp h
    have hcases : step line c (rest ++ ['\r']) = (step line c rest).append ['\r'] ∨
        step line c (rest ++ ['\r']) = step line c rest := by
      by_cases hc : c = '/'
      · subst hc
        exact slashStep_return line rest
      · have hitem : ∀ i ∈ (step line c rest).item, i.error? = none :=
          fun i hi => hhere i (Option.mem_toList.mpr hi)
        exact .inl (step_append_of_slash (.inr rfl) hitem fun hslash => absurd hslash hc)
    rw [List.cons_append, ofChars_cons, ofChars_cons]
    rcases hcases with hstep | hstep
    · rw [hstep]
      simp only [Step.append, ih hlater]
    · rw [hstep]

/-- Behind a source without lexical errors, and a line end, a scan goes on as if it began there. -/
theorem ofChars_append {line : Nat} {cs : List Char}
    (h : ∀ i ∈ (ofChars line cs).items, i.error? = none) (more : List Char) :
    ofChars line (cs ++ '\n' :: more) =
      let first := ofChars line cs
      let second := ofChars (first.line + 1) more
      ⟨first.items ++ second.items, second.line⟩ := by
  induction line, cs using Scan.induction with
  | nil line => exact ofChars_cons line '\n' more
  | cons line c rest ih =>
    rw [ofChars_cons] at h ⊢
    obtain ⟨hhere, hlater⟩ := List.forall_mem_append.mp h
    have hstep := step_append (fun i hi => hhere i (Option.mem_toList.mpr hi)) more
    rw [List.cons_append, ofChars_cons, hstep]
    simp only [Step.append, ih hlater, List.append_assoc]

/-- How many lines a source and a line end behind it take. -/
def lines (source : String) : Nat :=
  1 + lineBreaks source.toList

theorem error?_eq_none {s : Scan} (h : s.diagnostics = []) : ∀ i ∈ s.items, i.error? = none := by
  have hnil : s.items.filterMap ScanItem.error? = [] := List.map_eq_nil_iff.mp h
  exact List.filterMap_eq_nil_iff.mp hnil

theorem ofSource_append {source : String} (h : (ofSource source).diagnostics = []) (more : String) :
    ofSource (source ++ "\n" ++ more) =
      let second := (ofSource more).lower (lines source)
      ⟨(ofSource source).items ++ second.items, second.line⟩ := by
  have hchars : (source ++ "\n" ++ more).toList = source.toList ++ '\n' :: more.toList := by
    simp
  have hline : (ofSource source).line + 1 = 1 + lines source := by
    rw [ofSource, steps_eq_ofChars _ (Nat.le_refl _), ofChars_line, lines]
    omega
  have happend := ofChars_append (error?_eq_none h) more.toList
  calc ofSource (source ++ "\n" ++ more)
    _ = ofChars 1 (source.toList ++ '\n' :: more.toList) := by rw [ofSource, hchars]; rfl
    _ = ⟨(ofSource source).items ++ (ofChars ((ofSource source).line + 1) more.toList).items,
          (ofChars ((ofSource source).line + 1) more.toList).line⟩ := happend
    _ = _ := by rw [hline, ofChars_lower]; rfl

theorem ofSource_return {source : String} (h : (ofSource source).diagnostics = []) :
    ofSource (source ++ "\r") = ofSource source := by
  have hchars : (source ++ "\r").toList = source.toList ++ ['\r'] := by
    simp
  calc ofSource (source ++ "\r")
    _ = ofChars 1 (source.toList ++ ['\r']) := by rw [ofSource, hchars]; rfl
    _ = ofChars 1 source.toList := ofChars_return (error?_eq_none h)

/-- The tokens that a scan finds, without the end-of-input token. -/
def found (s : Scan) : List Token :=
  s.items.filterMap ScanItem.token?

theorem tokens_eq_found (s : Scan) : s.tokens = s.found ++ [.eof s.line] := rfl

theorem found_ne_eof (source : String) : ∀ t ∈ (ofSource source).found, t.kind ≠ .eof :=
  ofChars_kind_ne_eof 1 source.toList

theorem found_lower (d : Nat) (s : Scan) :
    (s.lower d).found = s.found.map (Token.mapLine (· + d)) :=
  filterMap_token?_mapLine (· + d) s.items

theorem diagnostics_lower (d : Nat) (s : Scan) :
    (s.lower d).diagnostics = s.diagnostics.map (Diagnostic.mapLine (· + d)) := by
  have hdiagnostic : LexicalError.diagnostic ∘ LexicalError.mapLine (· + d) =
      Diagnostic.mapLine (· + d) ∘ LexicalError.diagnostic :=
    funext (LexicalError.diagnostic_mapLine (· + d))
  simp only [diagnostics, lower, filterMap_error?_mapLine, List.map_map, hdiagnostic]

theorem tokens_append {source : String} (h : (ofSource source).diagnostics = []) (more : String) :
    (ofSource (source ++ "\n" ++ more)).tokens =
      (ofSource source).found ++ (ofSource more).found.map (Token.mapLine (· + lines source)) ++
        [(Token.eof (ofSource more).line).mapLine (· + lines source)] := by
  rw [ofSource_append h, ← found_lower]
  simp only [tokens, found, List.filterMap_append]
  rfl

theorem diagnostics_append {source : String} (h : (ofSource source).diagnostics = [])
    (more : String) :
    (ofSource (source ++ "\n" ++ more)).diagnostics =
      (ofSource more).diagnostics.map (Diagnostic.mapLine (· + lines source)) := by
  rw [← diagnostics_lower, ofSource_append h]
  have hnil : (ofSource source).items.filterMap ScanItem.error? = [] := List.map_eq_nil_iff.mp h
  simp only [diagnostics, List.filterMap_append, hnil, List.nil_append]

end Scan

end Treewalk
