import Treewalk.Proofs.Scan.Append
import Treewalk.Proofs.Scan.Pieces

set_option autoImplicit false
set_option relaxedAutoImplicit false

/-!
Strings as literals.

Every text can be written as a string literal: between quotes, with a backslash in front of each quote
and each backslash. What is written so denotes the text, so the first step of a scan takes exactly the
literal, and the scan goes on behind it as it would begin there, on later lines.
-/

namespace Treewalk

/-- A character as it is written in a string literal. -/
def escapedChar (c : Char) : List Char :=
  if c ∈ ['"', '\\'] then ['\\', c] else [c]

/-- The characters of a text as they are written between quotes. -/
def escaped (value : List Char) : List Char :=
  value.flatMap escapedChar

/-- The string literal for a text. -/
def stringLiteral (value : String) : String :=
  String.ofList ('"' :: (escaped value.toList ++ ['"']))

theorem escaped_cons (c : Char) (value : List Char) :
    escaped (c :: value) = escapedChar c ++ escaped value := rfl

/-- What is written for a text denotes it: no backslash in it is read together with a character that
was not written for it. -/
theorem denotes_escaped (value : List Char) : Denotes (escaped value) value := by
  induction value with
  | nil => exact .nil
  | cons c value ih =>
    rw [escaped_cons, escapedChar]
    split
    · next hc => exact .escaped hc ih
    · next hc => exact .plain hc ih

namespace Scan

theorem lineBreaks_escapedChar (c : Char) : lineBreaks (escapedChar c) = lineBreaks [c] := by
  unfold escapedChar
  split
  · exact List.count_cons_of_ne (by decide)
  · rfl

/-- The backslashes add no line. -/
theorem lineBreaks_escaped (value : List Char) : lineBreaks (escaped value) = lineBreaks value := by
  induction value with
  | nil => rfl
  | cons c value ih =>
    calc lineBreaks (escaped (c :: value))
      _ = lineBreaks (escapedChar c) + lineBreaks (escaped value) := lineBreaks_append _ _
      _ = lineBreaks [c] + lineBreaks value := by rw [lineBreaks_escapedChar, ih]
      _ = lineBreaks (c :: value) := (lineBreaks_append [c] value).symm

theorem lineBreaks_quoted (value : List Char) :
    lineBreaks ('"' :: (escaped value ++ ['"'])) = lineBreaks value := by
  have hquote : lineBreaks ['"'] = 0 := rfl
  calc lineBreaks ('"' :: (escaped value ++ ['"']))
    _ = lineBreaks ['"'] + (lineBreaks (escaped value) + lineBreaks ['"']) := by
      rw [← lineBreaks_append, ← lineBreaks_append]
      rfl
    _ = lineBreaks value := by rw [hquote, lineBreaks_escaped, Nat.zero_add, Nat.add_zero]

/-- A literal is one piece of a text, whatever follows. -/
theorem fits_quoted (value rest : List Char) :
    (Piece.token .string ('"' :: (escaped value ++ ['"']))
      (some (.string (String.ofList value)))).Fits rest := by
  have hdenotes : Denotes (escaped value) value := denotes_escaped value
  have hstep : stepAt 1 ('"' :: (escaped value ++ ['"']) ++ rest) = .across 1 _ rest :=
    stepAt_string hdenotes
  exact fits_of_isRegular (IsLexeme.string hdenotes) hstep

/-- Behind a literal a scan goes on below the lines of its text. -/
theorem ofChars_quoted (line : Nat) (value rest : List Char) :
    let lexeme := '"' :: (escaped value ++ ['"'])
    let last := line + lineBreaks value
    let later := ofChars last rest
    ofChars line (lexeme ++ rest) =
      ⟨.token ⟨.string, String.ofList lexeme, some (.string (String.ofList value)), last⟩ :: later.items,
        later.line⟩ := by
  intro lexeme last later
  have hscan : ofChars line (lexeme ++ rest) = _ := ofChars_fits (fits_quoted value rest)
  rw [hscan, Piece.text, lineBreaks_quoted]
  rfl

end Scan

/-- Every text can be written as a string literal and is read back unchanged. Whatever source follows,
the first item of the scan is a string token whose value is the text and whose lexeme is all that was
written for it, and behind it come the items of the source that follows, as many lines below as the
text has line ends. -/
theorem stringLiteral_reads_back (value source : String) :
    let breaks := value.toList.count '\n'
    let rest := Scan.ofSource source
    Scan.ofSource (stringLiteral value ++ source) =
      ⟨.token ⟨.string, stringLiteral value, some (.string value), 1 + breaks⟩ ::
          rest.items.map (ScanItem.mapLine (· + breaks)),
        rest.line + breaks⟩ := by
  intro breaks rest
  have hchars : (stringLiteral value ++ source).toList =
      '"' :: (escaped value.toList ++ ['"']) ++ source.toList := by
    rw [String.toList_append, stringLiteral, String.toList_ofList]
  have hfirst := Scan.ofChars_quoted 1 value.toList source.toList
  have hlower : Scan.ofChars (1 + breaks) source.toList = rest.lower breaks :=
    Scan.ofChars_lower 1 breaks source.toList
  rw [String.ofList_toList] at hfirst
  calc Scan.ofSource (stringLiteral value ++ source)
    _ = Scan.ofChars 1 ('"' :: (escaped value.toList ++ ['"']) ++ source.toList) := by
      rw [Scan.ofSource, hchars]
      rfl
    _ = ⟨.token ⟨.string, stringLiteral value, some (.string value), 1 + breaks⟩ ::
          (Scan.ofChars (1 + breaks) source.toList).items,
        (Scan.ofChars (1 + breaks) source.toList).line⟩ := hfirst
    _ = _ := by
      rw [hlower]
      rfl

end Treewalk
