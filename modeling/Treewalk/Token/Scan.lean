import Treewalk.Diagnostic

set_option autoImplicit false
set_option relaxedAutoImplicit false

/-!
From source text to tokens.

At each position one step either skips layout, reads the longest token that starts there, or reports
an error. `Scan.ofSource` repeats the step until no character is left.
-/

namespace Treewalk

/-- Why some characters are no token. -/
inductive LexicalError where
  | unexpectedCharacter (character : Char) (line : Nat)
  | unterminatedString (line : Nat)
  deriving DecidableEq, Repr

namespace LexicalError

/-- The wording of the error. -/
def message : LexicalError → String
  | .unexpectedCharacter _ _ => "Unexpected character."
  | .unterminatedString _ => "Unterminated string."

/-- The line on which the error was noticed. -/
def line : LexicalError → Nat
  | .unexpectedCharacter _ line => line
  | .unterminatedString line => line

/-- The report of the error, which names a line and no place. -/
def diagnostic (e : LexicalError) : Diagnostic :=
  .onLine e.line e.message

end LexicalError

/-- What a scan finds at one position of the source. -/
inductive ScanItem where
  | token (t : Token)
  | error (e : LexicalError)
  deriving DecidableEq

namespace ScanItem

/-- The token, if the item is one. -/
def token? : ScanItem → Option Token
  | .token t => some t
  | .error _ => none

/-- The error, if the item is one. -/
def error? : ScanItem → Option LexicalError
  | .token _ => none
  | .error e => some e

end ScanItem

/-- The items of a source in order, and the line on which it ends. -/
structure Scan where
  items : List ScanItem
  line : Nat

namespace Scan

/-- A letter or underscore: what a word begins with. Other alphabets have no part in words. -/
def isLetter (c : Char) : Bool :=
  c.isAlpha || c == '_'

/-- What a word goes on with. -/
def isWordPart (c : Char) : Bool :=
  isLetter c || c.isDigit

/-- The kind of a character that is a token by itself whatever follows it. -/
def punctuation? : Char → Option Kind
  | '(' => some .leftParen
  | ')' => some .rightParen
  | '{' => some .leftBrace
  | '}' => some .rightBrace
  | ',' => some .comma
  | '.' => some .dot
  | '-' => some .minus
  | '+' => some .plus
  | ';' => some .semicolon
  | '*' => some .star
  | '?' => some .question
  | ':' => some .colon
  | _ => none

/-- The kinds of a character that may be followed by `=`: alone, and together with it. -/
def equalPair? : Char → Option (Kind × Kind)
  | '!' => some (.bang, .bangEqual)
  | '=' => some (.equal, .equalEqual)
  | '<' => some (.less, .lessEqual)
  | '>' => some (.greater, .greaterEqual)
  | _ => none

/-- The inside of a string: the characters up to and with the closing quote, the text that they
denote, and what follows. -/
structure StringBody where
  raw : List Char
  value : List Char
  rest : List Char

/-- The body with more characters in front of it, and the text that they denote. -/
def StringBody.after (raw value : List Char) (b : StringBody) : StringBody :=
  ⟨raw ++ b.raw, value ++ b.value, b.rest⟩

/-- Reads a string behind its opening quote. A backslash before a quote or a backslash denotes that
character; any other backslash stands for itself. -/
def stringBody? : List Char → Option StringBody
  | [] => none
  | '"' :: rest => some ⟨['"'], [], rest⟩
  | '\\' :: '"' :: rest => (stringBody? rest).map (.after ['\\', '"'] ['"'])
  | '\\' :: '\\' :: rest => (stringBody? rest).map (.after ['\\', '\\'] ['\\'])
  | c :: rest => (stringBody? rest).map (.after [c] [c])

/-- Splits a number into its digits before the point, those behind it, and what follows. A point
belongs to the number only if a digit follows the point. -/
def numeral (cs : List Char) : List Char × List Char × List Char :=
  let whole := cs.takeWhile Char.isDigit
  match cs.dropWhile Char.isDigit with
  | '.' :: d :: rest =>
    if d.isDigit then (whole, d :: rest.takeWhile Char.isDigit, rest.dropWhile Char.isDigit)
    else (whole, [], '.' :: d :: rest)
  | rest => (whole, [], rest)

/-- The spelling of a number with the given digits before and behind the point. -/
def numeralLexeme (whole fraction : List Char) : List Char :=
  if fraction.isEmpty then whole else whole ++ '.' :: fraction

/-- How often a line ends in these characters. -/
def lineBreaks (cs : List Char) : Nat :=
  cs.count '\n'

/-- What one step finds, the line that it ends on, and the characters that it leaves. Layout is no
item. -/
structure Step where
  item : Option ScanItem
  line : Nat
  rest : List Char

/-- A step over layout. -/
def Step.skip (line : Nat) (rest : List Char) : Step :=
  ⟨none, line, rest⟩

/-- A step over a token that has no literal value. -/
def Step.plain (kind : Kind) (lexeme : List Char) (line : Nat) (rest : List Char) : Step :=
  ⟨some (.token ⟨kind, String.ofList lexeme, none, line⟩), line, rest⟩

/-- A slash, or a comment, which reaches up to the end of its line. -/
def slashStep (line : Nat) : List Char → Step
  | '/' :: rest => .skip line (rest.dropWhile (· != '\n'))
  | rest => .plain .slash ['/'] line rest

/-- A string behind its opening quote. Its token stands on the line of the closing quote; without
one, the error stands on the last line. -/
def stringStep (line : Nat) (cs : List Char) : Step :=
  match stringBody? cs with
  | some b =>
    let last := line + lineBreaks b.raw
    let lexeme := String.ofList ('"' :: b.raw)
    ⟨some (.token ⟨.string, lexeme, some (.string (String.ofList b.value)), last⟩), last, b.rest⟩
  | none =>
    let last := line + lineBreaks cs
    ⟨some (.error (.unterminatedString last)), last, []⟩

/-- A number. -/
def numberStep (line : Nat) (cs : List Char) : Step :=
  let (whole, fraction, rest) := numeral cs
  let lexeme := String.ofList (numeralLexeme whole fraction)
  let value := Value.number (Number.ofDigits whole fraction)
  ⟨some (.token ⟨.number, lexeme, some value, line⟩), line, rest⟩

/-- A word: a keyword where it is spelled like one, else an identifier. -/
def wordStep (line : Nat) (cs : List Char) : Step :=
  let word := cs.takeWhile isWordPart
  .plain ((Kind.keyword? (String.ofList word)).getD .identifier) word line (cs.dropWhile isWordPart)

/-- An operator that may take a following `=`. -/
def equalStep (alone paired : Kind) (line : Nat) (c : Char) : List Char → Step
  | '=' :: rest => .plain paired [c, '='] line rest
  | rest => .plain alone [c] line rest

/-- The step at a character that has `rest` behind it. -/
def step (line : Nat) (c : Char) (rest : List Char) : Step :=
  if c = ' ' ∨ c = '\r' ∨ c = '\t' then .skip line rest
  else if c = '\n' then .skip (line + 1) rest
  else if c = '/' then slashStep line rest
  else if c = '"' then stringStep line rest
  else if c.isDigit then numberStep line (c :: rest)
  else if isLetter c then wordStep line (c :: rest)
  else
    match punctuation? c, equalPair? c with
    | some kind, _ => .plain kind [c] line rest
    | none, some (alone, paired) => equalStep alone paired line c rest
    | none, none => ⟨some (.error (.unexpectedCharacter c line)), line, rest⟩

/-- At most `steps` steps from the given line on. -/
def steps : Nat → Nat → List Char → Scan
  | 0, line, _ => ⟨[], line⟩
  | _ + 1, line, [] => ⟨[], line⟩
  | n + 1, line, c :: rest =>
    let here := step line c rest
    let later := steps n here.line here.rest
    ⟨here.item.toList ++ later.items, later.line⟩

/-- Scans a source from line 1. Each step takes a character, so their number bounds the steps. -/
def ofSource (source : String) : Scan :=
  steps source.toList.length 1 source.toList

/-- The tokens of a source, ending with the end-of-input token. -/
def tokens (s : Scan) : List Token :=
  s.items.filterMap ScanItem.token? ++ [.eof s.line]

/-- The reports of the lexical errors, in order. -/
def diagnostics (s : Scan) : List Diagnostic :=
  (s.items.filterMap ScanItem.error?).map LexicalError.diagnostic

end Scan

end Treewalk
