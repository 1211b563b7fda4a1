import Treewalk.Parse.Stmt

set_option autoImplicit false
set_option relaxedAutoImplicit false

/-!
Reading whole programs, and lines typed at a prompt.
-/

namespace Treewalk

namespace Parser

/-- Reads a program. -/
def program : Parser Program :=
  fun finish tokens => declarations (8 * (tokens.length + 1)) false [.eof] finish tokens

end Parser

/-- A program with the reports about its source; the statements that could be read are there even
if others could not. -/
structure ParsedProgram where
  program : Program
  diagnostics : List Diagnostic

/-- The program that a token sequence spells. -/
def parseProgram (tokens : List Token) : ParsedProgram :=
  let reading := Parser.program.run tokens
  let program :=
    match reading.outcome with
    | .ok statements => statements
    | .error _ => []
  ⟨program, reading.recorded.map SyntaxError.diagnostic⟩

/-- What a line typed at a prompt holds. -/
inductive Entry where
  | program (p : Program)
  | expression (e : Expr)

/-- An entry with the reports about it. -/
structure ParsedEntry where
  entry : Entry
  diagnostics : List Diagnostic

/-- The entry that a token sequence spells: an expression if it is exactly one, without a semicolon
behind it and without errors, and a program otherwise. -/
def parseEntry (tokens : List Token) : ParsedEntry :=
  match Parser.expression.run tokens with
  | ⟨.ok e, [], []⟩ => ⟨.expression e, []⟩
  | _ =>
    let parsed := parseProgram tokens
    ⟨.program parsed.program, parsed.diagnostics⟩

namespace Entry

/-- The written form of an entry. -/
def text : Entry → String
  | .program p => p.text
  | .expression e => e.text

end Entry

end Treewalk
