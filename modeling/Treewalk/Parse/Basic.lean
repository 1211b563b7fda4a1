import Treewalk.Syntax.Error

set_option autoImplicit false
set_option relaxedAutoImplicit false

/-!
Readers of token sequences.

A reader is given the tokens before the end of the input and the end-of-input token, which it can
look at and never consumes. It leaves the tokens that it did not consume, records errors that do not
stop it, and ends with a result or with the error that did stop it.
-/

namespace Treewalk

/-- What reading a part of the input gives. -/
structure Reading (α : Type) where
  outcome : Except SyntaxError α
  pending : List Token
  recorded : List SyntaxError

/-- A reader of tokens, from the end-of-input token and the tokens before it. -/
def Parser (α : Type) : Type :=
  Token → List Token → Reading α

namespace Parser

/-- Reads with `p` and then, unless it was stopped, with what its result asks for. -/
protected def bind {α β : Type} (p : Parser α) (f : α → Parser β) : Parser β :=
  fun finish tokens =>
    match p finish tokens with
    | ⟨.error e, pending, recorded⟩ => ⟨.error e, pending, recorded⟩
    | ⟨.ok a, pending, recorded⟩ =>
      let next := f a finish pending
      ⟨next.outcome, next.pending, recorded ++ next.recorded⟩

/-- Reads nothing. -/
protected def pure {α : Type} (a : α) : Parser α :=
  fun _ tokens => ⟨.ok a, tokens, []⟩

instance : Monad Parser where
  pure := Parser.pure
  bind := Parser.bind

/-- The token that is next, which at the end is the end-of-input token. -/
def current : Parser Token :=
  fun finish tokens => ⟨.ok (tokens.headD finish), tokens, []⟩

/-- The kind of the token that is next. -/
def currentKind : Parser Kind :=
  fun finish tokens => ⟨.ok (tokens.headD finish).kind, tokens, []⟩

/-- Consumes a token, if there is one before the end. -/
def advance : Parser Unit :=
  fun _ tokens => ⟨.ok (), tokens.tail, []⟩

/-- Consumes the next token if it is of one of the kinds. -/
def accept? (kinds : List Kind) : Parser (Option Token) :=
  fun _ tokens =>
    match tokens with
    | [] => ⟨.ok none, [], []⟩
    | t :: rest => if t.kind ∈ kinds then ⟨.ok (some t), rest, []⟩ else ⟨.ok none, t :: rest, []⟩

/-- Stops at the next token, where something else was expected. -/
def unexpected {α : Type} (expected : Expected) : Parser α :=
  fun finish tokens => ⟨.error (.unexpected expected (tokens.headD finish)), tokens, []⟩

/-- Records an error and goes on. -/
def record (e : SyntaxError) : Parser Unit :=
  fun _ tokens => ⟨.ok (), tokens, [e]⟩

/-- Consumes a token of the given kind, or stops. -/
def expect (kind : Kind) (context : String) : Parser Unit := do
  match ← accept? [kind] with
  | some _ => pure ()
  | none => unexpected (.token kind context)

/-- Consumes tokens up to one of the given kinds. -/
def skipUntil (kinds : List Kind) : Parser Unit :=
  fun _ tokens => ⟨.ok (), tokens.dropWhile (·.kind ∉ kinds), []⟩

/-- The keywords at which a statement may begin again after an error. -/
def startsStatement (kind : Kind) : Bool :=
  kind ∈ [.classWord, .funWord, .varWord, .forWord, .ifWord, .whileWord, .printWord, .switchWord,
    .returnWord]

/-- Drops tokens behind `previous` up to a statement boundary: just past a semicolon, or right
before a statement keyword. -/
def dropToBoundary : Token → List Token → List Token
  | _, [] => []
  | previous, t :: rest =>
    if previous.kind = .semicolon ∨ startsStatement t.kind then t :: rest
    else dropToBoundary t rest

/-- What is left after an error: the next token is always dropped, then all up to a boundary. -/
def resume : List Token → List Token
  | [] => []
  | t :: rest => dropToBoundary t rest

/-- Reads with `p`; if it is stopped, records why and goes on at the next statement boundary. -/
def recover {α : Type} (p : Parser α) : Parser (Option α) :=
  fun finish tokens =>
    match p finish tokens with
    | ⟨.ok a, pending, recorded⟩ => ⟨.ok (some a), pending, recorded⟩
    | ⟨.error e, pending, recorded⟩ => ⟨.ok none, resume pending, recorded ++ [e]⟩

/-- The end-of-input token of a token sequence: the first one in it. A sequence that has none ends
on the line of its last token. -/
def finishOf (tokens : List Token) : Token :=
  match tokens.find? (·.kind = .eof) with
  | some t => t
  | none => .eof ((tokens.getLast?.map Token.line).getD 1)

/-- Reads a token sequence up to its first end-of-input token. -/
def run {α : Type} (p : Parser α) (tokens : List Token) : Reading α :=
  p (finishOf tokens) (tokens.takeWhile (·.kind ≠ .eof))

end Parser

end Treewalk
