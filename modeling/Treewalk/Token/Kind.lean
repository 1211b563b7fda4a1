set_option autoImplicit false
set_option relaxedAutoImplicit false

/-!
The kinds of tokens: punctuation, operators, literals, keywords and the end of the input.
-/

namespace Treewalk

/-- The kind of a token. -/
inductive Kind where
  | leftParen
  | rightParen
  | leftBrace
  | rightBrace
  | comma
  | dot
  | minus
  | plus
  | semicolon
  | slash
  | star
  | question
  | colon
  | bang
  | bangEqual
  | equal
  | equalEqual
  | greater
  | greaterEqual
  | less
  | lessEqual
  | identifier
  | string
  | number
  | andWord
  | classWord
  | elseWord
  | falseWord
  | funWord
  | forWord
  | ifWord
  | nilWord
  | orWord
  | printWord
  | returnWord
  | superWord
  | thisWord
  | trueWord
  | varWord
  | whileWord
  | breakWord
  | continueWord
  | switchWord
  | caseWord
  | defaultWord
  | exitWord
  | eof
  deriving DecidableEq, Repr

namespace Kind

/-- The upper-case name under which token listings show a kind. -/
def name : Kind → String
  | .leftParen => "LEFT_PAREN"
  | .rightParen => "RIGHT_PAREN"
  | .leftBrace => "LEFT_BRACE"
  | .rightBrace => "RIGHT_BRACE"
  | .comma => "COMMA"
  | .dot => "DOT"
  | .minus => "MINUS"
  | .plus => "PLUS"
  | .semicolon => "SEMICOLON"
  | .slash => "SLASH"
  | .star => "STAR"
  | .question => "QUESTION"
  | .colon => "COLON"
  | .bang => "BANG"
  | .bangEqual => "BANG_EQUAL"
  | .equal => "EQUAL"
  | .equalEqual => "EQUAL_EQUAL"
  | .greater => "GREATER"
  | .greaterEqual => "GREATER_EQUAL"
  | .less => "LESS"
  | .lessEqual => "LESS_EQUAL"
  | .identifier => "IDENTIFIER"
  | .string => "STRING"
  | .number => "NUMBER"
  | .andWord => "AND"
  | .classWord => "CLASS"
  | .elseWord => "ELSE"
  | .falseWord => "FALSE"
  | .funWord => "FUN"
  | .forWord => "FOR"
  | .ifWord => "IF"
  | .nilWord => "NIL"
  | .orWord => "OR"
  | .printWord => "PRINT"
  | .returnWord => "RETURN"
  | .superWord => "SUPER"
  | .thisWord => "THIS"
  | .trueWord => "TRUE"
  | .varWord => "VAR"
  | .whileWord => "WHILE"
  | .breakWord => "BREAK"
  | .continueWord => "CONTINUE"
  | .switchWord => "SWITCH"
  | .caseWord => "CASE"
  | .defaultWord => "DEFAULT"
  | .exitWord => "EXIT"
  | .eof => "EOF"

/-- The spelling of a kind, or a description of it where spellings vary. -/
def text : Kind → String
  | .leftParen => "("
  | .rightParen => ")"
  | .leftBrace => "\x7b"
  | .rightBrace => "\x7d"
  | .comma => ","
  | .dot => "."
  | .minus => "-"
  | .plus => "+"
  | .semicolon => ";"
  | .slash => "/"
  | .star => "*"
  | .question => "?"
  | .colon => ":"
  | .bang => "!"
  | .bangEqual => "!="
  | .equal => "="
  | .equalEqual => "=="
  | .greater => ">"
  | .greaterEqual => ">="
  | .less => "<"
  | .lessEqual => "<="
  | .identifier => "identifier"
  | .string => "string"
  | .number => "number"
  | .andWord => "and"
  | .classWord => "class"
  | .elseWord => "else"
  | .falseWord => "false"
  | .funWord => "fun"
  | .forWord => "for"
  | .ifWord => "if"
  | .nilWord => "nil"
  | .orWord => "or"
  | .printWord => "print"
  | .returnWord => "return"
  | .superWord => "super"
  | .thisWord => "this"
  | .trueWord => "true"
  | .varWord => "var"
  | .whileWord => "while"
  | .breakWord => "break"
  | .continueWord => "continue"
  | .switchWord => "switch"
  | .caseWord => "case"
  | .defaultWord => "default"
  | .exitWord => "exit"
  | .eof => "end of input"

/-- A kind as messages name it, between single quotes. -/
def quoted (k : Kind) : String :=
  "'" ++ k.text ++ "'"

/-- The kinds that are spelled like identifiers. -/
def keywords : List Kind :=
  [.andWord, .classWord, .elseWord, .falseWord, .funWord, .forWord, .ifWord, .nilWord, .orWord,
    .printWord, .returnWord, .superWord, .thisWord, .trueWord, .varWord, .whileWord, .breakWord,
    .continueWord, .switchWord, .caseWord, .defaultWord, .exitWord]

/-- Every kind. -/
def all : List Kind :=
  [.leftParen, .rightParen, .leftBrace, .rightBrace, .comma, .dot, .minus, .plus, .semicolon,
    .slash, .star, .question, .colon, .bang, .bangEqual, .equal, .equalEqual, .greater,
    .greaterEqual, .less, .lessEqual, .identifier, .string, .number] ++ keywords ++ [.eof]

/-- The keyword with the given spelling. -/
def keyword? (word : String) : Option Kind :=
  keywords.find? (·.text == word)

/-- The kind with the given listing name. -/
def ofName? (name : String) : Option Kind :=
  all.find? (·.name == name)

end Kind

end Treewalk
