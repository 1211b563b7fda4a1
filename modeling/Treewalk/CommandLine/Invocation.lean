set_option autoImplicit false
set_option relaxedAutoImplicit false

/-!
The meaning of command-line arguments. They are taken from left to right, and the first one that is
wrong or asks for help or the version decides.
-/

namespace Treewalk.CommandLine

/-- The forms in which a source can be shown instead of being run. -/
inductive Listing where
  | tokens
  | tree
  | rpn
  deriving DecidableEq, Repr

/-- What to do with a source. -/
inductive Emit where
  | run
  | listing (l : Listing)
  deriving DecidableEq, Repr

/-- The word for what to do with a source. -/
def Emit.ofWord? : String → Option Emit
  | "run" => some .run
  | "tokens" => some (.listing .tokens)
  | "ast" => some (.listing .tree)
  | "rpn" => some (.listing .rpn)
  | _ => none

/-- What the arguments ask for. -/
inductive Invocation where
  | usage
  | help
  | version
  | script (path : String) (emit : Emit)
  | prompt (emit : Emit)
  deriving DecidableEq, Repr

/-- One argument by itself. `emit` may have its value attached. -/
inductive Argument where
  | positional (text : String)
  | endOfOptions
  | emit (attached : Option String)
  | help
  | version
  | unknown
  deriving DecidableEq, Repr

/-- A long option, behind its two dashes; a value is attached by an equals sign. -/
def Argument.long (text : List Char) : Argument :=
  let word := String.ofList (text.takeWhile (· != '='))
  match word, text.dropWhile (· != '=') with
  | "emit", [] => .emit none
  | "emit", _ :: value => .emit (some (String.ofList value))
  | "help", [] => .help
  | "version", [] => .version
  | _, _ => .unknown

/-- The kind of an argument. Of short options written together the first one decides. A single dash
is no option. -/
def Argument.ofText (text : String) : Argument :=
  match text.toList with
  | ['-', '-'] => .endOfOptions
  | '-' :: '-' :: word => .long word
  | ['-'] => .positional text
  | '-' :: 'h' :: _ => .help
  | '-' :: 'V' :: _ => .version
  | ['-', 'e'] => .emit none
  | '-' :: 'e' :: '=' :: value => .emit (some (String.ofList value))
  | '-' :: 'e' :: value => .emit (some (String.ofList value))
  | '-' :: _ => .unknown
  | _ => .positional text

/-- What has been asked for so far. -/
structure Options where
  emit : Option Emit
  script : Option String

namespace Options

/-- What is asked for when no argument is left. -/
def invocation (o : Options) : Invocation :=
  match o.script with
  | some path => .script path (o.emit.getD .run)
  | none => .prompt (o.emit.getD .run)

/-- Takes the path of the script; there may be only one, and it may not be empty. -/
def withScript? (o : Options) (path : String) : Option Options :=
  if path.isEmpty ∨ o.script.isSome then none else some { o with script := some path }

/-- Takes the word for what to do; there may be only one. -/
def withEmit? (o : Options) (word : String) : Option Options :=
  match o.emit, Emit.ofWord? word with
  | none, some emit => some { o with emit := some emit }
  | _, _ => none

/-- Reads arguments none of which is an option. -/
def readPositionals (o : Options) : List String → Invocation
  | [] => o.invocation
  | path :: rest =>
    match o.withScript? path with
    | some o => o.readPositionals rest
    | none => .usage

/-- Reads arguments. -/
def read (o : Options) : List String → Invocation
  | [] => o.invocation
  | argument :: rest =>
    match Argument.ofText argument with
    | .endOfOptions => o.readPositionals rest
    | .help => .help
    | .version => .version
    | .unknown => .usage
    | .positional path =>
      match o.withScript? path with
      | some o => o.read rest
      | none => .usage
    | .emit (some word) =>
      match o.withEmit? word with
      | some o => o.read rest
      | none => .usage
    | .emit none =>
      match rest with
      | [] => .usage
      | word :: rest =>
        match o.withEmit? word with
        | some o => o.read rest
        | none => .usage

end Options

/-- What the arguments ask for. -/
def Invocation.ofArguments (arguments : List String) : Invocation :=
  Options.read ⟨none, none⟩ arguments

end Treewalk.CommandLine
