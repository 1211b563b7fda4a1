import Treewalk.CommandLine.Prompt
import Treewalk.CommandLine.Script

set_option autoImplicit false
set_option relaxedAutoImplicit false

/-!
The whole command: from arguments, files and standard input to an answer.
-/

namespace Treewalk.CommandLine

/-- The answer to a request for the version. -/
def versionText : String :=
  "lox-lang-runner 0.1.0\n"

/-- How the command is used. -/
def usageText : String :=
  "Usage: lox [OPTIONS] [SCRIPT]\n"

/-- The answer to a request for help. -/
def helpText : String :=
  "Interpreter and interactive prompt for a small Lox dialect\n\n" ++ usageText
    ++ "\nArguments:\n"
    ++ "  [SCRIPT]  Script to run. Starts an interactive session when omitted\n"
    ++ "\nOptions:\n"
    ++ "  -e, --emit <EMIT>  What to do with the source: run, tokens, ast or rpn\n"
    ++ "  -h, --help         Print help\n"
    ++ "  -V, --version      Print version\n"

/-- The answer to arguments, given what reading files gives and the standard input. -/
def respond (rounds : Nat) (readFile : String → Except ReadFailure ByteArray) (input : ByteArray)
    (arguments : List String) : Response :=
  match Invocation.ofArguments arguments with
  | .usage => ⟨usageStatus, .empty, "error: invalid arguments\n\n" ++ usageText⟩
  | .help => ⟨0, helpText.toUTF8, ""⟩
  | .version => ⟨0, versionText.toUTF8, ""⟩
  | .script path emit => scriptResponse rounds path emit (readFile path)
  | .prompt emit => promptResponse rounds emit input

end Treewalk.CommandLine
