import DocTypes.Command.Report

set_option autoImplicit false

/-!
# Invocations

What the program prints for its arguments, and the code with which it exits: 1 for a value that was
rejected, 2 for a command that could not be carried out.
-/

namespace DocTypes.Command

structure Outcome where
  exit : UInt8 := 0
  stdout : Text := []
  stderr : Text := []

def usage : Text :=
  ("Annoc - runtime type annotation checker\n" ++
  "\n" ++
  "Usage: annoc <command> [args] [options]\n" ++
  "\n" ++
  "Commands:\n" ++
  "  parse <expr>           Show how an expression compiles\n" ++
  "  check <expr> <json>    Check a JSON value against an expression\n" ++
  "  help                   Show this message\n" ++
  "  version                Show version\n" ++
  "\n" ++
  "Options:\n" ++
  "  --none-valid           Accept null for every type\n" ++
  "  --verbosity=<n>        Diagnostic detail: 0, 1, 2\n" ++
  "  --json                 Print the outcome as JSON\n" ++
  "\n" ++
  "Set RUST_LOG (e.g. RUST_LOG=annoc=debug) to enable tracing.\n").toList

def version : Text := "annoc 0.1.0\n".toList

def parseUsage : Text := "Usage: annoc parse <expr>\n".toList

def checkUsage : Text :=
  "Usage: annoc check <expr> <json> [--none-valid] [--verbosity=N] [--json]\n".toList

namespace Outcome

def failed (failure : Failure) : Outcome where
  exit := 2
  stderr := "error: ".toList ++ failure.message ++ ['\n']

def misused (usage : Text) : Outcome := { exit := 2, stderr := usage }

def ofDescription : Except Failure Text → Outcome
  | .ok text => { stdout := text }
  | .error failure => failed failure

def ofVerdict (options : Options) : Except Failure Verdict → Outcome
  | .ok verdict =>
    { exit := if verdict.isNone then 0 else 1, stdout := render options verdict ++ ['\n'] }
  | .error failure => failed failure

end Outcome

inductive Name where
  | parse | check | help | version

def names : List (Text × Name) :=
  [("parse".toList, .parse), ("check".toList, .check),
    ("help".toList, .help), ("--help".toList, .help), ("-h".toList, .help),
    ("version".toList, .version), ("--version".toList, .version), ("-V".toList, .version)]

def name? (text : Text) : Option Name := (names.find? fun entry => entry.1 = text).map Prod.snd

def carryOut (options : Options) (positional : List Text) : Name → Outcome
  | .parse =>
    match positional with
    | [text] => .ofDescription (describe options.policy text)
    | _ => .misused parseUsage
  | .check =>
    match positional with
    | [text, document] => .ofVerdict options (judge options.policy text document)
    | _ => .misused checkUsage
  | .help => { stdout := usage }
  | .version => { stdout := version }

/-- Options count before the command, wherever they stand behind it. -/
def run : List Text → Outcome
  | [] => { stdout := usage }
  | command :: arguments =>
    match Options.read arguments with
    | .error argument => .failed (.badOption argument)
    | .ok (options, positional) =>
      match name? command with
      | some name => carryOut options positional name
      | none =>
        { exit := 2
          stdout := usage
          stderr := "Unknown command: ".toList ++ command ++ ['\n'] }

end DocTypes.Command
