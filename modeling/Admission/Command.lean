import Admission.Command.Standard

/-!
# The admission command

The command reads descriptions of operations, one a line, and writes a decision for each.
`Command.runOn` says what a run writes and how it ends, whatever happens beside its input.
-/

namespace Admission

namespace Command

def versionLine : String := "turnstile 0.1.0"

def helpLines : List String :=
  ["Admission decisions for descriptors read from standard input, one a line",
    "",
    "Usage: turnstile [OPTIONS]",
    "",
    "Options:",
    "  -c, --config <CONFIG>  Path of the settings",
    "  -r, --rules <RULES>    Path of the rules, before the one in the settings",
    "      --json-logs        Write logs as JSON",
    "  -h, --help             Print help",
    "  -V, --version          Print version"]

/-- What a run writes and the code that it ends with. -/
structure Outcome where
  exit : Nat
  lines : List String
deriving DecidableEq, Repr

def failure : Nat := 1

def refuse : Refusal → Outcome
  | .version => ⟨0, [versionLine]⟩
  | .help => ⟨0, helpLines⟩
  | .usage => ⟨2, []⟩

variable [Formats]

/-- The outcome of a session that takes a step for each occurrence until its input ends, or until a
line is no text. -/
def serve (s : Session) (occurrences : List (Occurrence (List UInt8))) : Outcome :=
  let print (line : String) : StateM (List String) Unit := modify fun lines => lines ++ [line]
  let (after, lines) := (s.takeSteps print occurrences).run []
  ⟨if after.isSome then 0 else failure, lines⟩

/-- The outcome of a run that starts from files as they are and then meets some occurrences. -/
def runOn (read : String → FileContent) (environment : List (String × String))
    (args : List String) (occurrences : List (Occurrence (List UInt8))) : Outcome :=
  match Formats.arguments args with
  | .error refusal => refuse refusal
  | .ok arguments =>
    match Session.start (m := Id) read environment arguments with
    | .error _ => ⟨failure, []⟩
    | .ok session => serve session occurrences

/-- The outcome of a run on its input alone, while the clock stands still. -/
def run (read : String → FileContent) (environment : List (String × String))
    (input : List UInt8) (now : Instant) (args : List String) : Outcome :=
  runOn read environment args ((splitLines input).map fun bytes => .line bytes (.frozen now))

end Command

end Admission
