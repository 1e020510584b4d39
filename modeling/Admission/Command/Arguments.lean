/-!
# Command-line arguments

The command takes the path of its settings (`-c`, `--config`), the path of its rules (`-r`,
`--rules`) and the flag `--json-logs`, each at most once.  A path follows its option as the next
argument, after an equals sign, or right after the letter of a short option; it is not empty, and as
an argument of its own it does not start with a dash unless it is a lone one.  Arguments are read
from left to right, and the first that cannot be used, or that asks for help or the version, ends
the reading.
-/

namespace Admission

/-- What the command was asked to do. -/
structure Arguments where
  settingsPath : Option String
  rulesPath : Option String
  jsonLogs : Bool
deriving DecidableEq, Repr

/-- Why the command does not start. -/
inductive Refusal where
  | version
  | help
  /-- The arguments cannot be used. -/
  | usage
deriving DecidableEq, Repr

namespace Arguments

def empty : Arguments := ⟨none, none, false⟩

/-- The options that take a path. -/
inductive PathOption where
  | settings
  | rules
deriving DecidableEq, Repr

def longOption? (name : List Char) : Option PathOption :=
  if name = "config".toList then some .settings
  else if name = "rules".toList then some .rules
  else none

def shortOption? (letter : Char) : Option PathOption :=
  if letter = 'c' then some .settings else if letter = 'r' then some .rules else none

/-- Gives an option its path, once and not an empty one. -/
def give (a : Arguments) (option : PathOption) (path : List Char) : Except Refusal Arguments :=
  let value := String.ofList path
  match option with
  | .settings =>
    if path.isEmpty || a.settingsPath.isSome then .error .usage
    else .ok { a with settingsPath := some value }
  | .rules =>
    if path.isEmpty || a.rulesPath.isSome then .error .usage
    else .ok { a with rulesPath := some value }

/-- A long name before its equals sign, and what comes after the sign if there is one. -/
def splitValue (cs : List Char) : List Char × Option (List Char) :=
  match cs.dropWhile (· ≠ '=') with
  | [] => (cs, none)
  | _ :: value => (cs.takeWhile (· ≠ '='), some value)

/-- Whether an argument can be the path of the option before it. -/
def isPath : List Char → Bool
  | ['-'] => true
  | '-' :: _ => false
  | _ => true

/-- Reads the arguments after those that led to `a`. -/
def readFrom (a : Arguments) : List (List Char) → Except Refusal Arguments
  | [] => .ok a
  | ['-', '-'] :: rest => if rest.isEmpty then .ok a else .error .usage
  | ('-' :: '-' :: long) :: rest =>
    match splitValue long, rest with
    | (name, some value), rest =>
      match longOption? name with
      | some option => (a.give option value).bind fun a => readFrom a rest
      | none => .error .usage
    | (name, none), rest =>
      if name = "version".toList then .error .version
      else if name = "help".toList then .error .help
      else if name = "json-logs".toList then
        if a.jsonLogs then .error .usage else readFrom { a with jsonLogs := true } rest
      else
        match longOption? name, rest with
        | some option, path :: rest =>
          if isPath path then (a.give option path).bind fun a => readFrom a rest
          else .error .usage
        | _, _ => .error .usage
  | ['-', letter] :: rest =>
    if letter = 'V' then .error .version
    else if letter = 'h' then .error .help
    else
      match shortOption? letter, rest with
      | some option, path :: rest =>
        if isPath path then (a.give option path).bind fun a => readFrom a rest
        else .error .usage
      | _, _ => .error .usage
  | ('-' :: letter :: value) :: rest =>
    if letter = 'V' then .error .version
    else if letter = 'h' then .error .help
    else
      match shortOption? letter with
      | some option =>
        let path := if value.head? = some '=' then value.drop 1 else value
        (a.give option path).bind fun a => readFrom a rest
      | none => .error .usage
  | _ :: _ => .error .usage

def parse (args : List String) : Except Refusal Arguments :=
  readFrom empty (args.map String.toList)

end Arguments

end Admission
