import Admission.Command.Arguments
import Admission.Gate.Decision
import Admission.RuleFile
import Admission.Settings

/-!
# Sessions

A session is a gate in use: it decides about lines, its stores are swept, and its rule file is
looked at.  `Session.start` loads what it needs; it reads files through a function, so that it can
be run on real files as well as on files that are only described.  `Session.proceed` is one step of
the command, from what happens next to the line that is printed, and `Session.takeSteps` takes one
after another, wherever the lines are printed to.

What arguments, settings, rule sets and decisions look like is up to `Formats`, and nothing here
depends on which.
-/

namespace Admission

/-- How arguments, settings and rule sets are read and decisions are written. -/
class Formats extends RuleReader where
  arguments : List String → Except Refusal Arguments
  /-- The paths at which the settings of a path are looked for, in order. -/
  settingsPaths : String → List String
  /-- The settings in the text of a file, if a file is used, and in variables. -/
  settings? : Option String → List (String × String) → Option Settings
  decision : Decision → String

def Settings.load [Formats] (file : Option String) (environment : List (String × String)) :
    Except Fault Settings :=
  match Formats.settings? file environment with
  | some settings => .ok settings
  | none => .error (.configuration .settings)

/-- Why a session cannot start. -/
inductive StartFault where
  | fault (cause : Fault)
  /-- Neither the arguments nor the settings say where the rules are. -/
  | noRules

def StartFault.message : StartFault → String
  | fault cause => cause.message
  | noRules => "no rules file given (use --rules or rules.path)"

/-- What happens to a session in use.  Lines are made of `ι`: of bytes as they come in, or of
text. -/
inductive Occurrence (ι : Type) where
  | line (content : ι) (readings : Readings)
  | sweepBuckets (now : Instant)
  | sweepRules (now : Instant)
  /-- A look at the rule file. -/
  | look (content : FileContent) (now : Instant)

namespace Occurrence

variable {ι κ : Type}

def map (f : ι → κ) : Occurrence ι → Occurrence κ
  | line content readings => line (f content) readings
  | sweepBuckets now => sweepBuckets now
  | sweepRules now => sweepRules now
  | look content now => look content now

def line? : Occurrence ι → Option ι
  | line content _ => some content
  | _ => none

/-- The occurrence with the text of its line, if the line is a text. -/
def text? : Occurrence (List UInt8) → Option (Occurrence String)
  | line bytes readings => (lineText bytes).map fun text => line text readings
  | sweepBuckets now => some (sweepBuckets now)
  | sweepRules now => some (sweepRules now)
  | look content now => some (look content now)

end Occurrence

/-- A gate in use, with what is needed to keep its rules up to date. -/
structure Session where
  gate : Gate Float
  settings : Settings
  rulesPath : String
  ruleFile : RuleFile

namespace Session

def firstFile {m : Type → Type} [Monad m] (read : String → m FileContent) :
    List String → m FileContent
  | [] => return none
  | path :: rest => do
    match ← read path with
    | some bytes => return some bytes
    | none => firstFile read rest

/-- Loads the settings from the file of a path, if one is given, and from variables. -/
def loadSettings [Formats] {m : Type → Type} [Monad m] (read : String → m FileContent)
    (environment : List (String × String)) : Option String → m (Except Fault Settings)
  | none => return Settings.load none environment
  | some path => do
    match (← firstFile read (Formats.settingsPaths path)).text with
    | .ok content => return Settings.load (some content) environment
    | .error _ => return .error (.configuration .settings)

/-- The session of settings with rules from a file. -/
def ofFile [RuleReader] (settings : Settings) (rulesPath : String) (content : FileContent) :
    Except Fault Session := do
  let (ruleFile, rules) ← RuleFile.start content
  let plan ← settings.bucket.mapM BucketSettings.plan
  return ⟨⟨plan.map Buckets.empty, .new rules settings.policy⟩, settings, rulesPath, ruleFile⟩

/-- Starts a session; a path of rules among the arguments goes before the one in the settings. -/
def start [Formats] {m : Type → Type} [Monad m] (read : String → m FileContent)
    (environment : List (String × String)) (a : Arguments) : m (Except StartFault Session) := do
  match ← loadSettings read environment a.settingsPath with
  | .error cause => return .error (.fault cause)
  | .ok settings =>
    match a.rulesPath.or settings.rulesPath with
    | none => return .error .noRules
    | some path => return (ofFile settings path (← read path)).mapError .fault

/-- The session after another look at its rule file. -/
def look [RuleReader] (s : Session) (content : FileContent) (now : Instant) : Session :=
  match s.ruleFile.look content with
  | (ruleFile, none) => { s with ruleFile }
  | (ruleFile, some rules) => { s with ruleFile, gate := s.gate.publish rules now }

/-- The session after an occurrence, with the decision if one is due. -/
def meet [RuleReader] (s : Session) : Occurrence String → Session × Option Decision
  | .line text readings =>
    let (gate, decision) := s.gate.decideLine text readings
    ({ s with gate }, decision)
  | .sweepBuckets now => ({ s with gate := s.gate.sweepBuckets now }, none)
  | .sweepRules now => ({ s with gate := s.gate.sweepRules now }, none)
  | .look content now => (s.look content now, none)

/-- One step of the command: the session after an occurrence, with what is printed.  A line that is
no text ends the command instead. -/
def proceed [Formats] (s : Session) (e : Occurrence (List UInt8)) :
    Option (Session × Option String) :=
  e.text?.map fun e =>
    let (after, decision) := s.meet e
    (after, decision.map Formats.decision)

/-- Takes a step for each occurrence and prints what there is to print.  There is no session left
after a line that is no text. -/
def takeSteps [Formats] {m : Type → Type} [Monad m] (print : String → m Unit) :
    Session → List (Occurrence (List UInt8)) → m (Option Session)
  | s, [] => return some s
  | s, e :: rest =>
    match s.proceed e with
    | none => return none
    | some (after, none) => takeSteps print after rest
    | some (after, some line) => do
      print line
      takeSteps print after rest

end Session

end Admission
