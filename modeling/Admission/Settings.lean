import Admission.Bucket.Plan
import Admission.Settings.Value

/-!
# Settings

The settings of the admission service, all of which have defaults.  They come from a YAML file and
from variables whose names start with `Settings.mark`; two underscores in such a name lead into a
table, and a variable replaces what the file says.
-/

namespace Admission

/-- Settings of the token buckets in front of the rules. -/
structure BucketSettings where
  capacity : Count
  refillRate : Float
  /-- Seconds after which an idle bucket may be dropped. -/
  idleSeconds : Nat

/-- The plan that the settings of the buckets describe. -/
def BucketSettings.plan (s : BucketSettings) : Except Fault (BucketPlan Float) :=
  BucketPlan.make s.capacity s.refillRate (some (.seconds s.idleSeconds))

/-- The settings of the service. -/
structure Settings where
  /-- The path of the rules. -/
  rulesPath : Option String
  /-- Seconds between two looks at the rules. -/
  reloadSeconds : Nat
  /-- Seconds between two sweeps. -/
  sweepSeconds : Nat
  policy : WindowPolicy
  bucket : Option BucketSettings

namespace Settings

def default : Settings := ⟨none, 10, 60, .sliding, none⟩

def isDefault (s : Settings) : Bool :=
  s.rulesPath = default.rulesPath && s.reloadSeconds = default.reloadSeconds &&
    s.sweepSeconds = default.sweepSeconds && s.policy = default.policy && s.bucket.isNone

/-- The time between two looks at the rules, a second at least. -/
def reloadInterval (s : Settings) : Span := .seconds (max s.reloadSeconds 1)

/-- The time between two sweeps, a second at least. -/
def sweepInterval (s : Settings) : Span := .seconds (max s.sweepSeconds 1)

/-! ## Reading -/

def seconds? (s : Setting) : Option Nat := s.natBelow? Span.secondsBound

/-- The path of the rules and the seconds between two looks at them. -/
def ofRules? (s : Setting) : Option (Option String × Nat) := do
  match ← s.fields? ["path", "reload_interval_secs"] with
  | [path, reload] =>
    let path ← Setting.optional? Setting.text? path
    let reload ← Setting.withDefault? seconds? default.reloadSeconds reload
    some (path, reload)
  | _ => none

def ofCleanup? (s : Setting) : Option Nat := do
  match ← s.fields? ["interval_secs"] with
  | [interval] => Setting.withDefault? seconds? default.sweepSeconds interval
  | _ => none

def ofPolicy? (s : Setting) : Option WindowPolicy := do
  WindowPolicy.ofName? (lowerAscii (← s.choice?))

def ofBucket? (s : Setting) : Option BucketSettings := do
  match ← s.fields? ["capacity", "refill_rate", "cleanup_idle_after_secs"] with
  | [some capacity, some rate, idle] =>
    let capacity ← capacity.natBelow? Count.bound
    let rate ← rate.float?
    let idle ← Setting.withDefault? seconds? 300 idle
    some ⟨.ofNat capacity, rate, idle⟩
  | _ => none

def ofTable? (s : Setting) : Option Settings := do
  match ← s.fields? ["rules", "cleanup", "window_policy", "token_bucket"] with
  | [rules, cleanup, policy, bucket] =>
    let (path, reload) ← Setting.withDefault? ofRules? (none, default.reloadSeconds) rules
    let sweep ← Setting.withDefault? ofCleanup? default.sweepSeconds cleanup
    let policy ← Setting.withDefault? ofPolicy? default.policy policy
    let bucket ← Setting.optional? ofBucket? bucket
    some ⟨path, reload, sweep, policy, bucket⟩
  | _ => none

/-! ## Sources -/

/-- What the names of variables with settings start with, in any case. -/
def mark : String := "turnstile__"

/-- A text with a point for every pair of underscores, from left to right. -/
def pointed : List Char → List Char
  | '_' :: '_' :: rest => '.' :: pointed rest
  | c :: rest => c :: pointed rest
  | [] => []

/-- The name of a setting in the name of a variable, if it has the mark. -/
def settingName? (name : String) : Option String :=
  let name := (lowerAscii name).toList
  if mark.toList.isPrefixOf name then
    some (String.ofList (pointed (name.drop mark.length)))
  else none

def ofVariables (environment : List (String × String)) : List (String × Setting) :=
  environment.filterMap fun entry =>
    (settingName? entry.1).map fun name => (name, .ofVariable entry.2)

/-- The tree of settings that were put in one after another. -/
def join (entries : List (String × Setting)) : Setting :=
  entries.foldl (fun tree entry => tree.putAt entry.2 (Setting.path entry.1)) (.table [])

def withoutByteOrder (content : String) : String :=
  match content.toList with
  | '\ufeff' :: rest => String.ofList rest
  | _ => content

/-- The settings in a file, if a file is used, and in variables. -/
def load? (file : Option String) (environment : List (String × String)) : Option Settings := do
  let inFile ← match file with
    | none => some []
    | some content => Setting.ofYaml? (withoutByteOrder content)
  ofTable? (join (inFile ++ ofVariables environment))

/-- The paths at which the settings of a path are looked for, in order. -/
def candidates (path : String) : List String := [path, path ++ ".yaml", path ++ ".yml"]

end Settings

end Admission
