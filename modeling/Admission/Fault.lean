import Admission.Decimal.Shortest
import Admission.RuleSet
import Admission.Permits
import Admission.Window

/-!
# Faults

Everything that a caller can be told has gone wrong, by cause.  `Fault.kind` sorts the causes and
`Fault.message` words them.
-/

namespace Admission

/-- An argument that cannot be used. -/
inductive BadArgument where
  /-- A burst rate whose window has no length. -/
  | emptyWindow
  /-- A token bucket that can hold nothing. -/
  | noCapacity
  /-- A token bucket that does not refill at a positive, finite rate. -/
  | refillRate (rate : Float)
  /-- A wait for more tokens than a bucket can hold. -/
  | beyondCapacity (wanted capacity : Count)
  /-- A grant history that was taken under another policy than the limiter has. -/
  | historyPolicy (taken used : WindowPolicy)

def BadArgument.message : BadArgument → String
  | emptyWindow => "burst rate window must be longer than zero"
  | noCapacity => "token bucket capacity must be greater than zero"
  | refillRate rate =>
    "token bucket refill rate must be positive and finite, got " ++ floatText rate
  | beyondCapacity wanted capacity =>
    "cannot wait for " ++ toString wanted.toNat ++ " permits from a bucket of capacity " ++
      toString capacity.toNat
  | historyPolicy taken used =>
    "grant history uses " ++ taken.title ++ " windows, limiter uses " ++ used.title

/-- A text or a file that cannot be used as configuration. -/
inductive BadConfiguration where
  | descriptor (cause : Malformed)
  | ruleSet (cause : RuleSetFault)
  /-- The text of a rule set is no rule set. -/
  | unreadableRules
  /-- The settings cannot be loaded. -/
  | settings
deriving DecidableEq, Repr

def BadConfiguration.message : BadConfiguration → String
  | descriptor cause => cause.message
  | ruleSet cause => cause.message
  | unreadableRules => "Failed to parse rate limit rules"
  | settings => "Failed to load settings"

/-- A file that cannot be read as text. -/
inductive BadFile where
  | missing
  | notText
deriving DecidableEq, Repr

def BadFile.message : BadFile → String
  | missing => "No such file or directory (os error 2)"
  | notText => "stream did not contain valid UTF-8"

/-- What went wrong. -/
inductive Fault where
  | argument (cause : BadArgument)
  | configuration (cause : BadConfiguration)
  | file (cause : BadFile)
  | denied (denial : Denial)

/-- The sorts of faults. -/
inductive FaultKind where
  | invalidArgument
  | configuration
  | io
  | rateLimitExceeded
deriving DecidableEq, Repr

namespace Fault

def kind : Fault → FaultKind
  | argument _ => .invalidArgument
  | configuration _ => .configuration
  | file _ => .io
  | denied _ => .rateLimitExceeded

def message : Fault → String
  | argument cause => "Invalid argument: " ++ cause.message
  | configuration cause => "Configuration error: " ++ cause.message
  | file cause => "I/O error: " ++ cause.message
  | denied denial => denial.message

end Fault

end Admission
