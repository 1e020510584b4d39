import Admission.Descriptor
import Admission.Rule

/-!
# Rule sets

A rule set is the configured form of a rule list: rules for descriptors, written down with the
conditions under which they apply, the entries that split operations into groups, and rates in
units of time.  `RuleSet.compile` checks the names and the windows and makes rules of it.
-/

namespace Admission

/-- A condition on one entry of a descriptor: it must be there, and its first value must be the
given one and start as given, where that is said. -/
structure MatchSpec where
  key : String
  value : Option String
  startsWith : Option String
deriving DecidableEq, Repr

/-- A rate of so many requests in `units` units of time. -/
structure RateSpec where
  requests : Count
  unit : TimeUnit
  units : Count
deriving DecidableEq, Repr

/-- A grouping by the values of some entries; without any, all operations are one group. -/
structure GroupingSpec where
  name : String
  groupBy : List String
  rates : List RateSpec
deriving DecidableEq, Repr

/-- A rule for the descriptors that meet all its conditions. -/
structure RuleSpec where
  name : String
  conditions : List MatchSpec
  groupings : List GroupingSpec
deriving DecidableEq, Repr

/-- Rules in order of evaluation, for one domain or for all. -/
structure RuleSet where
  domain : Option String
  rules : List RuleSpec
deriving DecidableEq, Repr

/-- What keeps a rule set from being compiled. -/
inductive RuleSetFault where
  | duplicateRule (rule : String)
  | duplicateGrouping (grouping rule : String)
  /-- The rate at a place of a grouping has a window of no units. -/
  | zeroUnits (rule grouping : String) (index : Nat)
deriving DecidableEq, Repr

/-- The message about a rule set that cannot be compiled. -/
def RuleSetFault.message : RuleSetFault → String
  | duplicateRule rule => "duplicate rule name '" ++ rule ++ "'"
  | duplicateGrouping grouping rule =>
    "duplicate grouping name '" ++ grouping ++ "' in rule '" ++ rule ++ "'"
  | zeroUnits rule grouping index =>
    "rule '" ++ rule ++ "', grouping '" ++ grouping ++ "', rate #" ++ toString index ++
      ": Configuration error: rate units must be at least 1"

def MatchSpec.holds (m : MatchSpec) (d : Descriptor) : Bool :=
  match d.get? m.key with
  | none => false
  | some actual =>
    m.value.all (fun value => actual = value) &&
      m.startsWith.all fun start => start.toList.isPrefixOf actual.toList

/-- The values of the given entries, joined with bars.  A missing entry counts as empty, and bars
and backslashes in values are escaped, so that different values make different groups. -/
def groupText (keys : List String) (d : Descriptor) : List Char :=
  ['|'].intercalate (keys.map fun key => escape ['|', '\\'] ((d.get? key).getD "").toList)

def GroupingSpec.groupOf (g : GroupingSpec) (d : Descriptor) : GroupKey :=
  if g.groupBy.isEmpty then .whole else .value (String.ofList (groupText g.groupBy d))

/-- The rate of a configured rate, unless its window is empty. -/
def RateSpec.compile? (r : RateSpec) : Option BurstRate := BurstRate.per? r.requests r.units r.unit

def compileRates (rule grouping : String) :
    Nat → List RateSpec → Except RuleSetFault (List BurstRate)
  | _, [] => .ok []
  | index, rate :: rest =>
    match rate.compile? with
    | none => .error (.zeroUnits rule grouping index)
    | some compiled => do return compiled :: (← compileRates rule grouping (index + 1) rest)

/-- The groupings of a rule, whose names must differ from each other and from those seen. -/
def compileGroupings (rule : String) :
    List String → List GroupingSpec → Except RuleSetFault (List (Grouping Descriptor))
  | _, [] => .ok []
  | seen, g :: rest =>
    if g.name ∈ seen then .error (.duplicateGrouping g.name rule)
    else do
      let rates ← compileRates rule g.name 0 g.rates
      return ⟨g.name, g.groupOf, rates⟩ :: (← compileGroupings rule (g.name :: seen) rest)

/-- Whether a rule of a rule set applies to a descriptor. -/
def RuleSpec.appliesTo (domain : Option String) (r : RuleSpec) (d : Descriptor) : Bool :=
  domain.all (fun domain => domain = d.domain) && r.conditions.all fun m => m.holds d

/-- The rules of a rule set, whose names must differ from each other and from those seen. -/
def compileRules (domain : Option String) :
    List String → List RuleSpec → Except RuleSetFault (List (Rule Descriptor))
  | _, [] => .ok []
  | seen, r :: rest =>
    if r.name ∈ seen then .error (.duplicateRule r.name)
    else do
      let groupings ← compileGroupings r.name [] r.groupings
      return ⟨r.name, r.appliesTo domain, groupings⟩ ::
        (← compileRules domain (r.name :: seen) rest)

def RuleSet.compile (s : RuleSet) : Except RuleSetFault (List (Rule Descriptor)) :=
  compileRules s.domain [] s.rules

end Admission
