import Admission.Document
import Admission.RuleSet

/-!
# Rule sets as documents

The document form of a rule set: `RuleSet.toDocument` writes every field, `RuleSet.ofDocument?`
reads what has a default as optional and takes a structure also as the list of its fields.
-/

namespace Admission

def Document.ofText? : Option String → Document
  | none => .null
  | some value => .text value

def Span.toDocument (s : Span) : Document :=
  .record [("secs", .whole s.secs), ("nanos", .whole s.subsec)]

def Document.count? (d : Document) : Option Count := (d.natBelow? Count.bound).map UInt32.ofNat

namespace RateSpec

def toDocument (r : RateSpec) : Document :=
  .record [("requests_per_unit", .whole r.requests.toNat), ("unit", .text r.unit.name),
    ("units", .whole r.units.toNat)]

/-- The rate that a document stands for; one unit is the default window. -/
def ofDocument? (d : Document) : Option RateSpec := do
  match ← d.fields? ["requests_per_unit", "unit", "units"] with
  | [some requests, some unit, units] =>
    let requests ← requests.count?
    let unit ← TimeUnit.ofName? (← unit.choice?)
    let units ← Document.withDefault? Document.count? 1 units
    some ⟨requests, unit, units⟩
  | _ => none

end RateSpec

namespace GroupingSpec

def toDocument (g : GroupingSpec) : Document :=
  .record [("name", .text g.name), ("group_by", .list (g.groupBy.map .text)),
    ("rates", .list (g.rates.map RateSpec.toDocument))]

def ofDocument? (d : Document) : Option GroupingSpec := do
  match ← d.fields? ["name", "group_by", "rates"] with
  | [some name, groupBy, some rates] =>
    let name ← name.text?
    let groupBy ← Document.withDefault? (fun d => do (← d.items?).mapM Document.text?) [] groupBy
    let rates ← (← rates.items?).mapM RateSpec.ofDocument?
    some ⟨name, groupBy, rates⟩
  | _ => none

end GroupingSpec

namespace MatchSpec

def toDocument (m : MatchSpec) : Document :=
  .record [("key", .text m.key), ("value", .ofText? m.value), ("prefix", .ofText? m.startsWith)]

def ofDocument? (d : Document) : Option MatchSpec := do
  match ← d.fields? ["key", "value", "prefix"] with
  | [some key, value, start] =>
    let key ← key.text?
    let value ← Document.optional? Document.text? value
    let start ← Document.optional? Document.text? start
    some ⟨key, value, start⟩
  | _ => none

end MatchSpec

namespace RuleSpec

def toDocument (r : RuleSpec) : Document :=
  .record [("name", .text r.name), ("match", .list (r.conditions.map MatchSpec.toDocument)),
    ("groupings", .list (r.groupings.map GroupingSpec.toDocument))]

def ofDocument? (d : Document) : Option RuleSpec := do
  match ← d.fields? ["name", "match", "groupings"] with
  | [some name, conditions, groupings] =>
    let name ← name.text?
    let conditions ← Document.withDefault?
      (fun d => do (← d.items?).mapM MatchSpec.ofDocument?) [] conditions
    let groupings ← Document.withDefault?
      (fun d => do (← d.items?).mapM GroupingSpec.ofDocument?) [] groupings
    some ⟨name, conditions, groupings⟩
  | _ => none

end RuleSpec

namespace RuleSet

def toDocument (s : RuleSet) : Document :=
  .record [("domain", .ofText? s.domain), ("rules", .list (s.rules.map RuleSpec.toDocument))]

def ofDocument? (d : Document) : Option RuleSet := do
  match ← d.fields? ["domain", "rules"] with
  | [domain, rules] =>
    let domain ← Document.optional? Document.text? domain
    let rules ← Document.withDefault? (fun d => do (← d.items?).mapM RuleSpec.ofDocument?) [] rules
    some ⟨domain, rules⟩
  | _ => none

end RuleSet

end Admission
