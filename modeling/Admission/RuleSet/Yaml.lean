import Admission.RuleSet
import Admission.Yaml.Node

/-!
# Rule sets in YAML

A rule set is written as one YAML document.  `RuleSet.ofYaml?` is the reader that the command uses;
to it a text without any document is the empty rule set.

Scalars have no types of their own here: what they stand for is decided by the field they are read
for, so that `1` may be a name as well as a number.  An empty plain scalar stands for an empty list
and for a structure whose fields are all missing, and an absent value is written `~` or `null`.
-/

namespace Admission

namespace Yaml.Node

def text? : Node → Option String
  | scalar _ _ text => some text
  | _ => none

def isNull (text : String) : Bool := text = "~" || text = "null" || text = "Null" || text = "NULL"

def nullTag : String := "tag:yaml.org,2002:null"

def items? : Node → Option (List Node)
  | sequence _ items => some items
  | scalar .plain _ "" => some []
  | _ => none

/-- The values of a structure in the order of the names of its fields, as far as they are there.
Other fields are passed over, but each field is named by a scalar and none of the known ones is
given twice. -/
def fields? (names : List String) : Node → Option (List (Option Node))
  | mapping _ entries => do
    let named ← entries.mapM fun entry => (text? entry.1).map fun name => (name, entry.2)
    names.mapM fun name =>
      match named.filter fun entry => entry.1 = name with
      | [] => some none
      | [entry] => some (some entry.2)
      | _ => none
  | scalar .plain _ "" => some (names.map fun _ => none)
  | _ => none

/-- What may be absent: nothing there, or an absent value that no quotes make a text. -/
def optional? {α : Type} (read : Node → Option α) : Option Node → Option (Option α)
  | none => some none
  | some (scalar .plain none text) =>
    if text.isEmpty || isNull text then some none
    else (read (scalar .plain none text)).map some
  | some (scalar .plain (some tag) text) =>
    if tag = nullTag then (if isNull text then some none else none)
    else (read (scalar .plain (some tag) text)).map some
  | some node => (read node).map some

/-- What stands for itself unless it is missing. -/
def withDefault? {α : Type} (read : Node → Option α) (default : α) : Option Node → Option α
  | none => some default
  | some node => read node

/-- The number that a text without a sign stands for: decimal without leading zeros, or with `0x`,
`0o` or `0b` in front of digits to that base. -/
def readNumeral? : List Char → Option Nat
  | '0' :: 'x' :: digits => readDigits? 16 digits
  | '0' :: 'o' :: digits => readDigits? 8 digits
  | '0' :: 'b' :: digits => readDigits? 2 digits
  | ['0'] => some 0
  | '0' :: _ => none
  | digits => readDigits? 10 digits

/-- A count: a number in a plain scalar, with or without a plus in front. -/
def count? : Node → Option Count
  | scalar .plain _ text => do
    let n ← readNumeral? (if text.startsWith "+" then text.toList.drop 1 else text.toList)
    if n < Count.bound then some (.ofNat n) else none
  | _ => none

/-- The name of a choice: a scalar, or a tag of one's own on an absent value. -/
def choice? : Node → Option String
  | scalar style (some tag) text =>
    if tag.startsWith "!" then
      if style = .plain && (text.isEmpty || isNull text) && 1 < tag.length then
        some (String.ofList (tag.toList.drop 1))
      else none
    else some text
  | scalar _ none text => some text
  | _ => none

end Yaml.Node

open Yaml (Node)

/-- The rate that a node stands for; one unit is the default window. -/
def RateSpec.ofNode? (node : Node) : Option RateSpec := do
  match ← node.fields? ["requests_per_unit", "unit", "units"] with
  | [some requests, some unit, units] =>
    let requests ← requests.count?
    let unit ← TimeUnit.ofName? (← unit.choice?)
    let units ← Node.withDefault? Node.count? 1 units
    some ⟨requests, unit, units⟩
  | _ => none

def GroupingSpec.ofNode? (node : Node) : Option GroupingSpec := do
  match ← node.fields? ["name", "group_by", "rates"] with
  | [some name, groupBy, some rates] =>
    let name ← name.text?
    let groupBy ← Node.withDefault? (fun node => do (← node.items?).mapM Node.text?) [] groupBy
    let rates ← (← rates.items?).mapM RateSpec.ofNode?
    some ⟨name, groupBy, rates⟩
  | _ => none

def MatchSpec.ofNode? (node : Node) : Option MatchSpec := do
  match ← node.fields? ["key", "value", "prefix"] with
  | [some key, value, start] =>
    let key ← key.text?
    let value ← Node.optional? Node.text? value
    let start ← Node.optional? Node.text? start
    some ⟨key, value, start⟩
  | _ => none

def RuleSpec.ofNode? (node : Node) : Option RuleSpec := do
  match ← node.fields? ["name", "match", "groupings"] with
  | [some name, conditions, groupings] =>
    let name ← name.text?
    let conditions ← Node.withDefault?
      (fun node => do (← node.items?).mapM MatchSpec.ofNode?) [] conditions
    let groupings ← Node.withDefault?
      (fun node => do (← node.items?).mapM GroupingSpec.ofNode?) [] groupings
    some ⟨name, conditions, groupings⟩
  | _ => none

namespace RuleSet

def ofNode? (node : Node) : Option RuleSet := do
  match ← node.fields? ["domain", "rules"] with
  | [domain, rules] =>
    let domain ← Node.optional? Node.text? domain
    let rules ← Node.withDefault? (fun node => do (← node.items?).mapM RuleSpec.ofNode?) [] rules
    some ⟨domain, rules⟩
  | _ => none

def ofYaml? (text : String) : Option RuleSet := do
  match ← Yaml.documents? text with
  | [] => some ⟨none, []⟩
  | [node] => ofNode? node
  | _ => none

end RuleSet

end Admission
