import Admission.Rate

/-!
# Rules

A rule says which operations it applies to and holds groupings; a grouping splits those operations
into groups and holds the rates that every group keeps.  Operations are of any type `ω`.
-/

namespace Admission

/-- The part of a grouping that an operation falls into. -/
inductive GroupKey where
  /-- The one group of a grouping that does not split operations. -/
  | whole
  | value (text : String)
deriving DecidableEq, Repr, Inhabited

namespace GroupKey

/-- The value that tells groups apart, absent for the undivided group. -/
def value? : GroupKey → Option String
  | whole => none
  | value text => some text

/-- The group with a value, or the undivided one. -/
def ofValue? : Option String → GroupKey
  | none => whole
  | some text => value text

/-- The text of a group, in which the undivided group is called `global`. -/
def text : GroupKey → String
  | whole => "global"
  | value text => text

/-- The undivided group comes first; the others follow by their values. -/
instance : Ord GroupKey := ⟨compareOn value?⟩

instance : Std.TransOrd GroupKey := inferInstanceAs (Std.TransCmp (compareOn value?))

instance : Std.LawfulEqOrd GroupKey where
  eq_of_compare {a b} h := by
    have h : a.value? = b.value? := Std.LawfulEqOrd.eq_of_compare (α := Option String) h
    cases a <;> cases b <;> simp_all [value?]

end GroupKey

/-- A way of splitting operations into groups, and the rates that each group keeps. -/
structure Grouping (ω : Type) where
  name : String
  groupOf : ω → GroupKey
  rates : List BurstRate

def Grouping.undivided {ω : Type} (name : String) (rates : List BurstRate) : Grouping ω :=
  ⟨name, fun _ => .whole, rates⟩

/-- A named set of operations and the groupings that limit them. -/
structure Rule (ω : Type) where
  name : String
  appliesTo : ω → Bool
  groupings : List (Grouping ω)

def Rule.everything {ω : Type} (name : String) (groupings : List (Grouping ω)) : Rule ω :=
  ⟨name, fun _ => true, groupings⟩

/-- One rate of a rule list, with the names that lead to it. -/
structure RateRow where
  rule : String
  grouping : String
  permits : Count
  window : Span
deriving DecidableEq, Repr

/-- Every rate of a rule list, in order of rule, grouping and rate. -/
def rateRows {ω : Type} (rules : List (Rule ω)) : List RateRow :=
  rules.flatMap fun rule => rule.groupings.flatMap fun grouping =>
    grouping.rates.map fun rate => ⟨rule.name, grouping.name, rate.permits, rate.window⟩

end Admission
