/-!
# Documents

A document is a tree of values as JSON knows them.  Numbers written with a fraction or an exponent
are told apart from whole numbers, because only whole numbers are counts.
-/

namespace Admission

/-- A tree of values. -/
inductive Document where
  | null
  | bool (value : Bool)
  /-- A number without a fraction and without an exponent. -/
  | whole (value : Int)
  /-- Any other number, as it is written. -/
  | decimal (text : String)
  | text (value : String)
  | list (items : List Document)
  | record (fields : List (String × Document))
deriving Repr, Inhabited

namespace Document

/-- The field of a record with a name; of several the last one. -/
def field? (d : Document) (name : String) : Option Document :=
  match d with
  | record fields => (fields.reverse.find? fun entry => entry.1 = name).map (·.2)
  | _ => none

/-- The fields of a structure in the order of their names, as far as they are there.  A structure
is a record, in which other fields are passed over, or the list of its fields from the first one
on. -/
def fields? (names : List String) (d : Document) : Option (List (Option Document)) :=
  match d with
  | record _ => some (names.map d.field?)
  | list items =>
    if items.length ≤ names.length then
      some (items.map some ++ List.replicate (names.length - items.length) none)
    else none
  | _ => none

def text? : Document → Option String
  | text value => some value
  | _ => none

def natBelow? (bound : Nat) : Document → Option Nat
  | whole value => if 0 ≤ value ∧ value < bound then some value.toNat else none
  | _ => none

def items? : Document → Option (List Document)
  | list items => some items
  | _ => none

/-- What may be absent: nothing there, or a null. -/
def optional? {α : Type} (read : Document → Option α) : Option Document → Option (Option α)
  | none | some null => some none
  | some d => (read d).map some

/-- What stands for itself unless it is missing. -/
def withDefault? {α : Type} (read : Document → Option α) (default : α) :
    Option Document → Option α
  | none => some default
  | some d => read d

/-- The name of a choice: a text, or a record of one field that says no more. -/
def choice? : Document → Option String
  | text name => some name
  | record [(name, null)] => some name
  | _ => none

end Document

end Admission
