import Admission.Decimal.Reading
import Admission.Decimal.Shortest
import Admission.Yaml.Node

/-!
# Setting values

Settings come as a tree of values from a file and from named variables.  Names do not tell small
letters from capitals.  Sources are put on top of each other: tables are joined entry by entry and
everything else is replaced.

A value has a type of its own when it is read, and is converted to what its reader needs: a text
that spells a number is a number to a reader of numbers, and the other way round.
-/

namespace Admission

/-- A value in the tree of settings. -/
inductive Setting where
  | absent
  | flag (value : Bool)
  | whole (value : Int)
  | real (value : Float)
  | text (value : String)
  | list (items : List Setting)
  | table (entries : List (String × Setting))
deriving Inhabited

namespace Setting

def get? (s : Setting) (name : String) : Option Setting :=
  match s with
  | table entries => (entries.find? fun entry => entry.1 = name).map (·.2)
  | _ => none

/-- The entries of a table with one more; an entry of the same name gives way. -/
def insert (name : String) (value : Setting) : List (String × Setting) → List (String × Setting)
  | [] => [(name, value)]
  | entry :: rest =>
    if entry.1 = name then (name, value) :: rest else entry :: insert name value rest

/-- The table with an entry replaced.  What is no table becomes one. -/
def set (s : Setting) (name : String) (value : Setting) : Setting :=
  match s with
  | table entries => table (insert name value entries)
  | _ => table [(name, value)]

mutual

/-- The setting with a value put under a name: tables are joined, and everything else replaces what
was there. -/
def put (s : Setting) (name : String) : Setting → Setting
  | table entries => s.set name (putAll ((s.get? name).getD (table [])) entries)
  | value => s.set name value

def putAll (s : Setting) : List (String × Setting) → Setting
  | [] => s
  | (name, value) :: rest => putAll (put s name value) rest

end

/-- The setting with a value put at the end of a path of names; tables on the way are made where
there are none. -/
def putAt (s : Setting) (value : Setting) : List String → Setting
  | [] => s
  | [name] => s.put name value
  | name :: rest => s.set name (putAt ((s.get? name).getD absent) value rest)

def isNameChar (c : Char) : Bool := c.isAlphanum || c = ' ' || c = '_' || c = '-'

def splitPath (cs : List Char) : List (List Char) :=
  cs.foldr (fun c names => match names with
    | name :: rest => if c = '.' then [] :: name :: rest else (c :: name) :: rest
    | [] => []) [[]]

/-- The path that a name stands for: names with points between them, or the name as it is if it
does not have that form. -/
def path (name : String) : List String :=
  let names := splitPath name.toList
  if names.all fun part => !part.isEmpty && part.all isNameChar then names.map String.ofList
  else [name]

/-! ## Values in YAML -/

def fits (n : Int) : Bool := -9223372036854775808 ≤ n && n ≤ 9223372036854775807

def readWhole? (text : String) : Option Int := (readInt? text).filter fits

/-- The names of infinite floats and of what is no number.  They are floats that cannot be used. -/
def isSpecialFloat (text : String) : Bool :=
  text ∈ [".inf", ".Inf", ".INF", "+.inf", "+.Inf", "+.INF", "-.inf", "-.Inf", "-.INF",
    ".nan", ".NAN"]

/-- The value of a plain scalar, if it can be used. -/
def ofPlain? (content : String) : Option Setting :=
  let digitsAfter (mark : String) (base : Nat) : Option Int :=
    if content.startsWith mark then
      ((readDigits? base (content.toList.drop mark.length)).map fun n => (n : Int)).filter fits
    else none
  match digitsAfter "0x" 16, digitsAfter "0o" 8, readWhole? content with
  | some n, _, _ => some (whole n)
  | none, some n, _ => some (whole n)
  | none, none, some n => some (whole n)
  | none, none, none =>
    if content = "" ∨ content = "~" ∨ content = "null" then some absent
    else if content = "true" then some (flag true)
    else if content = "false" then some (flag false)
    else if isSpecialFloat content then none
    else some (((readFloat? content).map real).getD (text content))

/-- The value of a plain scalar with a tag.  A tag that says what the text is not makes no
value. -/
def ofTagged? (tag content : String) : Option Setting :=
  if tag = "tag:yaml.org,2002:bool" then
    some (if content = "true" then flag true else if content = "false" then flag false else absent)
  else if tag = "tag:yaml.org,2002:int" then
    some (((readWhole? content).map whole).getD absent)
  else if tag = "tag:yaml.org,2002:float" then
    if isSpecialFloat content then none
    else some (((readFloat? content).map real).getD absent)
  else if tag = "tag:yaml.org,2002:null" then some absent
  else some (text content)

/-- The name of an entry: a text or a whole number. -/
def ofKey? : Setting → Option String
  | text name => some (lowerAscii name)
  | whole n => some (toString n)
  | _ => none

mutual

/-- The value of a node, if it can be used. -/
def ofNode? : Yaml.Node → Option Setting
  | .scalar .plain none content => ofPlain? content
  | .scalar .plain (some tag) content => ofTagged? tag content
  | .scalar _ _ content => some (text content)
  | .sequence _ items => (ofNodes? items).map list
  | .mapping _ entries => (ofEntries? entries).map fun named =>
      table (named.foldl (fun entries entry => insert entry.1 entry.2 entries) [])
  | .endless => some absent

def ofNodes? : List Yaml.Node → Option (List Setting)
  | [] => some []
  | node :: rest => do
    let value ← ofNode? node
    let values ← ofNodes? rest
    some (value :: values)

def ofEntries? : List (Yaml.Node × Yaml.Node) → Option (List (String × Setting))
  | [] => some []
  | (key, node) :: rest => do
    let name ← ofKey? (← ofNode? key)
    let value ← ofNode? node
    let entries ← ofEntries? rest
    some ((name, value) :: entries)

end

/-- The table that a YAML text stands for; a text without any document is an empty table. -/
def ofYaml? (content : String) : Option (List (String × Setting)) := do
  match ← Yaml.documents? content with
  | [] => some []
  | [node] =>
    match ← ofNode? node with
    | table entries => some entries
    | _ => none
  | _ => none

/-! ## Values in variables -/

/-- The value of a variable: a truth value, a whole number, a float, or else the text as it is. -/
def ofVariable (content : String) : Setting :=
  if lowerAscii content = "true" then flag true
  else if lowerAscii content = "false" then flag false
  else
    match readWhole? content, readFloat? content with
    | some n, _ => whole n
    | none, some x => real x
    | none, none => text content

/-! ## Conversions -/

/-- The truth value that a text names when a number is wanted. -/
def truth? (content : String) : Option Bool :=
  let name := lowerAscii content
  if name ∈ ["true", "on", "yes"] then some true
  else if name ∈ ["false", "off", "no"] then some false
  else none

def largestNat : Nat := 18446744073709551615

/-- The number nearest to a float, zero if the float is negative or no number, and no larger than 64
bits can hold. -/
def roundedNat (x : Float) : Nat :=
  match Binary64.ofFloat x with
  | .nan => 0
  | .infinite negative => if negative then 0 else largestNat
  | .finite negative magnitude =>
    let (num, den) := magnitude.quotient
    if negative then 0 else min ((2 * num + den) / (2 * den)) largestNat

def natBelow? (bound : Nat) (s : Setting) : Option Nat :=
  let value := match s with
    | whole n => if 0 ≤ n then some n.toNat else none
    | flag value => some value.toNat
    | real x => some (roundedNat x)
    | text content => (truth? content).map Bool.toNat <|> readNat? content
    | _ => none
  value.filter (· < bound)

def float? : Setting → Option Float
  | real x => some x
  | whole n => some (Float.ofInt n)
  | flag value => some (if value then 1.0 else 0.0)
  | text content =>
    ((truth? content).map fun value => if value then 1.0 else 0.0) <|> readFloat? content
  | _ => none

def text? : Setting → Option String
  | text content => some content
  | flag value => some (if value then "true" else "false")
  | whole n => some (toString n)
  | real x => some (floatText x)
  | _ => none

/-- The name of a choice: a text, or the one name in a table. -/
def choice? : Setting → Option String
  | text name => some name
  | table [(name, _)] => some name
  | _ => none

/-- The values of a structure in the order of the names of its fields, as far as they are there.
A structure is a table, or the list of its fields from the first one on. -/
def fields? (names : List String) (s : Setting) : Option (List (Option Setting)) :=
  match s with
  | table _ => some (names.map s.get?)
  | list items => some ((names.mapIdx fun index _ => items[index]?))
  | _ => none

def optional? {α : Type} (read : Setting → Option α) : Option Setting → Option (Option α)
  | none | some absent => some none
  | some s => (read s).map some

/-- What stands for itself unless it is missing. -/
def withDefault? {α : Type} (read : Setting → Option α) (default : α) : Option Setting → Option α
  | none => some default
  | some s => read s

end Setting

end Admission
