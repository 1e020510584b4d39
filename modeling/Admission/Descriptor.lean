import Admission.Text.Blank
import Admission.Text.Escaped

/-!
# Descriptors

A descriptor says what an operation is: a domain and a list of entries, each a key with a value.
It is written `domain:key=value,key=value`, with a backslash before every `\`, `:`, `,` and `=`
that belongs to a name or a value.

Reading forgives blanks around every part and empty entries between commas.  `Descriptor.parse`
reads and `Descriptor.text` writes.
-/

namespace Admission

/-- A domain with entries in the order in which they were given. -/
structure Descriptor where
  domain : String
  entries : List (String × String)
deriving DecidableEq, Repr, Inhabited

/-- What keeps a text from being a descriptor. -/
inductive Malformed where
  /-- No colon ends a domain. -/
  | noDomain (text : String)
  /-- An entry has no equals sign. -/
  | notPair (entry : String)
  /-- An entry has nothing before its equals sign. -/
  | emptyKey (entry : String)
deriving DecidableEq, Repr

/-- The message about a text that is no descriptor. -/
def Malformed.message : Malformed → String
  | noDomain text => "descriptor '" ++ text ++ "' is missing a domain"
  | notPair entry => "descriptor entry '" ++ entry ++ "' is not key=value"
  | emptyKey entry => "descriptor entry '" ++ entry ++ "' has an empty key"

namespace Descriptor

def get? (d : Descriptor) (key : String) : Option String :=
  (d.entries.find? fun entry => entry.1 = key).map (·.2)

/-- The characters that have a meaning in the text of a descriptor. -/
def special : List Char := ['\\', ':', ',', '=']

def entryText (entry : String × String) : List Char :=
  escape special entry.1.toList ++ '=' :: escape special entry.2.toList

/-- The text of a descriptor, as characters. -/
def chars (d : Descriptor) : List Char :=
  escape special d.domain.toList ++ ':' :: [','].intercalate (d.entries.map entryText)

def text (d : Descriptor) : String := String.ofList d.chars

/-- A part of a descriptor without the blanks around it and without its escapes. -/
def part (cs : List Char) : String := String.ofList (unescape (trim cs))

/-- Reads one entry, given without blanks around it. -/
def parseEntry (cs : List Char) : Except Malformed (String × String) :=
  match splitOnceUnescaped '=' cs with
  | none => .error (.notPair (String.ofList cs))
  | some (key, value) =>
    if (trim key).isEmpty then .error (.emptyKey (String.ofList cs))
    else .ok (part key, part value)

/-- The entries in the text after the domain; empty ones are passed over. -/
def entryTexts (cs : List Char) : List (List Char) :=
  ((piecesUnescaped ',' cs).map trim).filter fun entry => !entry.isEmpty

def parseChars (cs : List Char) : Except Malformed Descriptor :=
  match splitOnceUnescaped ':' (trim cs) with
  | none => .error (.noDomain (String.ofList (trim cs)))
  | some (domain, rest) => do
    let entries ← (entryTexts rest).mapM parseEntry
    return ⟨part domain, entries⟩

def parse (s : String) : Except Malformed Descriptor := parseChars s.toList

end Descriptor

end Admission
