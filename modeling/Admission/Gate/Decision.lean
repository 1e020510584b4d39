import Admission.Fault
import Admission.Gate

/-!
# Decisions

A gate decides about operations written down one a line, and each decision is written as a line of
JSON.  A line that describes no operation is denied as well; a blank line is passed over.
-/

namespace Admission

/-- What was decided about an input: denied for a reason, or allowed. -/
structure Decision where
  input : String
  reason : Option String
deriving DecidableEq, Repr

namespace Decision

/-- The four hexadecimal digits of a control character. -/
def controlDigits (c : Char) : List Char :=
  let digits := Nat.toDigits 16 c.toNat
  List.replicate (4 - digits.length) '0' ++ digits

/-- A character in a JSON text.  Only quotes, backslashes and control characters are escaped. -/
def escapeChar (c : Char) : List Char :=
  if c = '"' then ['\\', '"']
  else if c = '\\' then ['\\', '\\']
  else if c = '\x08' then ['\\', 'b']
  else if c = '\t' then ['\\', 't']
  else if c = '\n' then ['\\', 'n']
  else if c = '\x0c' then ['\\', 'f']
  else if c = '\r' then ['\\', 'r']
  else if c.toNat < 0x20 then '\\' :: 'u' :: controlDigits c
  else [c]

def quoted (text : String) : String :=
  "\"" ++ String.ofList (text.toList.flatMap escapeChar) ++ "\""

def text (d : Decision) : String :=
  let verdict := match d.reason with
    | none => ",\"allowed\":true"
    | some reason => ",\"allowed\":false,\"reason\":" ++ quoted reason
  "\x7b\"input\":" ++ quoted d.input ++ verdict ++ "\x7d"

end Decision

namespace Gate

variable {α : Type} [Amount α]

def decide (g : Gate α) (input : String) (readings : Readings) : Gate α × Decision :=
  match Descriptor.parse input with
  | .error cause => (g, ⟨input, some (Fault.configuration (.descriptor cause)).message⟩)
  | .ok descriptor =>
    match g.askAt descriptor readings with
    | (after, .ok ()) => (after, ⟨input, none⟩)
    | (after, .error denial) => (after, ⟨input, some denial.message⟩)

/-- Decides about a line, unless it is blank. -/
def decideLine (g : Gate α) (line : String) (readings : Readings) : Gate α × Option Decision :=
  let input := trim line.toList
  if input.isEmpty then (g, none)
  else
    let (after, decision) := g.decide (String.ofList input) readings
    (after, some decision)

end Gate

/-- The lines of an input given in bytes: each ends with a line feed, which may be missing at the
end. -/
def splitLines (bytes : List UInt8) : List (List UInt8) :=
  bytes.foldr (fun byte lines => match lines with
    | line :: rest => if byte = 10 then [] :: line :: rest else (byte :: line) :: rest
    | [] => if byte = 10 then [[]] else [[byte]]) []

/-- The text of a line, if its bytes make one. -/
def lineText (bytes : List UInt8) : Option String := String.fromUTF8? bytes.toByteArray

end Admission
