import Admission.Decimal.Reading
import Admission.Document

/-!
# Reading JSON

`Document.ofJson?` reads one JSON value.  A number is whole if it is written without a fraction and
without an exponent; a minus in front of a lone zero makes a number that is not whole.  Of fields
with one name the last counts.
-/

namespace Admission

namespace Document

def skipBlanks (cs : List Char) : List Char :=
  cs.dropWhile fun c => c = ' ' || c = '\n' || c = '\t' || c = '\r'

def readUnit? : List Char → Option (Nat × List Char)
  | a :: b :: c :: d :: rest => (readDigits? 16 [a, b, c, d]).map fun n => (n, rest)
  | _ => none

/-- The character of an escape, given without its backslash.  Characters beyond sixteen bits are
written as two halves. -/
def readEscape? : List Char → Option (Char × List Char)
  | '"' :: rest => some ('"', rest)
  | '\\' :: rest => some ('\\', rest)
  | '/' :: rest => some ('/', rest)
  | 'b' :: rest => some ('\x08', rest)
  | 'f' :: rest => some ('\x0c', rest)
  | 'n' :: rest => some ('\n', rest)
  | 'r' :: rest => some ('\r', rest)
  | 't' :: rest => some ('\t', rest)
  | 'u' :: rest => do
    let (high, rest) ← readUnit? rest
    if 0xD800 ≤ high ∧ high < 0xDC00 then
      match rest with
      | '\\' :: 'u' :: rest => do
        let (low, rest) ← readUnit? rest
        if 0xDC00 ≤ low ∧ low < 0xE000 then
          some (Char.ofNat (0x10000 + (high - 0xD800) * 0x400 + (low - 0xDC00)), rest)
        else none
      | _ => none
    else if 0xDC00 ≤ high ∧ high < 0xE000 then none
    else some (Char.ofNat high, rest)
  | _ => none

def readString? : (fuel : Nat) → List Char → Option (List Char × List Char)
  | 0, _ => none
  | fuel + 1, cs =>
    match cs with
    | [] => none
    | '"' :: rest => some ([], rest)
    | '\\' :: rest => do
      let (c, rest) ← readEscape? rest
      let (word, rest) ← readString? fuel rest
      some (c :: word, rest)
    | c :: rest =>
      if c.toNat < 0x20 then none
      else do
        let (word, rest) ← readString? fuel rest
        some (c :: word, rest)

/-- A number: an optional minus, digits without leading zeros, a fraction and an exponent. -/
def readNumber? (cs : List Char) : Option (Document × List Char) :=
  let (negative, unsigned) := match cs with
    | '-' :: rest => (true, rest)
    | _ => (false, cs)
  let digits := unsigned.takeWhile Char.isDigit
  let afterDigits := unsigned.dropWhile Char.isDigit
  let fraction := match afterDigits with
    | '.' :: rest => '.' :: rest.takeWhile Char.isDigit
    | _ => []
  let afterFraction := afterDigits.drop fraction.length
  let exponent := match afterFraction with
    | c :: rest =>
      if c = 'e' ∨ c = 'E' then
        let sign := match rest with
          | '+' :: _ => ['+']
          | '-' :: _ => ['-']
          | _ => []
        c :: sign ++ (rest.drop sign.length).takeWhile Char.isDigit
      else []
    | [] => []
  let rest := afterFraction.drop exponent.length
  if digits.isEmpty ∨ (1 < digits.length ∧ digits.head? = some '0') ∨ fraction.length = 1 ∨
      (!exponent.isEmpty ∧ !(exponent.getLast?.any Char.isDigit)) then none
  else if fraction.isEmpty ∧ exponent.isEmpty ∧ ¬ (negative ∧ digits = ['0']) then
    (readDigits? 10 digits).map fun n => (whole (if negative then -(n : Int) else n), rest)
  else
    let sign := if negative then ['-'] else []
    some (decimal (String.ofList (sign ++ digits ++ fraction ++ exponent)), rest)

mutual

def readValue? : (fuel : Nat) → List Char → Option (Document × List Char)
  | 0, _ => none
  | fuel + 1, cs =>
    match skipBlanks cs with
    | 'n' :: 'u' :: 'l' :: 'l' :: rest => some (null, rest)
    | 't' :: 'r' :: 'u' :: 'e' :: rest => some (bool true, rest)
    | 'f' :: 'a' :: 'l' :: 's' :: 'e' :: rest => some (bool false, rest)
    | '"' :: rest =>
      (readString? (rest.length + 1) rest).map fun (s, rest) => (text (String.ofList s), rest)
    | '[' :: rest =>
      match skipBlanks rest with
      | ']' :: rest => some (list [], rest)
      | rest => (readItems? fuel rest).map fun (items, rest) => (list items, rest)
    | '\x7b' :: rest =>
      match skipBlanks rest with
      | '\x7d' :: rest => some (record [], rest)
      | rest => (readFields? fuel rest).map fun (fields, rest) => (record fields, rest)
    | rest => readNumber? rest

/-- The items of a list, at least one, up to its closing bracket. -/
def readItems? : (fuel : Nat) → List Char → Option (List Document × List Char)
  | 0, _ => none
  | fuel + 1, cs => do
    let (item, rest) ← readValue? fuel cs
    match skipBlanks rest with
    | ']' :: rest => some ([item], rest)
    | ',' :: rest => do
      let (items, rest) ← readItems? fuel rest
      some (item :: items, rest)
    | _ => none

/-- The fields of a record, at least one, up to its closing brace. -/
def readFields? : (fuel : Nat) → List Char → Option (List (String × Document) × List Char)
  | 0, _ => none
  | fuel + 1, cs =>
    match skipBlanks cs with
    | '"' :: rest => do
      let (name, rest) ← readString? (rest.length + 1) rest
      match skipBlanks rest with
      | ':' :: rest => do
        let (value, rest) ← readValue? fuel rest
        let field := (String.ofList name, value)
        match skipBlanks rest with
        | '\x7d' :: rest => some ([field], rest)
        | ',' :: rest => do
          let (fields, rest) ← readFields? fuel rest
          some (field :: fields, rest)
        | _ => none
      | _ => none
    | _ => none

end

def ofJson? (json : String) : Option Document :=
  match readValue? (2 * json.length + 2) json.toList with
  | some (value, rest) => if (skipBlanks rest).isEmpty then some value else none
  | none => none

end Document

end Admission
