import Admission.Decimal.Reading
import Admission.Text.Blank
import Admission.Time.Calendar
import Admission.Time.SpanText

/-!
# Timestamps as text

Instants are written as RFC 3339 says, in UTC and with 0, 3, 6 or 9 digits of a second's fraction,
the fewest that are exact.  Years that have no four digits carry a sign.

Reading takes any offset, a blank or a small `t` between date and time, blanks between the parts,
and any number of fraction digits, of which nine count.
-/

namespace Admission

namespace Instant

def padded (width n : Nat) : String :=
  let digits := Nat.toDigits 10 n
  String.ofList (List.replicate (width - digits.length) '0' ++ digits)

/-- A year: four digits, or a sign and at least four digits. -/
def yearText (year : Int) : String :=
  if 0 ≤ year ∧ year ≤ 9999 then padded 4 year.toNat
  else (if year < 0 then "-" else "+") ++ padded 4 year.natAbs

/-- The fraction of a second in the fewest of 0, 3, 6 and 9 digits. -/
def fractionText (nanos : Nat) : String :=
  if nanos = 0 then ""
  else if nanos % 1000000 = 0 then "." ++ padded 3 (nanos / 1000000)
  else if nanos % 1000 = 0 then "." ++ padded 6 (nanos / 1000)
  else "." ++ padded 9 nanos

def text (t : Instant) : String :=
  let date := Date.ofDay (t.secs.fdiv 86400)
  let second := (t.secs.fmod 86400).toNat
  yearText date.year ++ "-" ++ padded 2 date.month ++ "-" ++ padded 2 date.day ++ "T" ++
    padded 2 (second / 3600) ++ ":" ++ padded 2 (second / 60 % 60) ++ ":" ++
    padded 2 (second % 60) ++ fractionText t.subsec ++ "Z"

/-- One to `width` digits after blanks, and the text after them. -/
def readField? (width : Nat) (cs : List Char) : Option (Nat × List Char) :=
  let cs := trimLeft cs
  let digits := (cs.take width).takeWhile Char.isDigit
  (readDigits? 10 digits).map fun n => (n, cs.drop digits.length)

/-- A year after blanks: up to four digits, or any number of them after a sign. -/
def readYear? (cs : List Char) : Option (Int × List Char) :=
  match trimLeft cs with
  | '-' :: rest => (readField? rest.length rest).map fun (n, rest) => (-(n : Int), rest)
  | '+' :: rest => (readField? rest.length rest).map fun (n, rest) => ((n : Int), rest)
  | rest => (readField? 4 rest).map fun (n, rest) => ((n : Int), rest)

/-- A mark between two parts, after blanks. -/
def readMark? (mark : Char) (cs : List Char) : Option (List Char) :=
  match trimLeft cs with
  | c :: rest => if c = mark then some rest else none
  | [] => none

/-- The nanoseconds of a fraction, if there is one. -/
def readFraction? : List Char → Option (Nat × List Char)
  | '.' :: rest =>
    let digits := rest.takeWhile Char.isDigit
    let nine := digits.take 9
    (readDigits? 10 nine).map fun n =>
      (n * Nat.pow 10 (9 - nine.length), rest.drop digits.length)
  | rest => some (0, rest)

def readTwo? : List Char → Option (Nat × List Char)
  | a :: b :: rest =>
    if a.isDigit && b.isDigit then (readDigits? 10 [a, b]).map fun n => (n, rest) else none
  | _ => none

def readOffset? (cs : List Char) : Option (Int × List Char) :=
  match trimLeft cs with
  | 'Z' :: rest | 'z' :: rest => some (0, rest)
  | c :: rest =>
    if lowerAscii (String.ofList ((c :: rest).take 3)) = "utc" then some (0, rest.drop 2)
    else if c = '+' ∨ c = '-' ∨ c = '−' then do
      let (hours, rest) ← readTwo? rest
      let rest := rest.dropWhile fun c => c = ':' || isBlank c
      let (minutes, rest) ← readTwo? rest
      let seconds : Int := hours * 3600 + minutes * 60
      if minutes < 60 ∧ seconds < 86400 then
        some (if c = '+' then seconds else -seconds, rest)
      else none
    else none
  | [] => none

def parse (text : String) : Option Instant := do
  let (year, cs) ← readYear? text.toList
  let cs ← readMark? '-' cs
  let (month, cs) ← readField? 2 cs
  let cs ← readMark? '-' cs
  let (day, cs) ← readField? 2 cs
  let cs ← match cs with
    | 'T' :: rest | 't' :: rest | ' ' :: rest => some rest
    | _ => none
  let (hour, cs) ← readField? 2 cs
  let cs ← readMark? ':' cs
  let (minute, cs) ← readField? 2 cs
  let cs ← readMark? ':' cs
  let (second, cs) ← readField? 2 cs
  let (nanos, cs) ← readFraction? cs
  let (offset, cs) ← readOffset? cs
  let date : Date := ⟨year, month, day⟩
  if (trimLeft cs).isEmpty ∧ date.isValid ∧ hour < 24 ∧ minute < 60 ∧ second ≤ 60 then
    let seconds := date.toDay * 86400 + (hour * 3600 + minute * 60 + second : Nat) - offset
    let instant := ofParts seconds nanos
    if instant.inCalendar then some instant else none
  else none

end Instant

end Admission
