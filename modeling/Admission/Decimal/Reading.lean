/-!
# Reading numbers

Whole numbers are decimal digits with an optional sign.  A float is written with a sign, digits
with at most one point among or around them, and an exponent, or by one of the names `inf`,
`infinity` and `nan` in any case.  A decimal is rounded to the nearest double.
-/

namespace Admission

def lowerAscii (text : String) : String := text.map Char.toLower

/-- A sign in front of a text, and the rest. -/
def splitSign : List Char → Bool × List Char
  | '-' :: rest => (true, rest)
  | '+' :: rest => (false, rest)
  | cs => (false, cs)

/-- The number that digits to a base stand for; there must be one at least. -/
def readDigits? (base : Nat) (cs : List Char) : Option Nat :=
  if cs.isEmpty then none
  else cs.foldlM (fun n c =>
    let value :=
      if '0' ≤ c ∧ c ≤ '9' then c.toNat - '0'.toNat
      else if 'a' ≤ c ∧ c ≤ 'z' then c.toNat - 'a'.toNat + 10
      else if 'A' ≤ c ∧ c ≤ 'Z' then c.toNat - 'A'.toNat + 10
      else base
    if value < base then some (n * base + value) else none) 0

/-- The whole number that a text stands for, with an optional sign. -/
def readInt? (text : String) : Option Int :=
  let (negative, digits) := splitSign text.toList
  (readDigits? 10 digits).map fun n => if negative then -(n : Int) else n

/-- The number without a sign that a text stands for; a plus may stand in front of it. -/
def readNat? (text : String) : Option Nat :=
  match text.toList with
  | '+' :: digits => readDigits? 10 digits
  | digits => readDigits? 10 digits

/-- The double nearest to `digits * 10 ^ power`. -/
def nearestFloat (digits : Nat) (power : Int) : Float :=
  let places : Int := (Nat.toDigits 10 digits).length + power
  if digits = 0 ∨ places < -330 then 0.0
  else if 310 < places then 1.0 / 0.0
  else if power < 0 then Float.ofScientific digits true (-power).toNat
  else Float.ofScientific digits false power.toNat

/-- The exponent after a mantissa: none at all, or an `e` and a signed whole number. -/
def readExponent? : List Char → Option Int
  | [] => some 0
  | c :: rest =>
    if c = 'e' ∨ c = 'E' then
      let (negative, digits) := splitSign rest
      (readDigits? 10 digits).map fun n => if negative then -(n : Int) else n
    else none

/-- The double that an unsigned decimal stands for. -/
def readMagnitude? (cs : List Char) : Option Float :=
  let whole := cs.takeWhile Char.isDigit
  let afterWhole := cs.dropWhile Char.isDigit
  let (part, rest) := match afterWhole with
    | '.' :: rest => (rest.takeWhile Char.isDigit, rest.dropWhile Char.isDigit)
    | rest => ([], rest)
  match readDigits? 10 (whole ++ part), readExponent? rest with
  | some digits, some power => some (nearestFloat digits (power - part.length))
  | _, _ => none

def readFloat? (text : String) : Option Float :=
  let (negative, rest) := splitSign text.toList
  let name := lowerAscii (String.ofList rest)
  let magnitude :=
    if name = "inf" ∨ name = "infinity" then some (1.0 / 0.0)
    else if name = "nan" then some (0.0 / 0.0)
    else readMagnitude? rest
  magnitude.map fun x => if negative then -x else x

end Admission
