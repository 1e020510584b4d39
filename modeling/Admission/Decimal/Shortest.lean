import Admission.Decimal.Binary64

/-!
# The shortest decimal text of a float

A float is written with the fewest decimal digits that read back as the same float; of two such
decimals the nearer one is taken, and the upper one if both are equally near.  The digits are
always placed positionally: there is no exponent, and a whole number has no point.
-/

namespace Admission

/-- A decimal `digits * 10 ^ exponent`. -/
structure DecimalDigits where
  digits : Nat
  exponent : Int
deriving DecidableEq, Repr

namespace Dyadic64

def scale (num den : Nat) (power : Int) : Nat × Nat :=
  if power < 0 then (num, den * Nat.pow 10 (-power).toNat)
  else (num * Nat.pow 10 power.toNat, den)

/-- The reals that round to a double, scaled by `2 ^ (2 - exponent)`: the interval reaches halfway
to both neighbours, and the one below is nearer at a power of two. -/
def interval (d : Dyadic64) : Nat × Nat :=
  let below := if d.mantissa = Nat.pow 2 52 ∧ -1074 < d.exponent then 1 else 2
  (4 * d.mantissa - below, 4 * d.mantissa + 2)

/-- Whether the decimal reads back as the double.  The ends of the interval belong to the double
with the even mantissa. -/
def readsBack (d : Dyadic64) (c : DecimalDigits) : Bool :=
  let (low, high) := d.interval
  let (unit, den) := quotient ⟨1, d.exponent - 2⟩
  let (num, tens) := scale c.digits 1 c.exponent
  let value := num * den
  let least := low * unit * tens
  let greatest := high * unit * tens
  if d.mantissa % 2 = 0 then least ≤ value && value ≤ greatest
  else least < value && value < greatest

/-- The place of the leading digit: the exponent `e` with `10 ^ e ≤ value < 10 ^ (e + 1)`. -/
def leadingPlace (d : Dyadic64) : Int :=
  let (num, den) := d.quotient
  if den ≤ num then ((Nat.toDigits 10 (num / den)).length : Int) - 1
  else -((Nat.toDigits 10 (den / num)).length : Int) +
    (if den % num = 0 ∧ Nat.pow 10 ((Nat.toDigits 10 (den / num)).length - 1) = den / num then 1
      else 0)

/-- The decimal with its last digit at `place` that reads back and is nearest to the value, if one
of the two neighbours on that grid does. -/
def nearestAt (d : Dyadic64) (place : Int) : Option DecimalDigits :=
  let (num, den) := d.quotient
  let (n, m) := scale num den (-place)
  let below : DecimalDigits := ⟨n / m, place⟩
  let above : DecimalDigits := ⟨n / m + 1, place⟩
  let nearer := if 2 * (n % m) < m then [below, above] else [above, below]
  nearer.find? d.readsBack

/-- The shortest decimal that reads back as the double.  Seventeen digits always do. -/
def shortest (d : Dyadic64) : DecimalDigits :=
  let lead := d.leadingPlace
  let places := (List.range 18).map fun (k : Nat) => lead - k
  (places.findSome? d.nearestAt).getD ⟨d.mantissa, 0⟩

end Dyadic64

def DecimalDigits.text (c : DecimalDigits) : String :=
  let digits := Nat.toDigits 10 c.digits
  if 0 ≤ c.exponent then
    String.ofList (digits ++ List.replicate c.exponent.toNat '0')
  else
    let places := (-c.exponent).toNat
    let padded := List.replicate (places + 1 - digits.length) '0' ++ digits
    let whole := padded.take (padded.length - places)
    let part := ((padded.drop (padded.length - places)).reverse.dropWhile (· == '0')).reverse
    String.ofList (if part.isEmpty then whole else whole ++ '.' :: part)

/-- The text of a float: the shortest positional decimal, or the name of what is not a number. -/
def floatText (x : Float) : String :=
  match Binary64.ofFloat x with
  | .nan => "NaN"
  | .infinite negative => if negative then "-inf" else "inf"
  | .finite negative magnitude =>
    let digits := if magnitude.mantissa = 0 then "0" else magnitude.shortest.text
    if negative then "-" ++ digits else digits

end Admission
