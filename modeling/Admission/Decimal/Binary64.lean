/-!
# Binary floating point, taken apart

A finite double is a sign and a magnitude `mantissa * 2 ^ exponent` with whole numbers.  The exact
value is what the decimal text and the rounding of a float to whole nanoseconds start from.
-/

namespace Admission

/-- A whole number times a power of two. -/
structure Dyadic64 where
  mantissa : Nat
  exponent : Int
deriving DecidableEq, Repr

/-- What the bits of a double stand for. -/
inductive Binary64 where
  | finite (negative : Bool) (magnitude : Dyadic64)
  | infinite (negative : Bool)
  | nan
deriving DecidableEq, Repr

namespace Binary64

/-- The parts of a double: 52 bits of fraction, 11 of exponent and one of sign. -/
def ofFloat (x : Float) : Binary64 :=
  let bits : Nat := x.toBits.toNat
  let fraction : Nat := bits % Nat.pow 2 52
  let exponent : Nat := bits / Nat.pow 2 52 % Nat.pow 2 11
  let negative := bits / Nat.pow 2 63 = 1
  if exponent = 2047 then
    if fraction = 0 then infinite negative else nan
  else if exponent = 0 then finite negative ⟨fraction, -1074⟩
  else finite negative ⟨fraction + Nat.pow 2 52, exponent - 1075⟩

end Binary64

namespace Dyadic64

def quotient (d : Dyadic64) : Nat × Nat :=
  if d.exponent < 0 then (d.mantissa, Nat.pow 2 (-d.exponent).toNat)
  else (d.mantissa * Nat.pow 2 d.exponent.toNat, 1)

end Dyadic64

/-- The whole number nearest to `num / den`; halfway between two it is the even one. -/
def roundToEven (num den : Nat) : Nat :=
  let below := num / den
  let twice := 2 * (num % den)
  if twice < den then below
  else if den < twice then below + 1
  else if below % 2 = 0 then below else below + 1

end Admission
