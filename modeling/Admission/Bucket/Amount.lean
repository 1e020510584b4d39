import Admission.Count
import Admission.Time
import Admission.Decimal.Binary64

/-!
# Amounts of tokens

Buckets hold fractions of tokens.  What they need of a number is collected in `Amount`, so the same
bucket runs on floats and can be reasoned about over exact rationals.
-/

namespace Admission

/-- A number of tokens that need not be whole. -/
class Amount (α : Type) extends Add α, Sub α, Mul α, Div α, LT α, LE α, BEq α where
  decidableLt (a b : α) : Decidable (a < b)
  decidableLe (a b : α) : Decidable (a ≤ b)
  /-- A whole number of tokens. -/
  ofCount : Count → α
  /-- A span in seconds. -/
  ofSpan : Span → α
  /-- The whole tokens in an amount, held between none and `Count.most`. -/
  whole : α → Count
  /-- The span of that many seconds, to the nearest nanosecond and never negative.  What is no
  number of seconds is no time. -/
  toSpan : α → Span
  /-- Whether an amount can be a refill rate: positive and finite. -/
  isRate : α → Bool

namespace Amount

instance {α : Type} [Amount α] (a b : α) : Decidable (a < b) := decidableLt a b

instance {α : Type} [Amount α] (a b : α) : Decidable (a ≤ b) := decidableLe a b

variable {α : Type} [Amount α]

def zero : α := ofCount 0

/-- The amount held between nothing and `high`.  What cannot be compared stays as it is. -/
def clamp (x high : α) : α := if x < zero then zero else if high < x then high else x

/-- The amount, but at most `high`, which also replaces what cannot be compared. -/
def atMost (x high : α) : α := if x < high then x else high

end Amount

/-- The span of a float number of seconds; beyond the floats it is longer than any clock runs. -/
def Span.ofFloatSeconds (x : Float) : Span :=
  match Binary64.ofFloat x with
  | .nan => .zero
  | .infinite negative => if negative then .zero else .seconds Span.secondsBound
  | .finite negative magnitude =>
    if negative then .zero
    else
      let (num, den) := magnitude.quotient
      ⟨roundToEven (num * Span.perSecond) den⟩

/-- Floats count tokens in binary floating point; seconds and their fraction are added as floats. -/
instance : Amount Float where
  decidableLt _ _ := inferInstance
  decidableLe _ _ := inferInstance
  ofCount n := n.toFloat
  ofSpan s := Float.ofNat s.secs + Float.ofNat s.subsec / 1000000000.0
  whole x := x.toUInt32
  toSpan := Span.ofFloatSeconds
  isRate x := x.isFinite && 0.0 < x

end Admission
