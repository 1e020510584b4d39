import Admission.Bucket.Amount

/-!
# Exact amounts

Rational numbers count tokens without rounding.  Only the delay until tokens come in is rounded, to
whole nanoseconds.
-/

namespace Admission

/-- The whole number nearest to a rational that is not negative, and zero below that. -/
def nearestNat (x : Rat) : Nat := roundToEven x.num.toNat x.den

instance : Amount Rat where
  decidableLt _ _ := inferInstance
  decidableLe _ _ := inferInstance
  ofCount n := (n.toNat : Rat)
  ofSpan s := mkRat s.nanos Span.perSecond
  whole x := .ofNat (min x.floor.toNat 4294967295)
  toSpan x := ⟨nearestNat (x * Span.perSecond)⟩
  isRate x := decide (0 < x)

end Admission
