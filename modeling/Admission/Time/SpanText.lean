import Admission.Time

/-!
# The text of a span

A span is written in the largest of the units `s`, `ms`, `µs` and `ns` of which it holds at least
one, with the exact fraction and no trailing zeros: `1s`, `1.5s`, `100ms`, `1.000001ms`, `999ns`.
-/

namespace Admission

/-- The digits of `n` after a point, `width` places wide, without trailing zeros. -/
def fractionDigits (n width : Nat) : List Char :=
  let digits := Nat.toDigits 10 n
  let padded := List.replicate (width - digits.length) '0' ++ digits
  (padded.reverse.dropWhile (· == '0')).reverse

/-- `whole` and `part` out of `10 ^ width`, written with a point if a fraction is left. -/
def decimalText (whole part width : Nat) : String :=
  if part = 0 then toString whole
  else toString whole ++ "." ++ String.ofList (fractionDigits part width)

def Span.text (s : Span) : String :=
  if perSecond ≤ s.nanos then decimalText s.secs s.subsec 9 ++ "s"
  else if 1000000 ≤ s.nanos then decimalText (s.nanos / 1000000) (s.nanos % 1000000) 6 ++ "ms"
  else if 1000 ≤ s.nanos then decimalText (s.nanos / 1000) (s.nanos % 1000) 3 ++ "µs"
  else toString s.nanos ++ "ns"

end Admission
