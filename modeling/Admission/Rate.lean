import Admission.Count
import Admission.Time.SpanText

/-!
# Burst rates

A burst rate allows at most so many permits in a window of time.  The window is never empty: that
is part of the type, so every grant counts at the instant it is made.  A rate of no permits denies
everything.
-/

namespace Admission

/-- The units in which configured windows are measured. -/
inductive TimeUnit where
  | second
  | minute
  | hour
  | day
deriving DecidableEq, Repr, Inhabited

namespace TimeUnit

def span : TimeUnit → Span
  | .second => .seconds 1
  | .minute => .seconds 60
  | .hour => .seconds 3600
  | .day => .seconds 86400

def name : TimeUnit → String
  | .second => "second"
  | .minute => "minute"
  | .hour => "hour"
  | .day => "day"

/-- Every unit, shortest first. -/
def all : List TimeUnit := [.second, .minute, .hour, .day]

def ofName? (text : String) : Option TimeUnit := all.find? fun unit => unit.name = text

theorem span_pos (u : TimeUnit) : 0 < u.span.nanos := by
  cases u <;> decide

end TimeUnit

/-- At most `permits` in every `window`. -/
structure BurstRate where
  permits : Count
  window : Span
  window_pos : 0 < window.nanos
deriving DecidableEq, Repr

namespace BurstRate

/-- The rate with the given window, unless the window is empty. -/
def make? (permits : Count) (window : Span) : Option BurstRate :=
  if h : 0 < window.nanos then some ⟨permits, window, h⟩ else none

/-- `permits` in `count` units of time, unless that is no time at all. -/
def per? (permits count : Count) (unit : TimeUnit) : Option BurstRate :=
  make? permits (unit.span.times count.toNat)

/-- `permits` in one unit of time. -/
def perUnit (permits : Count) (unit : TimeUnit) : BurstRate := ⟨permits, unit.span, unit.span_pos⟩

/-- The text of a rate: its permits, a slash and its window. -/
def text (r : BurstRate) : String := toString r.permits.toNat ++ "/" ++ r.window.text

end BurstRate

end Admission
