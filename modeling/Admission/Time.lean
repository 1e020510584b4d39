/-!
# Spans and instants

Time is exact: a `Span` is a length of time and an `Instant` a point on the UTC time line, both in
whole nanoseconds.  Clocks may jump, so the time elapsed between two readings is clamped to zero
when the later reading is the earlier instant.

The representable range shows only where an answer would leave it: `Instant.advance?` has no
result outside the calendar, and `Span.fits` marks the spans that can be written down.
-/

namespace Admission

/-- A length of time in nanoseconds. -/
structure Span where
  nanos : Nat
deriving DecidableEq, Repr, Inhabited

namespace Span

instance : LE Span := ⟨fun a b => a.nanos ≤ b.nanos⟩

instance : LT Span := ⟨fun a b => a.nanos < b.nanos⟩

instance (a b : Span) : Decidable (a ≤ b) := inferInstanceAs (Decidable (a.nanos ≤ b.nanos))

instance (a b : Span) : Decidable (a < b) := inferInstanceAs (Decidable (a.nanos < b.nanos))

/-- Spans compare by length. -/
instance : Ord Span := ⟨compareOn Span.nanos⟩

instance : Std.TransOrd Span := inferInstanceAs (Std.TransCmp (compareOn Span.nanos))

instance : Std.LawfulEqOrd Span where
  eq_of_compare {a b} h := by
    cases a; cases b
    exact congrArg Span.mk (Nat.compare_eq_eq.mp h)

def perSecond : Nat := 1000000000

def zero : Span := ⟨0⟩

/-- `n` whole seconds. -/
def seconds (n : Nat) : Span := ⟨n * perSecond⟩

/-- `n` whole milliseconds. -/
def millis (n : Nat) : Span := ⟨n * 1000000⟩

/-- `secs` seconds and `nanos` nanoseconds, of which there may be more than a second's worth. -/
def ofParts (secs nanos : Nat) : Span := ⟨secs * perSecond + nanos⟩

def secs (s : Span) : Nat := s.nanos / perSecond

/-- The nanoseconds of a span beyond its whole seconds. -/
def subsec (s : Span) : Nat := s.nanos % perSecond

def secondsBound : Nat := 18446744073709551616

def fits (s : Span) : Bool := s.secs < secondsBound

def plus (a b : Span) : Span := ⟨a.nanos + b.nanos⟩

/-- What is left of `a` after `b`, never less than zero. -/
def minus (a b : Span) : Span := ⟨a.nanos - b.nanos⟩

/-- A span `k` times as long. -/
def times (s : Span) (k : Nat) : Span := ⟨s.nanos * k⟩

/-- The span `s` held between `low` and `high`. -/
def clamp (s low high : Span) : Span := if s < low then low else if high < s then high else s

def ceilMillis (s : Span) : Nat := (s.nanos + 999999) / 1000000

end Span

/-- A time that is too long to be written down, or a clock that left the calendar. -/
inductive Overflow where
  | span
  | clock
deriving DecidableEq, Repr

/-- A point in time, in nanoseconds from 1970-01-01T00:00:00Z.  Stamps inside a leap second, which a
calendar writes as second 60, are not modelled: no clock here gives one. -/
structure Instant where
  nanos : Int
deriving DecidableEq, Repr, Inhabited

namespace Instant

instance : LE Instant := ⟨fun a b => a.nanos ≤ b.nanos⟩

instance : LT Instant := ⟨fun a b => a.nanos < b.nanos⟩

instance (a b : Instant) : Decidable (a ≤ b) := inferInstanceAs (Decidable (a.nanos ≤ b.nanos))

instance (a b : Instant) : Decidable (a < b) := inferInstanceAs (Decidable (a.nanos < b.nanos))

/-- `secs` seconds from 1970, which may be negative, and `nanos` nanoseconds after that. -/
def ofParts (secs : Int) (nanos : Nat) : Instant := ⟨secs * Span.perSecond + nanos⟩

def secs (t : Instant) : Int := t.nanos.fdiv Span.perSecond

/-- The nanoseconds of an instant beyond its last whole second. -/
def subsec (t : Instant) : Nat := (t.nanos.fmod Span.perSecond).toNat

/-- The first instant of the calendar, the year 262143 before the year 1 BC. -/
def earliest : Instant := ofParts (-8334601228800) 0

/-- The last instant of the calendar, the end of the year 262142. -/
def latest : Instant := ofParts 8210266876799 999999999

def inCalendar (t : Instant) : Bool := earliest ≤ t && t ≤ latest

def plus (t : Instant) (s : Span) : Instant := ⟨t.nanos + s.nanos⟩

/-- The longest span by which a clock can be moved: as many milliseconds as 63 bits hold. -/
def longestStep : Span := Span.millis 9223372036854775807

/-- The reading of a clock moved forward by `s`, if the calendar holds it.  A span longer than
`longestStep` leaves the clock where it is. -/
def advance? (t : Instant) (s : Span) : Option Instant :=
  if longestStep < s then some t
  else if (t.plus s).inCalendar then some (t.plus s) else none

end Instant

/-- The time from `since` to `now`, and zero when the clock went backwards. -/
def elapsed (since now : Instant) : Span := ⟨(now.nanos - since.nanos).toNat⟩

@[simp] theorem elapsed_self (t : Instant) : elapsed t t = Span.zero := by
  simp [elapsed, Span.zero]

end Admission
