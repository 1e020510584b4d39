import Admission.Time

/-!
# A clock that is moved by hand and by sleeping

A timeline is a clock set by hand together with the milliseconds slept since it was started; a
reading adds the two.  A periodic sweep may run beside it: it falls due at every multiple of its
period, counted from when it was started, and only sleeping brings those moments on.
-/

namespace Admission

/-- A sweep that recurs: its period and the moment of the next one, in milliseconds slept. -/
structure Recurring where
  period : Nat
  next : Nat
deriving DecidableEq, Repr

/-- The moments at which a sweep falls due up to `target`, and the sweep after them. -/
def Recurring.dueUntil (r : Recurring) (target : Nat) : List Nat × Recurring :=
  if r.period = 0 ∨ target < r.next then ([], r)
  else
    let count := (target - r.next) / r.period + 1
    ((List.range count).map fun k => r.next + k * r.period,
      { r with next := r.next + count * r.period })

/-- A clock and what was slept on it. -/
structure Timeline where
  /-- The clock set by hand. -/
  clock : Instant
  /-- Milliseconds slept so far. -/
  slept : Nat
  sweeps : Option Recurring
deriving DecidableEq, Repr

namespace Timeline

def start (clock : Instant) : Timeline := ⟨clock, 0, none⟩

/-- The reading of the clock, if the calendar holds it. -/
def reading (t : Timeline) : Except Overflow Instant :=
  let now := t.clock.plus (.millis t.slept)
  if now.inCalendar then .ok now else .error .clock

def advance (t : Timeline) (span : Span) : Except Overflow Timeline :=
  match t.clock.advance? span with
  | some clock => .ok { t with clock }
  | none => .error .clock

def set (t : Timeline) (clock : Instant) : Timeline := { t with clock }

/-- The timeline with a sweep that first falls due one period from now. -/
def startSweeps (t : Timeline) (period : Nat) : Timeline :=
  { t with sweeps := some ⟨period, t.slept + period⟩ }

def stopSweeps (t : Timeline) : Timeline := { t with sweeps := none }

/-- Sleeps until `target` milliseconds were slept altogether.  The answer has the readings at which
a sweep fell due on the way. -/
def sleepUntil (t : Timeline) (target : Nat) : Except Overflow (List Instant × Timeline) :=
  match t.sweeps with
  | none => .ok ([], { t with slept := target })
  | some recurring => do
    let (moments, rest) := recurring.dueUntil target
    let readings ← moments.mapM fun moment => reading { t with slept := moment }
    return (readings, { t with slept := target, sweeps := some rest })

end Timeline

end Admission
