import Admission.Bucket
import Admission.Timeline

/-!
# Waiting for tokens

Whoever waits for tokens tries to take them and, if there are too few, sleeps for as long as the
missing tokens need to come in and tries again.  A single sleep lasts from one millisecond to one
hour.  Only the attempt that succeeds takes tokens, and the caller is told once that it has to
wait, after the first attempt that fails.
-/

namespace Admission

namespace Buckets

variable {α : Type} [Amount α]

def shortestSleep : Span := .millis 1

/-- The longest single sleep; the bucket is looked at again after it. -/
def longestSleep : Span := .seconds 3600

/-- The time that `missing` tokens need to come in, held between the shortest and the longest
sleep. -/
def refillDelay (missing refillRate : α) : Span :=
  (Amount.toSpan (missing / refillRate)).clamp shortestSleep longestSleep

theorem one_le_ceilMillis_refillDelay (missing refillRate : α) :
    1 ≤ (refillDelay missing refillRate).ceilMillis := by
  unfold refillDelay Span.clamp
  have low : 1000000 ≤ shortestSleep.nanos := Nat.le_refl _
  have high : 1000000 ≤ longestSleep.nanos := by decide
  split
  · simp only [Span.ceilMillis]; omega
  · next h =>
    split
    · simp only [Span.ceilMillis]; omega
    · have : ¬ (Amount.toSpan (missing / refillRate)).nanos < shortestSleep.nanos := h
      simp only [Span.ceilMillis]; omega

/-- One attempt of a waiting caller: all `n` tokens, or the time to sleep before the next. -/
def attempt (b : Buckets α) (key : String) (n : Count) (now : Instant) :
    Change α (Option Span) :=
  let change := b.take key n false now
  let answer :=
    if change.answer.granted = n then none
    else some (refillDelay (Amount.ofCount n - change.answer.found) b.plan.refillRate)
  ⟨change.after, answer, change.announced⟩

theorem one_le_ceilMillis_attempt {b : Buckets α} {key : String} {n : Count} {now : Instant}
    {delay : Span} (h : (b.attempt key n now).answer = some delay) : 1 ≤ delay.ceilMillis := by
  simp only [attempt] at h
  split at h
  · cases h
  · cases h
    exact one_le_ceilMillis_refillDelay _ _

end Buckets

/-- How a wait ended. -/
inductive WaitEnd where
  /-- All tokens were taken. -/
  | granted
  /-- The time that was allowed ran out during a sleep. -/
  | timedOut
  /-- More tokens were asked for than a bucket can hold. -/
  | beyondCapacity
deriving DecidableEq, Repr

/-- A wait as it goes on: the buckets, the clock, and how often the caller was told to wait. -/
structure Wait (α : Type) [Amount α] where
  buckets : Announcing α
  timeline : Timeline
  told : Nat

namespace Wait

variable {α : Type} [Amount α]

/-- The wait after the sweeps that fell due at some readings of the clock. -/
def sweepAt (w : Wait α) (readings : List Instant) : Wait α :=
  { w with
    buckets := readings.foldl (fun b now => (b.after (b.buckets.sweep false now)).1) w.buckets }

/-- The wait after a sleep until `target` milliseconds were slept altogether. -/
def sleepUntil (w : Wait α) (target : Nat) : Except Overflow (Wait α) := do
  let (readings, timeline) ← w.timeline.sleepUntil target
  return { w.sweepAt readings with timeline }

/-- Tries and sleeps until the tokens are there or the time is up.  `left` counts the milliseconds
up to the deadline, of which every sleep but the last uses at least one.  An attempt at the very
deadline still counts. -/
def run (key : String) (n : Count) : (left : Nat) → Wait α → Except Overflow (Wait α × WaitEnd)
  | left, w => do
    let now ← w.timeline.reading
    let change := w.buckets.buckets.attempt key n now
    let w := { w with buckets := (w.buckets.after change).1 }
    match h : change.answer with
    | none => return (w, .granted)
    | some delay =>
      have := Buckets.one_le_ceilMillis_attempt h
      let w := { w with told := 1 }
      let pause := delay.ceilMillis
      if _le : pause ≤ left then
        let w ← w.sleepUntil (w.timeline.slept + pause)
        run key n (left - pause) w
      else
        let w ← w.sleepUntil (w.timeline.slept + left)
        return (w, .timedOut)
termination_by left => left
decreasing_by omega

/-- Waits for `n` tokens of a key, at most `timeout` milliseconds long.  Nothing happens if no
bucket can hold as many. -/
def start (key : String) (n : Count) (timeout : Nat) (w : Wait α) :
    Except Overflow (Wait α × WaitEnd) :=
  if w.buckets.buckets.plan.capacity < n then .ok (w, .beyondCapacity) else run key n timeout w

end Wait

end Admission
