import Admission.Bucket
import Admission.Limiter
import Admission.RuleSet

/-!
# The gate

A gate admits an operation if the bucket of its domain, where there are buckets, has a token for it
and every rule has a permit.  A token taken for an operation that the rules deny is put back.
-/

namespace Admission

/-- The readings of the clock while an operation is asked about: by the bucket, by the rules, and by
the bucket again if its token is put back. -/
structure Readings where
  bucket : Instant
  rules : Instant
  back : Instant
deriving DecidableEq, Repr

/-- The readings of a clock that stands still. -/
def Readings.frozen (now : Instant) : Readings := ⟨now, now, now⟩

/-- Buckets by domain, if there are any, and rules behind them. -/
structure Gate (α : Type) [Amount α] where
  buckets : Option (Buckets α)
  limiter : Limiter Descriptor

namespace Gate

variable {α : Type} [Amount α]

def askRules (g : Gate α) (d : Descriptor) (now : Instant) : Gate α × Except Denial Unit :=
  let (limiter, answer) := g.limiter.requireOne d now
  ({ g with limiter }, answer)

/-- Admits an operation or says what was in its way. -/
def askAt (g : Gate α) (d : Descriptor) (readings : Readings) : Gate α × Except Denial Unit :=
  match g.buckets with
  | none => g.askRules d readings.rules
  | some buckets =>
    let taken := buckets.require d.domain 1 readings.bucket
    match taken.answer with
    | .error denial => ({ g with buckets := some taken.after }, .error denial)
    | .ok _ =>
      match { g with buckets := some taken.after }.askRules d readings.rules with
      | (asked, .ok ()) => (asked, .ok ())
      | (asked, .error denial) =>
        ({ asked with buckets := some (taken.after.giveBack d.domain 1 readings.back).after },
          .error denial)

/-- Admits an operation while the clock stands still. -/
def ask (g : Gate α) (d : Descriptor) (now : Instant) : Gate α × Except Denial Unit :=
  g.askAt d (.frozen now)

/-- Drops the buckets that are full and idle. -/
def sweepBuckets (g : Gate α) (now : Instant) : Gate α :=
  { g with buckets := g.buckets.map fun buckets => (buckets.sweep false now).after }

/-- Drops the cells in which nothing counts. -/
def sweepRules (g : Gate α) (now : Instant) : Gate α :=
  { g with limiter := (g.limiter.sweep now).1 }

/-- Replaces the rules; what was counted stays, apart from what no longer counts. -/
def publish (g : Gate α) (rules : List (Rule Descriptor)) (now : Instant) : Gate α :=
  { g with limiter := ⟨rules, (g.limiter.sweep now).1.store⟩ }

end Gate

end Admission
