import Admission.Bucket
import Admission.Fault

/-!
# Making bucket plans

A plan holds proofs that its capacity is not zero and its refill rate positive and finite.  Where
these numbers come from outside, `BucketPlan.make` tests them.
-/

namespace Admission

/-- The plan of a capacity and a refill rate, if they make one; the capacity is looked at first. -/
def BucketPlan.make (capacity : Count) (refillRate : Float) (idleAfter : Option Span) :
    Except Fault (BucketPlan Float) :=
  if hc : 0 < capacity then
    if hr : Amount.isRate refillRate = true then .ok ⟨capacity, refillRate, idleAfter, hc, hr⟩
    else .error (.argument (.refillRate refillRate))
  else .error (.argument .noCapacity)

end Admission
