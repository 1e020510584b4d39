import Admission.Bucket
import Admission.Limiter

/-!
# The common surface of limiters

Every kind of limiter can be asked what is available, asked for permits, and given permits back.
From these, `Surface.require` takes all of a number of permits or fails with the constraint that
was in the way.
-/

namespace Admission

/-- A limiter with state `σ` for operations of type `ω`. -/
class Surface (σ ω : Type) where
  available : σ → ω → Instant → Count
  acquire : σ → ω → Count → Bool → Instant → σ × Permits
  giveBack : σ → ω → Count → Instant → σ

/-- Takes exactly `n` permits or fails with the violated constraint. -/
def Surface.require {σ ω : Type} [Surface σ ω] (s : σ) (op : ω) (n : Count) (now : Instant) :
    σ × Except Denial Permits :=
  let (after, permits) := Surface.acquire s op n false now
  match permits.denial? n with
  | some denial => (after, .error denial)
  | none => (after, .ok permits)

instance {ω : Type} : Surface (Limiter ω) ω where
  available := Limiter.available
  acquire := Limiter.request
  giveBack := Limiter.giveBack

instance {α : Type} [Amount α] : Surface (Buckets α) String where
  available := Buckets.available
  acquire b key n partly now :=
    let change := b.acquire key n partly now
    (change.after, change.answer)
  giveBack b key n now := (b.giveBack key n now).after

instance {α : Type} [Amount α] : Surface (Announcing α) String where
  available a key now := a.buckets.available key now
  acquire a key n partly now := a.after (a.buckets.acquire key n partly now)
  giveBack a key n now := (a.after (a.buckets.giveBack key n now)).1

/-- A limiter that grants everything, for when limiting is switched off. -/
structure Unlimited where
deriving DecidableEq, Repr

instance {ω : Type} : Surface Unlimited ω where
  available _ _ _ := .most
  acquire u _ n _ _ := (u, .unlimited n)
  giveBack u _ _ _ := u

end Admission
