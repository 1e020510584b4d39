import Admission.Surface

/-!
# Limiters that follow a feed

A follower is the limiter behind a live subscription: on every call it goes by the rules in force,
and it counts in its own store.  What it does leaves the rules and the other followers alone.
-/

namespace Admission

/-- A feed and the number of a live subscription to it. -/
structure Follower (ω : Type) where
  feed : RuleFeed ω
  id : Nat
  live : (feed.subscriber? id).isSome = true

namespace Follower

variable {ω : Type}

/-- The limiter that a follower is for now: the rules in force with its own store. -/
def limiter (f : Follower ω) : Limiter ω := ⟨f.feed.current, (f.feed.subscriber? f.id).get f.live⟩

/-- The follower with the store of a limiter. -/
def put (f : Follower ω) (limiter : Limiter ω) : Follower ω where
  feed := f.feed.put f.id limiter
  id := f.id
  live := by
    unfold RuleFeed.put
    rw [Watched.subscriber?_modify, Option.isSome_map]
    exact f.live

/-- Asks for up to `n` permits under the rules in force. -/
def request (f : Follower ω) (op : ω) (n : Count) (partly : Bool) (now : Instant) :
    Follower ω × Permits :=
  let (limiter, permits) := f.limiter.request op n partly now
  (f.put limiter, permits)

/-- Takes exactly `n` permits or fails with the first violated rate. -/
def requireMany (f : Follower ω) (op : ω) (n : Count) (now : Instant) :
    Follower ω × Except Denial Count :=
  let (limiter, answer) := f.limiter.requireMany op n now
  (f.put limiter, answer)

/-- Takes one permit or fails with the first violated rate. -/
def requireOne (f : Follower ω) (op : ω) (now : Instant) : Follower ω × Except Denial Unit :=
  let (limiter, answer) := f.limiter.requireOne op now
  (f.put limiter, answer)

def available (f : Follower ω) (op : ω) (now : Instant) : Count := f.limiter.available op now

def giveBack (f : Follower ω) (op : ω) (n : Count) (now : Instant) : Follower ω :=
  f.put (f.limiter.giveBack op n now)

end Follower

instance {ω : Type} : Surface (Follower ω) ω where
  available := Follower.available
  acquire := Follower.request
  giveBack := Follower.giveBack

end Admission
