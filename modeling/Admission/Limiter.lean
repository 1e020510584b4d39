import Admission.Store.View
import Admission.Store.History
import Admission.Watched

/-!
# Rule-based limiters

A limiter is a rule list with the store that its grants are counted in.  The rules may also come
from a watched value: then every limiter that follows it is a subscriber with a store of its own,
reads the current rules on every call, and sweeps its store whenever the rules are replaced.
-/

namespace Admission

/-- Rules and the store that their grants are counted in. -/
structure Limiter (ω : Type) where
  rules : List (Rule ω)
  store : Store

namespace Limiter

variable {ω : Type}

def new (rules : List (Rule ω)) (policy : WindowPolicy) : Limiter ω := ⟨rules, .empty policy⟩

/-- Asks for up to `n` permits. -/
def request (l : Limiter ω) (op : ω) (n : Count) (partly : Bool) (now : Instant) :
    Limiter ω × Permits :=
  let (store, permits) := l.store.acquire l.rules op n partly now
  ({ l with store }, permits)

/-- Takes exactly `n` permits or fails with the first violated rate. -/
def requireMany (l : Limiter ω) (op : ω) (n : Count) (now : Instant) :
    Limiter ω × Except Denial Count :=
  let (limiter, permits) := l.request op n false now
  match permits.denial? n with
  | some denial => (limiter, .error denial)
  | none => (limiter, .ok permits.granted)

/-- Takes one permit or fails with the first violated rate. -/
def requireOne (l : Limiter ω) (op : ω) (now : Instant) : Limiter ω × Except Denial Unit :=
  let (limiter, answer) := l.requireMany op 1 now
  (limiter, answer.map fun _ => ())

def available (l : Limiter ω) (op : ω) (now : Instant) : Count :=
  l.store.available l.rules op now

def giveBack (l : Limiter ω) (op : ω) (n : Count) (now : Instant) : Limiter ω :=
  { l with store := l.store.giveBack l.rules op n now }

/-- Drops the cells in which nothing counts and answers how many there were. -/
def sweep (l : Limiter ω) (now : Instant) : Limiter ω × Nat :=
  ({ l with store := l.store.sweep now }, l.store.drained now)

end Limiter

/-- Rules that limiters follow, each with its own store. -/
abbrev RuleFeed (ω : Type) := Watched (List (Rule ω)) Store

namespace RuleFeed

variable {ω : Type}

/-- A new limiter that follows the feed, known by the number of its subscription. -/
def follow (feed : RuleFeed ω) (policy : WindowPolicy) : Nat × RuleFeed ω :=
  feed.subscribe (.empty policy)

/-- A limiter built anew with another policy: its old subscription ends and a fresh store takes
the place of the old one. -/
def rebuild (feed : RuleFeed ω) (id : Nat) (policy : WindowPolicy) : Nat × RuleFeed ω :=
  RuleFeed.follow (Watched.unsubscribe feed id) policy

/-- Replaces the rules; every store that follows them is swept. -/
def publish (feed : RuleFeed ω) (rules : List (Rule ω)) (now : Instant) : RuleFeed ω :=
  feed.set (fun _ store => store.sweep now) rules

/-- The limiter with a number, as it stands. -/
def limiter? (feed : RuleFeed ω) (id : Nat) : Option (Limiter ω) :=
  (feed.subscriber? id).map fun store => ⟨feed.current, store⟩

def put (feed : RuleFeed ω) (id : Nat) (limiter : Limiter ω) : RuleFeed ω :=
  feed.modify id fun _ => limiter.store

end RuleFeed

end Admission
