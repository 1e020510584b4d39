import Std.Data.ExtTreeMap
import Admission.Bucket.Amount
import Admission.Permits

/-!
# Token buckets

Each key owns a bucket that holds up to `capacity` tokens and refills at `refillRate` tokens per
second.  Refill is applied whenever a key is touched, in fractions of tokens, so slow refill
accumulates.  A key without an entry is a full bucket; it gets an entry once tokens are taken.

Every operation tells whether it changed the stored levels: then `Change.announced` is the new
snapshot for whoever follows the state.
-/

namespace Admission

/-- The size of every bucket and how fast it refills. -/
structure BucketPlan (α : Type) [Amount α] where
  capacity : Count
  refillRate : α
  /-- How long a full bucket is left alone before a sweep may drop it. -/
  idleAfter : Option Span
  capacity_pos : 0 < capacity
  rate_valid : Amount.isRate refillRate = true

/-- The tokens of one key. -/
structure Level (α : Type) where
  tokens : α
  /-- When refill was last applied. -/
  refilled : Instant
deriving Repr

namespace Level

variable {α : Type} [Amount α]

def full (plan : BucketPlan α) (now : Instant) : Level α := ⟨Amount.ofCount plan.capacity, now⟩

/-- The level with the tokens that came in up to `now`.  A clock that went backwards brings none
and does not move the mark of the last refill. -/
def refill (plan : BucketPlan α) (now : Instant) (l : Level α) : Level α :=
  ⟨Amount.clamp (l.tokens + Amount.ofSpan (elapsed l.refilled now) * plan.refillRate)
      (Amount.ofCount plan.capacity),
    if l.refilled < now then now else l.refilled⟩

def whole (l : Level α) : Count := Amount.whole l.tokens

def isFull (plan : BucketPlan α) (l : Level α) : Bool :=
  Amount.ofCount plan.capacity ≤ l.tokens

/-- Whether two levels are equal, which a level that is not a number never is. -/
def same (a b : Level α) : Bool := a.tokens == b.tokens && a.refilled = b.refilled

end Level

/-- The buckets of all keys. -/
structure Buckets (α : Type) [Amount α] where
  plan : BucketPlan α
  levels : Std.ExtTreeMap String (Level α)

/-- Every stored level in order of keys. -/
abbrev Snapshot (α : Type) := List (String × Level α)

/-- The outcome of an operation on buckets. -/
structure Change (α β : Type) [Amount α] where
  after : Buckets α
  answer : β
  /-- The new snapshot, if the stored levels changed. -/
  announced : Option (Snapshot α)

namespace Buckets

variable {α : Type} [Amount α]

def empty (plan : BucketPlan α) : Buckets α := ⟨plan, ∅⟩

def snapshot (b : Buckets α) : Snapshot α := b.levels.toList

end Buckets

/-- The outcome of an operation, announced if it changed something. -/
def Change.of {α β : Type} [Amount α] (after : Buckets α) (answer : β) (changed : Bool) :
    Change α β :=
  ⟨after, answer, if changed then some after.snapshot else none⟩

/-- What a request found and what it got. -/
structure Taken (α : Type) where
  granted : Count
  /-- Tokens there were before the request, refilled to its reading of the clock. -/
  found : α

namespace Buckets

variable {α : Type} [Amount α]

/-- Buckets with the levels of a snapshot, each held between nothing and the capacity. -/
def restore (plan : BucketPlan α) (levels : Snapshot α) : Buckets α :=
  ⟨plan, levels.foldl (fun stored entry =>
    stored.insert entry.1
      { entry.2 with tokens := Amount.clamp entry.2.tokens (Amount.ofCount plan.capacity) }) ∅⟩

/-- Takes `n` tokens for a key, or as many whole tokens as there are if `partly` is set. -/
def take (b : Buckets α) (key : String) (n : Count) (partly : Bool) (now : Instant) :
    Change α (Taken α) :=
  match b.levels[key]? with
  | some level =>
    let refilled := level.refill b.plan now
    let granted := grantable refilled.whole n partly
    let left := { refilled with tokens := refilled.tokens - Amount.ofCount granted }
    Change.of { b with levels := b.levels.insert key left } ⟨granted, refilled.tokens⟩
      (!level.same left)
  | none =>
    let refilled := (Level.full b.plan now).refill b.plan now
    let granted := grantable refilled.whole n partly
    let left := { refilled with tokens := refilled.tokens - Amount.ofCount granted }
    if 0 < granted then
      Change.of { b with levels := b.levels.insert key left } ⟨granted, refilled.tokens⟩ true
    else Change.of b ⟨0, refilled.tokens⟩ false

def available (b : Buckets α) (key : String) (now : Instant) : Count :=
  match b.levels[key]? with
  | some level => (level.refill b.plan now).whole
  | none => b.plan.capacity

/-- Asks for `n` tokens and answers how many were granted. -/
def request (b : Buckets α) (key : String) (n : Count) (partly : Bool) (now : Instant) :
    Change α Count :=
  let change := b.take key n partly now
  ⟨change.after, change.answer.granted, change.announced⟩

/-- Takes exactly `n` tokens or none. -/
def require (b : Buckets α) (key : String) (n : Count) (now : Instant) :
    Change α (Except Denial Count) :=
  let change := b.take key n false now
  let answer :=
    if change.answer.granted < n then
      .error ⟨n, Amount.whole change.answer.found, .bucket key⟩
    else .ok change.answer.granted
  ⟨change.after, answer, change.announced⟩

/-- Asks for `n` tokens and answers with the constraint that was met as well. -/
def acquire (b : Buckets α) (key : String) (n : Count) (partly : Bool) (now : Instant) :
    Change α Permits :=
  let change := b.take key n partly now
  let found := Amount.whole change.answer.found
  let limitedBy := if found < n then some (.bucket key) else none
  ⟨change.after, ⟨n, found, change.answer.granted, limitedBy⟩, change.announced⟩

/-- Puts `n` unused tokens back, up to the capacity.  A key without an entry is full already. -/
def giveBack (b : Buckets α) (key : String) (n : Count) (now : Instant) : Change α Unit :=
  match b.levels[key]? with
  | none => Change.of b () false
  | some level =>
    if n = 0 then Change.of b () false
    else
      let refilled := level.refill b.plan now
      let filled := { refilled with
        tokens := Amount.atMost (refilled.tokens + Amount.ofCount n)
          (Amount.ofCount b.plan.capacity) }
      Change.of { b with levels := b.levels.insert key filled } () (!level.same filled)

/-- Whether a sweep drops a bucket: it is full again and, unless the sweep is forced, it has been
left alone for as long as the plan says. -/
def isSpent (b : Buckets α) (force : Bool) (now : Instant) (level : Level α) : Bool :=
  (force || b.plan.idleAfter.any fun idle => idle ≤ elapsed level.refilled now) &&
    (level.refill b.plan now).isFull b.plan

/-- Drops full buckets and answers how many; nothing is known of a key that is not known of a full
bucket. -/
def sweep (b : Buckets α) (force : Bool) (now : Instant) : Change α Nat :=
  let kept := b.levels.filter fun _ level => !b.isSpent force now level
  let dropped := b.levels.size - kept.size
  Change.of { b with levels := kept } dropped (0 < dropped)

end Buckets

/-- Buckets with all that they have announced, in order. -/
structure Announcing (α : Type) [Amount α] where
  buckets : Buckets α
  announced : List (Snapshot α)

/-- What an operation on the buckets leads to, and its answer. -/
def Announcing.after {α β : Type} [Amount α] (a : Announcing α) (change : Change α β) :
    Announcing α × β :=
  (⟨change.after, a.announced ++ change.announced.toList⟩, change.answer)

end Admission
