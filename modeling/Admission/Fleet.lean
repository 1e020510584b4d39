import Admission.Limiter

/-!
# Fleets of limiters

A fleet is a watched rule list with everything that subscribes to it: limiters, each of which
counts in a store of its own, and whatever else there is.  A limiter holds on to two things, its
store and its subscription.  They are apart: the subscription refers to the place of a store, and
sweeps what is there whenever the rules are replaced, whoever counts in it.  Building a limiter
anew therefore has to end the old subscription, which still refers to the old store.

Stores keep their places, and limiters are known by the order in which they were created.
-/

namespace Admission

/-- What a subscriber does when the rules are replaced. -/
inductive Reaction (σ : Type) where
  /-- Sweeps the store at a place. -/
  | sweep (place : Nat)
  /-- Something else, with a state of its own. -/
  | other (s : σ)

namespace Reaction

variable {ω σ : Type}

def place? : Reaction σ → Option Nat
  | sweep place => some place
  | other _ => none

/-- A subscriber that was told the new rules; the stores are not a part of it. -/
def told (react : List (Rule ω) → σ → σ) (rules : List (Rule ω)) : Reaction σ → Reaction σ
  | sweep place => sweep place
  | other s => other (react rules s)

end Reaction

/-- What a limiter owns: the place of its store, and the number of its subscription. -/
structure Holding where
  place : Nat
  subscription : Nat
deriving DecidableEq

/-- Limiters that follow one watched rule list, and other subscribers with states of type `σ`. -/
structure Fleet (ω σ : Type) where
  feed : Watched (List (Rule ω)) (Reaction σ)
  stores : List Store
  /-- The holdings of every limiter that was created; it has none once it was discarded. -/
  limiters : List (Option Holding)

namespace Fleet

variable {ω σ : Type}

def new (rules : List (Rule ω)) : Fleet ω σ := ⟨.new rules, [], []⟩

/-- What the limiter with a name owns, if it has not been discarded. -/
def holding? (f : Fleet ω σ) (name : Nat) : Option Holding := f.limiters[name]?.join

/-- The limiter with a name as it stands: the rules in force with its store. -/
def limiter? (f : Fleet ω σ) (name : Nat) : Option (Limiter ω) :=
  (f.holding? name).bind fun h => f.stores[h.place]?.map fun store => ⟨f.feed.current, store⟩

/-- Writes back the store of a limiter that was used. -/
def put (f : Fleet ω σ) (name : Nat) (limiter : Limiter ω) : Fleet ω σ :=
  match f.holding? name with
  | some h => { f with stores := f.stores.set h.place limiter.store }
  | none => f

/-! ## Limiters come and go -/

/-- Builds a limiter under a name: a new store, and a subscription that sweeps it. -/
def install (f : Fleet ω σ) (name : Nat) (policy : WindowPolicy) : Fleet ω σ :=
  let place := f.stores.length
  let (subscription, feed) := f.feed.subscribe (.sweep place)
  { feed
    stores := f.stores ++ [.empty policy]
    limiters := f.limiters.set name (some ⟨place, subscription⟩) }

/-- A new limiter, with the next name. -/
def create (f : Fleet ω σ) (policy : WindowPolicy) : Fleet ω σ :=
  { f with limiters := f.limiters ++ [none] }.install f.limiters.length policy

/-- Drops a limiter, and with it the subscription that it owns. -/
def discard (f : Fleet ω σ) (name : Nat) : Fleet ω σ :=
  match f.holding? name with
  | some h =>
    { f with
      feed := f.feed.unsubscribe h.subscription
      limiters := f.limiters.set name none }
  | none => f

/-- Builds a limiter anew with another policy, under its name. -/
def rebuild (f : Fleet ω σ) (name : Nat) (policy : WindowPolicy) : Fleet ω σ :=
  match f.holding? name with
  | some _ => (f.discard name).install name policy
  | none => f

/-! ## The rules and other subscribers -/

/-- The places that are swept when the rules are replaced. -/
def places (f : Fleet ω σ) : List Nat := f.feed.subscribers.filterMap fun entry => entry.2.place?

/-- Replaces the rules: one subscriber after the other is told.  In which order they sweep does not
matter, as long as no two of them sweep one store. -/
def publish (react : List (Rule ω) → σ → σ) (f : Fleet ω σ) (rules : List (Rule ω))
    (now : Instant) : Fleet ω σ :=
  { f with
    feed := f.feed.set (Reaction.told react) rules
    stores := f.places.foldl (fun stores place => stores.modify place (·.sweep now)) f.stores }

def subscribe (f : Fleet ω σ) (s : σ) : Fleet ω σ :=
  { f with feed := (f.feed.subscribe (.other s)).2 }

/-- Drops a subscription that belongs to no limiter. -/
def unsubscribe (f : Fleet ω σ) (id : Nat) : Fleet ω σ :=
  match f.feed.subscriber? id with
  | some (.other _) => { f with feed := f.feed.unsubscribe id }
  | _ => f

end Fleet

end Admission
