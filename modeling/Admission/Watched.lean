/-!
# Watched values

A watched value can be read at any time and tells its subscribers when it is replaced.  Each
subscriber is a state of its own: `set` stores the new value and lets every subscriber react to it.
A subscription is known by its number, which is never given out twice, and lasts until it is
dropped.
-/

namespace Admission

/-- A value of type `α` with subscribers whose states have type `σ`. -/
structure Watched (α σ : Type) where
  current : α
  /-- The number of every live subscription with its subscriber, in order of subscribing. -/
  subscribers : List (Nat × σ)
  /-- The number of the next subscription.  It has no bound here, where a counter of 64 bits would
  give out a number again after `2 ^ 64` subscriptions. -/
  nextId : Nat

namespace Watched

variable {α σ : Type}

def new (value : α) : Watched α σ := ⟨value, [], 0⟩

def count (w : Watched α σ) : Nat := w.subscribers.length

/-- Adds a subscriber; the answer has the number of its subscription. -/
def subscribe (w : Watched α σ) (subscriber : σ) : Nat × Watched α σ :=
  (w.nextId,
    { w with subscribers := w.subscribers ++ [(w.nextId, subscriber)], nextId := w.nextId + 1 })

def unsubscribe (w : Watched α σ) (id : Nat) : Watched α σ :=
  { w with subscribers := w.subscribers.filter fun entry => entry.1 ≠ id }

def subscriber? (w : Watched α σ) (id : Nat) : Option σ :=
  (w.subscribers.find? fun entry => entry.1 = id).map (·.2)

def modify (w : Watched α σ) (id : Nat) (f : σ → σ) : Watched α σ :=
  { w with subscribers := w.subscribers.map fun entry =>
      if entry.1 = id then (entry.1, f entry.2) else entry }

/-- A subscriber that was changed is found as it was changed. -/
theorem subscriber?_modify (w : Watched α σ) (id : Nat) (f : σ → σ) :
    (w.modify id f).subscriber? id = (w.subscriber? id).map f := by
  unfold subscriber? modify
  dsimp only
  induction w.subscribers with
  | nil => rfl
  | cons entry rest ih =>
    by_cases h : entry.1 = id
    · simp [h]
    · simpa [h, List.find?_cons] using ih

/-- Replaces the value, which all subscribers then see and react to. -/
def set (w : Watched α σ) (react : α → σ → σ) (value : α) : Watched α σ :=
  { w with
    current := value
    subscribers := w.subscribers.map fun entry => (entry.1, react value entry.2) }

/-- Replaces the value by one made from the current value. -/
def update (w : Watched α σ) (react : α → σ → σ) (f : α → α) : Watched α σ :=
  w.set react (f w.current)

end Watched

end Admission
