import Admission.Watched

/-!
# Named handles on a watched value

A registry holds a watched value and handles under names.  A handle is a subscription that writes
down what it receives, an action to be run when the handle is dropped, or nothing at all.  Putting
a handle under a name that is taken drops the handle that was there, after the new one was made.
-/

namespace Admission

/-- What a name in a registry stands for. -/
inductive Handle where
  | subscription (id : Nat)
  /-- Something to be done when the handle is dropped. -/
  | action
  | detached
deriving DecidableEq, Repr

def Handle.isActive : Handle → Bool
  | subscription _ | action => true
  | detached => false

/-- What happened under a name. -/
inductive Happening (α : Type) where
  /-- A subscriber was told `value` while `current` was the value to be read. -/
  | received (name : String) (value current : α)
  /-- The action of a dropped handle ran. -/
  | acted (name : String)
deriving DecidableEq, Repr

/-- A subscriber that writes down what it is told. -/
structure Listener (α : Type) where
  name : String
  heard : List (Happening α)

/-- Writes down a new value, which is also the one to be read by then. -/
def Listener.hear {α : Type} (value : α) (l : Listener α) : Listener α :=
  { l with heard := l.heard ++ [.received l.name value value] }

/-- A watched value with named handles, in order of their names' first use. -/
structure Registry (α : Type) where
  watched : Watched α (Listener α)
  handles : List (String × Handle)
  /-- Names of actions that have run. -/
  acted : List (Happening α)

namespace Registry

variable {α : Type}

def new (value : α) : Registry α := ⟨.new value, [], []⟩

/-- Lets go of a handle that was stored under a name. -/
def dropHandle (r : Registry α) (name : String) : Handle → Registry α
  | .subscription id => { r with watched := r.watched.unsubscribe id }
  | .action => { r with acted := r.acted ++ [.acted name] }
  | .detached => r

/-- Drops what is stored under a name, if anything is. -/
def drop (r : Registry α) (name : String) : Registry α :=
  match r.handles.find? fun entry => entry.1 = name with
  | none => r
  | some (_, handle) =>
    { r with handles := r.handles.filter fun entry => entry.1 ≠ name }.dropHandle name handle

/-- Stores a handle under a name and drops the one it replaces. -/
def put (r : Registry α) (name : String) (handle : Handle) : Registry α :=
  let r := r.drop name
  { r with handles := r.handles ++ [(name, handle)] }

def subscribe (r : Registry α) (name : String) : Registry α :=
  let (id, watched) := r.watched.subscribe ⟨name, []⟩
  { r with watched }.put name (.subscription id)

def set (r : Registry α) (value : α) : Registry α :=
  { r with watched := r.watched.set Listener.hear value }

/-- Replaces the value by one made from it and tells the subscribers. -/
def update (r : Registry α) (f : α → α) : Registry α :=
  { r with watched := r.watched.update Listener.hear f }

/-- Everything that has happened since the last time this was asked, and the registry that has
forgotten it. -/
def collect (r : Registry α) : List (Happening α) × Registry α :=
  (r.acted ++ r.watched.subscribers.flatMap fun entry => entry.2.heard,
    { r with
      acted := []
      watched := { r.watched with
        subscribers := r.watched.subscribers.map fun entry =>
          (entry.1, { entry.2 with heard := [] }) } })

end Registry

end Admission
