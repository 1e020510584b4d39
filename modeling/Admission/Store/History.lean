import Admission.Store

/-!
# Grant histories

A grant history carries usage across restarts: it lists the grants that every cell still counts,
and a fresh store of the same policy can count them again.  Grants are added on top of what the
store already counts, each at its own stamp.
-/

namespace Admission

/-- The grants of one cell, oldest first. -/
structure CellGrants where
  rule : String
  grouping : String
  /-- The value of the group, absent for the undivided group. -/
  group : Option String
  window : Span
  grants : List Grant
deriving DecidableEq, Repr

def CellGrants.key (c : CellGrants) : CellKey :=
  ⟨c.rule, c.grouping, .ofValue? c.group, c.window⟩

/-- The entries that count at `now`. -/
def CellGrants.live (c : CellGrants) (now : Instant) : List Grant :=
  c.grants.filter fun g => 0 < g.permits && g.counts now c.window

/-- The grants that a store counts. -/
structure GrantHistory where
  policy : WindowPolicy
  cells : List CellGrants
deriving DecidableEq, Repr

def GrantHistory.none : GrantHistory := ⟨.sliding, []⟩

namespace Store

/-- The grants of one cell that still count, if any do. -/
def cellGrants? (now : Instant) (key : CellKey) (cell : WindowCell) : Option CellGrants :=
  match cell.grants now key.window with
  | [] => Option.none
  | grants => some ⟨key.rule, key.grouping, key.group.value?, key.window, grants⟩

/-- The grants that still count, cell by cell in order. -/
def history (s : Store) (now : Instant) : GrantHistory :=
  ⟨s.policy, s.cells.toList.filterMap fun entry => cellGrants? now entry.1 entry.2⟩

/-- The store with the live grants of one cell recorded, each at its own stamp. -/
def addCell (s : Store) (now : Instant) (c : CellGrants) : Store :=
  match c.live now with
  | [] => s
  | live => (s.create [c.key]).update [c.key] fun key cell =>
      live.foldl (fun cell g => cell.record g.stamp key.window g.permits) cell

/-- The store with the live grants of a history counted on top of its own, and their number.
There is none if the history was taken under the other policy. -/
def addHistory? (s : Store) (h : GrantHistory) (now : Instant) : Option (Store × Nat) :=
  if h.policy = s.policy then
    some (h.cells.foldl (fun s c => s.addCell now c) s,
      (h.cells.flatMap fun c => c.live now).length)
  else Option.none

end Store

end Admission
