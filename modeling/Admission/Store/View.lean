import Admission.Store

/-!
# The view of a store

A view lists every cell in order of its key with what it counts and when the oldest of its grants
expires.  The reset time of a grant stamped far in the future may be a span that cannot be written
down; then there is no view.
-/

namespace Admission

/-- One cell at a reading of the clock. -/
structure CellView where
  key : CellKey
  used : Count
  /-- The time until the oldest counted grant stops counting. -/
  resetsIn : Option Span
deriving DecidableEq, Repr

/-- The reset time of a cell, if it can be written down. -/
def WindowCell.resetTime (cell : WindowCell) (now : Instant) (window : Span) :
    Except Overflow (Option Span) :=
  match cell.nextExpiry? now window with
  | none => .ok none
  | some span => if span.fits then .ok (some span) else .error .span

def CellView.of (now : Instant) (key : CellKey) (cell : WindowCell) : Except Overflow CellView := do
  let resetsIn ← cell.resetTime now key.window
  return ⟨key, cell.used now key.window, resetsIn⟩

def Store.view (s : Store) (now : Instant) : Except Overflow (List CellView) :=
  s.cells.toList.mapM fun entry => CellView.of now entry.1 entry.2

end Admission
