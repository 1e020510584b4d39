import Admission.Count
import Admission.Time

/-!
# Window cells

A window cell counts the permits granted under one key.  It does not know its limit: `used` tells
what still counts at a reading of the clock, `record` adds a grant and `giveBack` takes permits
away again.  A grant counts for exactly one window: one that was made a whole window ago is gone.

* A sliding cell keeps every grant with its own stamp.  The clock may go backwards, so the log is
  kept in order of stamps and not of arrival.
* A fixed cell keeps one running count that starts with the first grant after the previous window
  and expires as a whole.
-/

namespace Admission

/-- How a cell decides which of its grants still count. -/
inductive WindowPolicy where
  | sliding
  | fixed
deriving DecidableEq, Repr, Inhabited

namespace WindowPolicy

/-- The name of a policy in configuration and in a grant history. -/
def name : WindowPolicy → String
  | sliding => "sliding"
  | fixed => "fixed"

def all : List WindowPolicy := [sliding, fixed]

def ofName? (text : String) : Option WindowPolicy := all.find? fun policy => policy.name = text

def title : WindowPolicy → String
  | sliding => "Sliding"
  | fixed => "Fixed"

end WindowPolicy

/-- Permits granted at one instant. -/
structure Grant where
  stamp : Instant
  permits : Count
deriving DecidableEq, Repr, Inhabited

/-- Whether a grant still counts against `window` at `now`. -/
def Grant.counts (now : Instant) (window : Span) (g : Grant) : Bool := elapsed g.stamp now < window

def Grant.total (grants : List Grant) : Count :=
  grants.foldl (fun sum g => Count.plus sum g.permits) 0

/-- The grants counted under one key. -/
inductive WindowCell where
  /-- Grants in order of their stamps, no two with the same stamp. -/
  | sliding (log : List Grant)
  /-- The start of the current window with the permits counted in it, if one was ever started. -/
  | fixed (window : Option Grant)
deriving DecidableEq, Repr, Inhabited

/-- The log with `permits` added at `now`: to the grant of that instant if there is one, else as
a grant of its own before the first later one. -/
def Grant.insert (now : Instant) (permits : Count) : List Grant → List Grant
  | [] => [⟨now, permits⟩]
  | g :: rest =>
    if g.stamp < now then g :: Grant.insert now permits rest
    else if g.stamp = now then ⟨g.stamp, Count.plus g.permits permits⟩ :: rest
    else ⟨now, permits⟩ :: g :: rest

/-- Takes up to `permits` from the grants of a log listed newest first, going back no further than
the first grant that no longer counts. -/
def Grant.takeBack (now : Instant) (window : Span) : Count → List Grant → List Grant
  | _, [] => []
  | permits, g :: rest =>
    if permits = 0 ∨ ¬ g.counts now window then g :: rest
    else
      let taken := min permits g.permits
      ⟨g.stamp, g.permits - taken⟩ :: Grant.takeBack now window (permits - taken) rest

namespace WindowCell

def empty : WindowPolicy → WindowCell
  | .sliding => .sliding []
  | .fixed => .fixed none

/-- The grants that still count at `now`, oldest first.  A fixed window is one grant at its start.
Recording them into an empty cell brings the usage back. -/
def grants (now : Instant) (window : Span) : WindowCell → List Grant
  | sliding log => log.filter (Grant.counts now window)
  | fixed none => []
  | fixed (some g) => if 0 < g.permits ∧ g.counts now window then [g] else []

/-- The permits counted against `window` at `now`. -/
def used (now : Instant) (window : Span) : WindowCell → Count
  | sliding log => Grant.total (log.filter (Grant.counts now window))
  | fixed none => 0
  | fixed (some g) => if g.counts now window then g.permits else 0

/-- Counts `permits` granted at `now`. -/
def record (now : Instant) (window : Span) (permits : Count) : WindowCell → WindowCell
  | sliding log =>
    sliding (Grant.insert now permits (log.dropWhile fun g => !g.counts now window))
  | fixed none => fixed (some ⟨now, permits⟩)
  | fixed (some g) =>
    if g.counts now window then fixed (some ⟨g.stamp, Count.plus g.permits permits⟩)
    else fixed (some ⟨now, permits⟩)

/-- Takes back up to `permits` that count at `now`, newest grants first. -/
def giveBack (now : Instant) (window : Span) (permits : Count) : WindowCell → WindowCell
  | sliding log =>
    sliding ((Grant.takeBack now window permits log.reverse).reverse.filter (0 < ·.permits))
  | fixed none => fixed none
  | fixed (some g) =>
    if g.counts now window then fixed (some ⟨g.stamp, Count.minus g.permits permits⟩)
    else fixed (some g)

def isDrained (now : Instant) (window : Span) (cell : WindowCell) : Bool :=
  cell.used now window = 0

/-- The stamp of the oldest grant that still counts.  A fixed window counts until it is over, also
when all its permits were given back. -/
def oldest? (now : Instant) (window : Span) : WindowCell → Option Instant
  | sliding log => (log.find? (Grant.counts now window)).map (·.stamp)
  | fixed none => none
  | fixed (some g) => if g.counts now window then some g.stamp else none

/-- How long a grant made at `stamp` counts from `now` on.  A grant of the future counts for its
whole window, starting at its stamp. -/
def remaining (stamp now : Instant) (window : Span) : Span :=
  (window.minus (elapsed stamp now)).plus (elapsed now stamp)

/-- The time until the oldest counted grant stops counting, if any counts. -/
def nextExpiry? (now : Instant) (window : Span) (cell : WindowCell) : Option Span :=
  (cell.oldest? now window).map fun stamp => remaining stamp now window

end WindowCell

end Admission
