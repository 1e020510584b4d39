import Std.Data.ExtTreeMap
import Admission.Permits
import Admission.Window

/-!
# The cell store

The store holds one window cell for each combination of rule, grouping, group and window.  Cells
are found by these names and not through rule values, so a store outlives any rule list: a rate
that is raised or lowered keeps what was already counted, and a rule that vanishes and returns
finds its old usage.

`acquire` tests every rate that an operation implicates and then commits to all of their cells or
to none.  Rates that share a cell, which are rates of one grouping with one window, count a grant
once.
-/

namespace Admission

/-- What identifies a cell. -/
structure CellKey where
  rule : String
  grouping : String
  group : GroupKey
  window : Span
deriving DecidableEq, Repr

namespace CellKey

/-- Cells are ordered by rule, grouping, group and window. -/
instance : Ord CellKey where
  compare := compareLex (compareOn rule)
    (compareLex (compareOn grouping) (compareLex (compareOn group) (compareOn window)))

instance : Std.TransOrd CellKey :=
  inferInstanceAs (Std.TransCmp (compareLex (compareOn rule)
    (compareLex (compareOn grouping) (compareLex (compareOn group) (compareOn window)))))

instance : Std.LawfulEqOrd CellKey where
  eq_of_compare {a b} h := by
    have h : ((compare a.rule b.rule).then ((compare a.grouping b.grouping).then
        ((compare a.group b.group).then (compare a.window b.window)))) = .eq := h
    simp only [Ordering.then_eq_eq, Std.compare_eq_iff_eq] at h
    cases a; cases b
    simp_all

end CellKey

/-- One rate that an operation has to pass. -/
structure Check where
  rule : String
  grouping : String
  group : GroupKey
  /-- The place of the rate in its grouping. -/
  index : Nat
  rate : BurstRate
deriving DecidableEq, Repr

namespace Check

def key (c : Check) : CellKey := ⟨c.rule, c.grouping, c.group, c.rate.window⟩

def violation (c : Check) : Violation := .rate c.rule c.grouping c.index c.group c.rate

end Check

def Grouping.checks {ω : Type} (rule : String) (grouping : Grouping ω) (op : ω) : List Check :=
  grouping.rates.mapIdx fun index rate =>
    ⟨rule, grouping.name, grouping.groupOf op, index, rate⟩

/-- The checks of one rule, none if it does not apply. -/
def Rule.checks {ω : Type} (rule : Rule ω) (op : ω) : List Check :=
  if rule.appliesTo op then rule.groupings.flatMap fun grouping => grouping.checks rule.name op
  else []

/-- Every rate that an operation has to pass, in order of rule, grouping and rate. -/
def checks {ω : Type} (rules : List (Rule ω)) (op : ω) : List Check :=
  rules.flatMap fun rule => rule.checks op

/-- The cells that an operation counts in, each once. -/
def implicated {ω : Type} (rules : List (Rule ω)) (op : ω) : List CellKey :=
  ((checks rules op).map Check.key).eraseDups

/-- The cells of one window policy. -/
structure Store where
  policy : WindowPolicy
  cells : Std.ExtTreeMap CellKey WindowCell

namespace Store

def empty (policy : WindowPolicy) : Store := ⟨policy, ∅⟩

/-- The permits that a cell counts at `now`, none if there is no such cell. -/
def used (s : Store) (now : Instant) (key : CellKey) : Count :=
  match s.cells[key]? with
  | some cell => cell.used now key.window
  | none => 0

/-- The permits that a rate has left at `now`. -/
def left (s : Store) (now : Instant) (c : Check) : Count :=
  Count.minus c.rate.permits (s.used now c.key)

/-- The permits that every one of the checks has left, without limit where there is none. -/
def room (s : Store) (now : Instant) (cs : List Check) : Count :=
  (cs.map (s.left now)).foldl min .most

/-- The store with an empty cell under every key that had none. -/
def create (s : Store) (keys : List CellKey) : Store :=
  { s with cells := keys.foldl (fun cells key => cells.insertIfNew key (.empty s.policy)) s.cells }

/-- The store after `f` has changed the cells under the given keys. -/
def update (s : Store) (keys : List CellKey) (f : CellKey → WindowCell → WindowCell) : Store :=
  { s with cells := keys.foldl (fun cells key => cells.modify key (f key)) s.cells }

variable {ω : Type}

/-- Permits that an operation could take, without limit if no rate is implicated. -/
def available (s : Store) (rules : List (Rule ω)) (op : ω) (now : Instant) : Count :=
  s.room now (checks rules op)

/-- Asks for `n` permits.  If the tightest rate leaves fewer, the answer is what it leaves when
`partly` is set, and nothing otherwise.  What is granted is counted in every implicated cell;
cells come into being when they are first asked. -/
def acquire (s : Store) (rules : List (Rule ω)) (op : ω) (n : Count) (partly : Bool)
    (now : Instant) : Store × Permits :=
  if (checks rules op).isEmpty then (s, .unlimited n)
  else
    let available := s.available rules op now
    let granted := grantable available n partly
    let opened := s.create (implicated rules op)
    let committed :=
      if 0 < granted then
        opened.update (implicated rules op) fun key cell => cell.record now key.window granted
      else opened
    let tight := (checks rules op).find? fun check => s.left now check < n
    (committed, ⟨n, available, granted, tight.map Check.violation⟩)

/-- Takes back `n` permits in every implicated cell that exists. -/
def giveBack (s : Store) (rules : List (Rule ω)) (op : ω) (n : Count) (now : Instant) : Store :=
  if n = 0 then s
  else s.update (implicated rules op) fun key cell => cell.giveBack now key.window n

/-- The store without the cells in which nothing counts at `now`. -/
def sweep (s : Store) (now : Instant) : Store :=
  { s with cells := s.cells.filter fun key cell => !cell.isDrained now key.window }

def drained (s : Store) (now : Instant) : Nat := s.cells.size - (s.sweep now).cells.size

end Store

end Admission
