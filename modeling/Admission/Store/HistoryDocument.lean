import Admission.RuleSet.Document
import Admission.Store.History
import Admission.Time.Stamp

/-!
# Grant histories as documents

A history is kept as a document from one run to the next.  `GrantHistory.toDocument` writes it and
`GrantHistory.ofDocument?` reads it back; the policy may be missing and is then the sliding one.
-/

namespace Admission

/-- The span that a document stands for: seconds and nanoseconds, both of which are there and
nothing else.  Nanoseconds beyond a second carry over. -/
def Span.ofDocument? (d : Document) : Option Span := do
  let known := match d with
    | .record fields => fields.all fun entry => entry.1 = "secs" || entry.1 = "nanos"
    | _ => true
  match ← d.fields? ["secs", "nanos"] with
  | [some secs, some nanos] =>
    let secs ← secs.natBelow? secondsBound
    let nanos ← nanos.natBelow? Count.bound
    let span := ofParts secs nanos
    if known && span.fits then some span else none
  | _ => none

namespace Grant

/-- A grant as a pair of its stamp and its permits. -/
def toDocument (g : Grant) : Document := .list [.text g.stamp.text, .whole g.permits.toNat]

def ofDocument? : Document → Option Grant
  | .list [stamp, permits] => do
    let stamp ← Instant.parse (← stamp.text?)
    some ⟨stamp, ← permits.count?⟩
  | _ => none

end Grant

namespace CellGrants

def toDocument (c : CellGrants) : Document :=
  .record [("rule", .text c.rule), ("grouping", .text c.grouping), ("group", .ofText? c.group),
    ("window", c.window.toDocument), ("grants", .list (c.grants.map Grant.toDocument))]

def ofDocument? (d : Document) : Option CellGrants := do
  match ← d.fields? ["rule", "grouping", "group", "window", "grants"] with
  | [some rule, some grouping, group, some window, some grants] =>
    let group ← Document.optional? Document.text? group
    let window ← Span.ofDocument? window
    let grants ← (← grants.items?).mapM Grant.ofDocument?
    some ⟨← rule.text?, ← grouping.text?, group, window, grants⟩
  | _ => none

end CellGrants

namespace GrantHistory

def toDocument (h : GrantHistory) : Document :=
  .record [("policy", .text h.policy.name), ("cells", .list (h.cells.map CellGrants.toDocument))]

def ofDocument? (d : Document) : Option GrantHistory := do
  match ← d.fields? ["policy", "cells"] with
  | [policy, some cells] =>
    let policy ← Document.withDefault?
      (fun d => do WindowPolicy.ofName? (← d.choice?)) .sliding policy
    let cells ← (← cells.items?).mapM CellGrants.ofDocument?
    some ⟨policy, cells⟩
  | _ => none

end GrantHistory

end Admission
