import Admission.Rule

/-!
# Answers to permit requests

A request is answered by `Permits`: what was asked for, what was there, what was granted, and the
constraint that stood in the way.  Where everything or nothing is wanted, the same answer is read
as a `Denial` or a success.
-/

namespace Admission

/-- The constraint that a request ran into. -/
inductive Violation where
  /-- A token bucket held too few tokens. -/
  | bucket (key : String)
  /-- A burst rate of one group was used up. -/
  | rate (rule grouping : String) (index : Nat) (group : GroupKey) (limit : BurstRate)
deriving DecidableEq, Repr

namespace Violation

/-- The rule behind a violation, if a rule is behind it. -/
def rule? : Violation → Option String
  | .bucket _ => none
  | .rate rule _ _ _ _ => some rule

/-- The window of the exhausted rate, if a rate is behind the violation. -/
def window? : Violation → Option Span
  | .bucket _ => none
  | .rate _ _ _ _ limit => some limit.window

def text : Violation → String
  | .bucket key => "bucket '" ++ key ++ "'"
  | .rate rule grouping index group limit =>
    "rule '" ++ rule ++ "', grouping '" ++ grouping ++ "' [" ++ group.text ++ "], rate #" ++
      toString index ++ " " ++ limit.text

end Violation

/-- The refusal of a request, with the constraint that refused it. -/
structure Denial where
  requested : Count
  available : Count
  violation : Violation
deriving DecidableEq, Repr

def Denial.message (d : Denial) : String :=
  "Rate limited: " ++ toString d.available.toNat ++ " of requested " ++
    toString d.requested.toNat ++ " permits available (" ++ d.violation.text ++ ")"

/-- The answer to a request for permits. -/
structure Permits where
  requested : Count
  /-- Permits there were at the time of the request, granted or not. -/
  available : Count
  granted : Count
  /-- The first constraint that left fewer permits than were requested. -/
  limitedBy : Option Violation
deriving DecidableEq, Repr

namespace Permits

def unlimited (requested : Count) : Permits := ⟨requested, .most, requested, none⟩

def isComplete (p : Permits) : Bool := p.granted = p.requested

/-- The refusal that an answer amounts to when `n` permits or none were wanted. -/
def denial? (p : Permits) (n : Count) : Option Denial :=
  match p.limitedBy with
  | some violation => if p.granted < n then some ⟨n, p.available, violation⟩ else none
  | none => none

end Permits

/-- How much of a request for `n` is granted where `available` permits are left: all of it if they
suffice, and else either what there is or nothing. -/
def grantable (available n : Count) (partly : Bool) : Count :=
  if n ≤ available then n else if partly then available else 0

end Admission
