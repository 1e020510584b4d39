/-!
# Network addresses

Addresses of the fourth and the sixth version of the internet protocol, read from their usual
notations and written in the canonical one: small hexadecimal digits, no leading zeros, and two
colons for the first of the longest runs of at least two zero groups.  An address of version four
mapped into version six keeps its dotted form.
-/

namespace Admission

/-- An internet address. -/
inductive Address where
  /-- Four bytes. -/
  | v4 (bytes : List Nat)
  /-- Eight groups of sixteen bits. -/
  | v6 (groups : List Nat)
deriving DecidableEq, Repr

namespace Address

def parts (sep : Char) (cs : List Char) : List (List Char) :=
  cs.foldr (fun c ps => match ps with
    | p :: rest => if c = sep then [] :: p :: rest else (c :: p) :: rest
    | [] => []) [[]]

def hexValue? (c : Char) : Option Nat :=
  if '0' ≤ c ∧ c ≤ '9' then some (c.toNat - '0'.toNat)
  else if 'a' ≤ c ∧ c ≤ 'f' then some (c.toNat - 'a'.toNat + 10)
  else if 'A' ≤ c ∧ c ≤ 'F' then some (c.toNat - 'A'.toNat + 10)
  else none

/-- A byte in decimal, without leading zeros. -/
def byte? (cs : List Char) : Option Nat :=
  if cs.isEmpty ∨ 3 < cs.length ∨ !cs.all Char.isDigit ∨ (1 < cs.length ∧ cs.head? = some '0') then
    none
  else
    let n := cs.foldl (fun n c => 10 * n + (c.toNat - '0'.toNat)) 0
    if n < 256 then some n else none

def dotted? (cs : List Char) : Option (List Nat) :=
  let bytes := parts '.' cs
  if bytes.length = 4 then bytes.mapM byte? else none

def group? (cs : List Char) : Option Nat :=
  if cs.isEmpty ∨ 4 < cs.length then none
  else cs.foldlM (fun n c => (hexValue? c).map (16 * n + ·)) 0

/-- Groups with colons between them, of which the last two may be dotted. -/
def groups? (cs : List Char) : Option (List Nat) :=
  if cs.isEmpty then some []
  else
    let ps := parts ':' cs
    match ps.getLast? with
    | none => none
    | some last =>
      if '.' ∈ last then do
        let front ← ps.dropLast.mapM group?
        let bytes ← dotted? last
        match bytes with
        | [a, b, c, d] => some (front ++ [256 * a + b, 256 * c + d])
        | _ => none
      else ps.mapM group?

/-- The text before and after the first pair of colons. -/
def splitGap : List Char → Option (List Char × List Char)
  | ':' :: ':' :: rest => some ([], rest)
  | c :: rest => (splitGap rest).map fun (before, after) => (c :: before, after)
  | [] => none

def parseV6 (cs : List Char) : Option Address :=
  match splitGap cs with
  | none => do
    let gs ← groups? cs
    if gs.length = 8 then some (.v6 gs) else none
  | some (before, after) => do
    let front ← groups? before
    let back ← groups? after
    if '.' ∉ before ∧ front.length + back.length < 8 then
      some (.v6 (front ++ List.replicate (8 - front.length - back.length) 0 ++ back))
    else none

def parse (text : String) : Option Address :=
  match dotted? text.toList with
  | some bytes => some (.v4 bytes)
  | none => parseV6 text.toList

/-- The bytes of an address in decimal with points between them. -/
def dottedText (bytes : List Nat) : String := ".".intercalate (bytes.map toString)

/-- Groups in hexadecimal with colons between them. -/
def groupsText (groups : List Nat) : String :=
  ":".intercalate (groups.map fun g => String.ofList (Nat.toDigits 16 g))

def zeros (groups : List Nat) : Nat := (groups.takeWhile (· == 0)).length

/-- The start and the length of the first of the longest runs of zero groups. -/
def longestGap (groups : List Nat) : Nat × Nat :=
  (List.range groups.length).foldl (fun best start =>
    let run := zeros (groups.drop start)
    if best.2 < run then (start, run) else best) (0, 0)

def text : Address → String
  | v4 bytes => dottedText bytes
  | v6 [0, 0, 0, 0, 0, 0xffff, high, low] =>
    "::ffff:" ++ dottedText [high / 256, high % 256, low / 256, low % 256]
  | v6 groups =>
    let (start, run) := longestGap groups
    if run < 2 then groupsText groups
    else groupsText (groups.take start) ++ "::" ++ groupsText (groups.drop (start + run))

end Address

end Admission
