import Admission.Yaml.Scalar

/-!
# YAML anchors, tags and directives

The small notations that start with `&`, `*`, `!` and `%`.
-/

namespace Admission.Yaml

/-- The name of an anchor or an alias after its mark. -/
def readAnchor (c : Cursor) : Option (String × Cursor) :=
  let name := c.rest.takeWhile isWord
  let next := c.skip name.length
  let closed := endsWord next.rest ||
    next.rest.head?.any fun char => char ∈ ['?', ':', ',', ']', '\x7d', '%', '@', '\x60']
  if name.isEmpty || !closed then none else some (String.ofList name, next)

/-- Whether a tag may hold a character; brackets and commas only in some places. -/
def isTagChar (brackets : Bool) (c : Char) : Bool :=
  isWord c ||
    c ∈ [';', '/', '?', ':', '@', '&', '=', '+', '$', '.', '!', '~', '*', '\'', '(', ')'] ||
    (brackets && (c = ',' || c = '[' || c = ']'))

/-- One byte written as a percent sign and two digits. -/
def readOctet? : List Char → Option (Nat × List Char)
  | '%' :: a :: b :: rest => (readDigits? 16 [a, b]).map fun n => (n, rest)
  | _ => none

/-- How many bytes follow the first byte of a character, and the bits it carries. -/
def octetLead? (n : Nat) : Option (Nat × Nat) :=
  if n < 0x80 then some (0, n)
  else if 0xC0 ≤ n ∧ n < 0xE0 then some (1, n - 0xC0)
  else if 0xE0 ≤ n ∧ n < 0xF0 then some (2, n - 0xE0)
  else if 0xF0 ≤ n ∧ n < 0xF8 then some (3, n - 0xF0)
  else none

def readOctets? : Nat → Nat → List Char → Option (Nat × List Char)
  | 0, code, cs => some (code, cs)
  | more + 1, code, cs => do
    let (n, rest) ← readOctet? cs
    if 0x80 ≤ n ∧ n < 0xC0 then readOctets? more (code * 64 + (n - 0x80)) rest else none

/-- The characters of a tag, in which a percent sign starts the bytes of a character. -/
def readTagChars (brackets : Bool) : (fuel : Nat) → List Char → Option (List Char × List Char)
  | 0, _ => none
  | fuel + 1, cs =>
    match cs with
    | '%' :: _ => do
      let (n, rest) ← readOctet? cs
      let (more, bits) ← octetLead? n
      let (code, rest) ← readOctets? more bits rest
      let (text, rest) ← readTagChars brackets fuel rest
      some (Char.ofNat code :: text, rest)
    | c :: rest =>
      if isTagChar brackets c then do
        let (text, rest) ← readTagChars brackets fuel rest
        some (c :: text, rest)
      else some ([], cs)
    | [] => some ([], [])

def readTagText (brackets : Bool) (c : Cursor) : Option (List Char × Cursor) := do
  let (text, rest) ← readTagChars brackets (c.rest.length + 1) c.rest
  some (text, { c with rest, index := c.index + (c.rest.length - rest.length),
                       column := c.column + (c.rest.length - rest.length) })

/-- A handle: an exclamation mark, a word, and a second mark if there is one. -/
def readHandle (c : Cursor) : List Char × Cursor :=
  let word := (c.rest.drop 1).takeWhile isWord
  let next := c.skip (1 + word.length)
  if next.at? '!' then ('!' :: word ++ ['!'], next.skip 1) else ('!' :: word, next)

/-- A tag at its exclamation mark: its handle and its suffix.  A tag that has to be taken literally
has no handle, and neither has the lone mark. -/
def readTag (inFlow : Bool) (c : Cursor) : Option (String × String × Cursor) := do
  let (handle, suffix, next) ←
    match c.rest with
    | '!' :: '<' :: _ => do
      let (text, next) ← readTagText true (c.skip 2)
      if text.isEmpty || !next.at? '>' then none else some ([], text, next.skip 1)
    | _ => do
      let (handle, next) := readHandle c
      if 1 < handle.length ∧ handle.getLast? = some '!' then
        let (text, next) ← readTagText false next
        if text.isEmpty then none else some (handle, text, next)
      else
        let (text, next) ← readTagText false next
        let suffix := handle.drop 1 ++ text
        if suffix.isEmpty then some ([], ['!'], next) else some (['!'], suffix, next)
  if endsWord next.rest || (inFlow && next.at? ',') then
    some (String.ofList handle, String.ofList suffix, next)
  else none

/-- The end of a directive's line: blanks, a comment, and the break. -/
def endDirective (c : Cursor) : Option Cursor :=
  let c := c.skipWhile isSpace
  let c := if c.at? '#' then c.skipWhile (!isBreak ·) else c
  if endsLine c.rest then some c.skipBreak.2 else none

def readVersionPart (c : Cursor) : Option (Nat × Cursor) :=
  let digits := c.rest.takeWhile Char.isDigit
  if 9 < digits.length then none
  else (readDigits? 10 digits).map fun n => (n, c.skip digits.length)

/-- The version of a `%YAML` line. -/
def readVersion (c : Cursor) : Option (Nat × Nat × Cursor) := do
  let (major, c) ← readVersionPart (c.skipWhile isSpace)
  if c.at? '.' then
    let (minor, c) ← readVersionPart (c.skip 1)
    some (major, minor, c)
  else none

/-- The handle of a `%TAG` line and what it stands for. -/
def readTagLine (c : Cursor) : Option (String × String × Cursor) := do
  let c := c.skipWhile isSpace
  if !c.at? '!' then none
  else
    let (handle, c) := readHandle c
    if (1 < handle.length ∧ handle.getLast? ≠ some '!') ∨ !(c.rest.head?.any isSpace) then none
    else
      let (stem, c) ← readTagText true (c.skipWhile isSpace)
      if stem.isEmpty || !endsWord c.rest then none
      else some (String.ofList handle, String.ofList stem, c)

end Admission.Yaml
