import Admission.Decimal.Reading
import Admission.Yaml.Cursor

/-!
# YAML scalars

How the text of a scalar is read off the page.  In plain and quoted scalars a single break between
words becomes a space and further breaks stay; blanks around breaks are dropped.  Block scalars
keep their lines, or fold them in the same way, and say in their header what becomes of the last
break.
-/

namespace Admission.Yaml

/-- Blanks and breaks between two words of a scalar. -/
structure Gap where
  /-- Blanks before the first break, last one first. -/
  spaces : List Char
  /-- The first break, if there was one. -/
  firstBreak : List Char
  /-- All breaks after the first, last one first. -/
  moreBreaks : List Char
  /-- Whether a break was seen, be it an escaped one that leaves no trace. -/
  broken : Bool

namespace Gap

def empty : Gap := ⟨[], [], [], false⟩

/-- What a gap leaves in the scalar, last character first. -/
def folded (g : Gap) : List Char :=
  if g.broken then
    if g.firstBreak = ['\n'] then (if g.moreBreaks.isEmpty then [' '] else g.moreBreaks)
    else g.moreBreaks ++ g.firstBreak
  else g.spaces

def addBreak (g : Gap) (written : List Char) : Gap :=
  if g.broken then { g with moreBreaks := written ++ g.moreBreaks }
  else ⟨[], written, g.moreBreaks, true⟩

/-- The gap with one more blank; blanks after a break do not count. -/
def addSpace (g : Gap) (c : Char) : Gap :=
  if g.broken then g else { g with spaces := c :: g.spaces }

end Gap

/-- Reads blanks and breaks.  A tab to the left of `margin` on a new line is an error. -/
def readGap (margin : Int) : (fuel : Nat) → Gap → Cursor → Option (Gap × Cursor)
  | 0, _, _ => none
  | fuel + 1, gap, c =>
    match c.rest with
    | [] => some (gap, c)
    | char :: _ =>
      if isSpace char then
        if gap.broken && (c.column : Int) < margin && char = '\t' then none
        else readGap margin fuel (gap.addSpace char) (c.skip 1)
      else if isBreak char then
        let (written, next) := c.skipBreak
        readGap margin fuel (gap.addBreak written) next
      else some (gap, c)

/-- Whether a plain scalar ends before the characters `cs`. -/
def endsPlain (inFlow : Bool) : List Char → Bool
  | [] => true
  | c :: rest =>
    isSpace c || isBreak c || (c = ':' && endsWord rest) ||
      (inFlow && (c = ',' || c = '[' || c = ']' || c = '\x7b' || c = '\x7d'))

/-- Whether a colon stands where a flow collection admits none: right before one of its marks. -/
def misplacedColon : List Char → Bool
  | ':' :: c :: _ => c = ',' || c = '?' || c = '[' || c = ']' || c = '\x7b' || c = '\x7d'
  | _ => false

/-- Reads the characters of one word of a plain scalar, last one first. -/
def readPlainWord (inFlow : Bool) :
    (fuel : Nat) → List Char → Cursor → Option (List Char × Cursor)
  | 0, _, _ => none
  | fuel + 1, text, c =>
    if inFlow && misplacedColon c.rest then none
    else
      match c.rest with
      | [] => some (text, c)
      | char :: _ =>
        if endsPlain inFlow c.rest then some (text, c)
        else readPlainWord inFlow fuel (char :: text) (c.skip 1)

/-- Reads a plain scalar to its end.  The answer has its characters, last one first, and whether a
break was passed after its last word. -/
def readPlain (inFlow : Bool) (margin : Int) :
    (fuel : Nat) → List Char → Gap → Cursor → Option (List Char × Bool × Cursor)
  | 0, _, _, _ => none
  | fuel + 1, text, gap, c =>
    if c.atDocumentMark || c.at? '#' then some (text, gap.broken, c)
    else do
      let size := c.rest.length + 1
      let started := !endsPlain inFlow c.rest
      let (word, c) ← readPlainWord inFlow size [] c
      let text := if started then word ++ gap.folded ++ text else text
      let gap := if started then .empty else gap
      match c.rest with
      | [] => some (text, gap.broken, c)
      | char :: _ =>
        if isSpace char || isBreak char then
          let (gap, c) ← readGap margin size gap c
          if !inFlow && (c.column : Int) < margin then some (text, gap.broken, c)
          else readPlain inFlow margin fuel text gap c
        else some (text, gap.broken, c)

/-- The character of a one-letter escape in double quotes. -/
def escaped? : Char → Option Char
  | '0' => some '\x00'
  | 'a' => some '\x07'
  | 'b' => some '\x08'
  | 't' => some '\t'
  | '\t' => some '\t'
  | 'n' => some '\n'
  | 'v' => some '\x0b'
  | 'f' => some '\x0c'
  | 'r' => some '\r'
  | 'e' => some '\x1b'
  | ' ' => some ' '
  | '"' => some '"'
  | '\'' => some '\''
  | '/' => some '/'
  | '\\' => some '\\'
  | 'N' => some '\x85'
  | '_' => some '\xa0'
  | 'L' => some '\u2028'
  | 'P' => some '\u2029'
  | _ => none

/-- How many hexadecimal digits follow an escape letter. -/
def escapeDigits : Char → Nat
  | 'x' => 2
  | 'u' => 4
  | 'U' => 8
  | _ => 0

/-- The character of an escape, given without its backslash. -/
def readEscape (c : Cursor) : Option (Char × Cursor) :=
  match c.rest with
  | [] => none
  | letter :: rest =>
    let width := escapeDigits letter
    if width = 0 then (escaped? letter).map fun char => (char, c.skip 1)
    else
      let digits := rest.take width
      if digits.length < width then none
      else do
        let code ← readDigits? 16 digits
        if (0xD800 ≤ code ∧ code ≤ 0xDFFF) ∨ 0x10FFFF < code then none
        else some (Char.ofNat code, c.skip (width + 1))

/-- Reads a quoted scalar after its opening quote up to behind the closing one, last character
first. -/
def readQuoted (quote : Char) :
    (fuel : Nat) → List Char → Cursor → Option (List Char × Cursor)
  | 0, _, _ => none
  | fuel + 1, text, c =>
    if c.atDocumentMark then none
    else
      match c.rest with
      | [] => none
      | '\'' :: '\'' :: _ =>
        if quote = '\'' then readQuoted quote fuel ('\'' :: text) (c.skip 2)
        else readQuoted quote fuel ('\'' :: text) (c.skip 1)
      | char :: rest =>
        if char = quote then some (text, c.skip 1)
        else if quote = '"' && char = '\\' then
          if !rest.isEmpty && endsLine rest then do
            let (_, next) := (c.skip 1).skipBreak
            let (gap, next) ← readGap 0 (next.rest.length + 1) ⟨[], [], [], true⟩ next
            readQuoted quote fuel (gap.folded ++ text) next
          else do
            let (escape, next) ← readEscape (c.skip 1)
            readQuoted quote fuel (escape :: text) next
        else if isSpace char || isBreak char then do
          let (gap, next) ← readGap 0 (c.rest.length + 1) .empty c
          readQuoted quote fuel (gap.folded ++ text) next
        else readQuoted quote fuel (char :: text) (c.skip 1)

/-- What becomes of the breaks at the end of a block scalar. -/
inductive Chomping where
  | strip
  | clip
  | keep
deriving DecidableEq, Repr

/-- A digit that says how far a block scalar is indented; zero is an error. -/
def readIndicator (c : Cursor) : Option (Option Nat × Cursor) :=
  match c.rest with
  | char :: _ =>
    if char.isDigit then
      if char = '0' then none else some (some (char.toNat - '0'.toNat), c.skip 1)
    else some (none, c)
  | [] => some (none, c)

/-- A sign that says what becomes of the last breaks. -/
def readChomping (c : Cursor) : Option Chomping × Cursor :=
  if c.at? '+' then (some .keep, c.skip 1)
  else if c.at? '-' then (some .strip, c.skip 1)
  else (none, c)

/-- The header of a block scalar after its mark, up to the start of the next line. -/
def readHeader (c : Cursor) : Option (Chomping × Option Nat × Cursor) := do
  let (first, c) := readChomping c
  let (width, c) ← readIndicator c
  let (second, c) := if first.isNone && width.isSome then readChomping c else (none, c)
  let c := c.skipWhile isSpace
  let c := if c.at? '#' then c.skipWhile (!isBreak ·) else c
  if endsLine c.rest then
    some ((first.or second).getD .clip, width, c.skipBreak.2)
  else none

/-- Reads indentation and empty lines in front of a line of a block scalar.  While the indentation
is unknown, the widest one seen is remembered.  The breaks come last one first. -/
def readMargin (indent : Option Nat) :
    (fuel : Nat) → (widest : Nat) → (breaks : List Char) → Cursor →
      Option (Nat × List Char × Cursor)
  | 0, _, _, _ => none
  | fuel + 1, widest, breaks, c =>
    let room := match indent with
      | none => c.rest.length
      | some indent => indent - c.column
    let c := c.skip ((c.rest.take room).takeWhile (· = ' ')).length
    let widest := max widest c.column
    let inMargin := match indent with
      | none => true
      | some indent => decide (c.column < indent)
    if inMargin && c.at? '\t' then none
    else if !c.rest.isEmpty && endsLine c.rest then
      let (written, next) := c.skipBreak
      readMargin indent fuel widest (written ++ breaks) next
    else some (widest, breaks, c)

/-- Reads the lines of a block scalar.  The answer has the text before the last break, that break
and the empty lines after it, each last character first. -/
def readLines (fold : Bool) (indent : Nat) :
    (fuel : Nat) → (text lastBreak breaks : List Char) → (wasIndented : Bool) → Cursor →
      Option (List Char × List Char × List Char × Cursor)
  | 0, _, _, _, _, _ => none
  | fuel + 1, text, lastBreak, breaks, wasIndented, c =>
    if c.column = indent ∧ !c.rest.isEmpty then do
      let isIndented := c.rest.head?.any isSpace
      let joined :=
        if fold && lastBreak = ['\n'] && !wasIndented && !isIndented then
          if breaks.isEmpty then [' '] else []
        else lastBreak
      let line := c.rest.takeWhile (!isBreak ·)
      let text := line.reverse ++ breaks ++ joined ++ text
      let (written, next) := (c.skip line.length).skipBreak
      let (_, breaks, next) ← readMargin (some indent) (next.rest.length + 1) 0 [] next
      readLines fold indent fuel text written breaks isIndented next
    else some (text, lastBreak, breaks, c)

/-- Reads a block scalar after its mark.  It is indented more than `parent`, the column of the
collection it stands in. -/
def readBlock (fold : Bool) (parent : Int) (c : Cursor) : Option (List Char × Cursor) := do
  let (chomping, width, c) ← readHeader c
  let size := c.rest.length + 1
  let known := width.map fun n => if 0 ≤ parent then parent.toNat + n else n
  let (widest, breaks, c) ← readMargin known size 0 [] c
  let indent := known.getD (max (max widest (parent + 1).toNat) 1)
  let (text, lastBreak, breaks, c) ← readLines fold indent size [] [] breaks false c
  let text := if chomping = .strip then text else lastBreak ++ text
  let text := if chomping = .keep then breaks ++ text else text
  some (text.reverse, c)

end Admission.Yaml
