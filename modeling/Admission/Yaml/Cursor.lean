/-!
# Reading positions in a YAML text

A cursor is the rest of the text with the place it starts at.  Lines end with a line feed, a
carriage return, both together, or one of the three Unicode breaks; in scalars every break but the
last two of these becomes a line feed.
-/

namespace Admission.Yaml

/-- The rest of a text and its place in lines and columns. -/
structure Cursor where
  rest : List Char
  index : Nat
  line : Nat
  column : Nat
deriving Inhabited

def isBreak (c : Char) : Bool :=
  c = '\n' || c = '\r' || c = '\x85' || c = '\u2028' || c = '\u2029'

def isSpace (c : Char) : Bool := c = ' ' || c = '\t'

/-- A letter, a digit, a dash or an underscore. -/
def isWord (c : Char) : Bool := c.isAlphanum || c = '-' || c = '_'

/-- Whether a text is at its end, at a break or at a space. -/
def endsWord : List Char → Bool
  | [] => true
  | c :: _ => isBreak c || isSpace c

def endsLine : List Char → Bool
  | [] => true
  | c :: _ => isBreak c

def isAdmitted (c : Char) : Bool :=
  let n := c.toNat
  n = 9 || n = 10 || n = 13 || (0x20 ≤ n && n ≤ 0x7E) || n = 0x85 ||
    (0xA0 ≤ n && n ≤ 0xD7FF) || (0xE000 ≤ n && n ≤ 0xFFFD) || 0x10000 ≤ n

namespace Cursor

def start (text : List Char) : Cursor := ⟨text, 0, 0, 0⟩

def at? (c : Cursor) (char : Char) : Bool := c.rest.head? = some char

/-- The cursor after `n` characters of one line. -/
def skip (c : Cursor) (n : Nat) : Cursor :=
  ⟨c.rest.drop n, c.index + n, c.line, c.column + n⟩

/-- The cursor after a line break, and the character that the break counts as in a scalar. -/
def skipBreak (c : Cursor) : List Char × Cursor :=
  match c.rest with
  | '\r' :: '\n' :: rest => (['\n'], ⟨rest, c.index + 2, c.line + 1, 0⟩)
  | char :: rest =>
    if isBreak char then
      ([if char = '\u2028' || char = '\u2029' then char else '\n'],
        ⟨rest, c.index + 1, c.line + 1, 0⟩)
    else ([], c)
  | [] => ([], c)

/-- The cursor after all characters of a kind, which holds no breaks. -/
def skipWhile (c : Cursor) (p : Char → Bool) : Cursor := c.skip (c.rest.takeWhile p).length

/-- Whether the cursor is at the mark of a document's start or end: three dashes or three points
alone at the beginning of a line. -/
def atDocumentMark (c : Cursor) : Bool :=
  c.column = 0 && match c.rest with
    | '-' :: '-' :: '-' :: rest => endsWord rest
    | '.' :: '.' :: '.' :: rest => endsWord rest
    | _ => false

end Cursor

end Admission.Yaml
