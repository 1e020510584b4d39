/-!
# Backslash escapes

A backslash takes the meaning away from the character after it.  Splitting at a separator respects
that; the pieces keep their backslashes until they are unescaped.
-/

namespace Admission

/-- The pieces of a text between separators that no backslash precedes: the first piece and the
others.  A backslash and the character after it stay together. -/
def splitUnescaped (sep : Char) : List Char → List Char × List (List Char)
  | [] => ([], [])
  | [c] => if c = sep ∧ c ≠ '\\' then ([], [[]]) else ([c], [])
  | c :: d :: rest =>
    if c = '\\' then
      let (piece, others) := splitUnescaped sep rest
      (c :: d :: piece, others)
    else if c = sep then
      let (piece, others) := splitUnescaped sep (d :: rest)
      ([], piece :: others)
    else
      let (piece, others) := splitUnescaped sep (d :: rest)
      (c :: piece, others)

def piecesUnescaped (sep : Char) (cs : List Char) : List (List Char) :=
  (splitUnescaped sep cs).1 :: (splitUnescaped sep cs).2

/-- A text before and after its first separator that no backslash precedes. -/
def splitOnceUnescaped (sep : Char) (cs : List Char) : Option (List Char × List Char) :=
  match splitUnescaped sep cs with
  | (_, []) => none
  | (piece, _ :: _) => some (piece, cs.drop (piece.length + 1))

/-- A text without the backslashes that escape something.  One that escapes nothing is dropped. -/
def unescape : List Char → List Char
  | [] => []
  | [c] => if c = '\\' then [] else [c]
  | c :: d :: rest => if c = '\\' then d :: unescape rest else c :: unescape (d :: rest)

/-- A text with a backslash before each of the special characters. -/
def escape (special : List Char) (cs : List Char) : List Char :=
  cs.flatMap fun c => if c ∈ special then ['\\', c] else [c]

end Admission
