import Admission.Text.Escaped

/-!
# Cutting a text in place

A text is kept as bytes, and a character takes one to four of them.  A slice of a text lies between
two byte offsets, and there is none if one of them falls inside a character.

`slicesUnescaped` and `sliceOnceUnescaped` cut as `piecesUnescaped` and `splitOnceUnescaped` do, but
in place: they go over the characters of a text once, with the byte offset at which the current
piece begins, and take out a slice at every separator that no backslash precedes.
-/

namespace Admission

/-- Two byte offsets that no slice lies between: the second is before the first, or one of them is
inside a character or behind the end. -/
structure BadSlice where
  start : Nat
  stop : Nat
deriving DecidableEq, Repr

/-- The part of a text between two byte offsets. -/
def slice (s : String) (start stop : Nat) : Except BadSlice String :=
  if h : String.Pos.Raw.IsValid s ⟨start⟩ ∧ String.Pos.Raw.IsValid s ⟨stop⟩ ∧ start ≤ stop then
    .ok (s.extract (s.pos ⟨start⟩ h.1) (s.pos ⟨stop⟩ h.2.1))
  else .error ⟨start, stop⟩

/-- Characters with the byte offset at which each begins, where the first begins at `offset`. -/
def charOffsets (offset : Nat) : List Char → List (Nat × Char)
  | [] => []
  | c :: cs => (offset, c) :: charOffsets (offset + c.utf8Size) cs

/-- The slices of the rest of a text, where the current piece began at the offset `start`, and the
next character is escaped if `escaped` is set. -/
def slicesFrom (s : String) (sep : Char) (start : Nat) (escaped : Bool) :
    List (Nat × Char) → Except BadSlice (List String)
  | [] => (slice s start s.utf8ByteSize).map fun last => [last]
  | (offset, c) :: rest =>
    if escaped then slicesFrom s sep start false rest
    else if c = '\\' then slicesFrom s sep start true rest
    else if c = sep then do
      let piece ← slice s start offset
      let others ← slicesFrom s sep (offset + c.utf8Size) false rest
      return piece :: others
    else slicesFrom s sep start false rest

/-- The pieces of a text between separators that no backslash precedes. -/
def slicesUnescaped (sep : Char) (s : String) : Except BadSlice (List String) :=
  slicesFrom s sep 0 false (charOffsets 0 s.toList)

/-- A text before and after its first separator that no backslash precedes.  What is after it
begins behind as many bytes as the first piece and a separator have. -/
def sliceOnceUnescaped (sep : Char) (s : String) : Except BadSlice (Option (String × String)) := do
  match ← slicesUnescaped sep s with
  | first :: _ :: _ =>
    let rest ← slice s (first.utf8ByteSize + sep.utf8Size) s.utf8ByteSize
    return some (first, rest)
  | _ => return none

end Admission
