import Admission.Yaml.Tag
import Admission.Yaml.Token

/-!
# From text to YAML tokens

`tokens?` cuts a text into tokens.  Two things are not written in the text and have to be found:

* Block collections start and end by indentation, so the columns of the open ones are kept.
* A key is only known to be one when its colon comes.  So the place of the last scalar or collection
  that may be a key is remembered, one for each level of brackets, and a key token is put there
  afterwards.  A key stands on one line and is at most 1024 characters long.
-/

namespace Admission.Yaml

/-- A place at which a key may have begun. -/
structure PendingKey where
  /-- Whether the place can still turn out to be a key. -/
  possible : Bool
  /-- Whether nothing but a key can stand there. -/
  required : Bool
  /-- The number of tokens before the place. -/
  position : Nat
  index : Nat
  line : Nat
  column : Nat
deriving Inhabited

def PendingKey.none : PendingKey := ⟨false, false, 0, 0, 0, 0⟩

/-- Where the search for tokens has come to. -/
structure Search where
  cursor : Cursor
  tokens : Array Token
  /-- The column of the innermost open block collection, -1 outside of all. -/
  indent : Int
  /-- The columns of the collections around it. -/
  outer : List Int
  /-- How many brackets are open. -/
  brackets : Nat
  /-- Whether a key may begin here. -/
  keyAllowed : Bool
  /-- The place remembered for this level of brackets, and those of the levels around it. -/
  pending : PendingKey
  outerPending : List PendingKey
deriving Inhabited

namespace Search

def start (text : List Char) : Search := ⟨.start text, #[], -1, [], 0, true, .none, []⟩

def inFlow (s : Search) : Bool := 0 < s.brackets

def emit (s : Search) (token : Token) : Search := { s with tokens := s.tokens.push token }

def emitMark (s : Search) (token : Token) : Search :=
  { s with tokens := s.tokens.push token, cursor := s.cursor.skip 1 }

/-- Ends the block collections that are indented more than `column`. -/
def closeBlocks (s : Search) (column : Int) : Search :=
  if s.inFlow then s
  else
    let all := s.indent :: s.outer
    let closed := (all.takeWhile (column < ·)).length
    match all.drop closed with
    | [] => s
    | indent :: outer =>
      { s with indent, outer, tokens := s.tokens ++ List.replicate closed Token.blockEnd }

/-- Opens a block collection at a column if none is open there; its token comes before the token
number `position`. -/
def openBlock (s : Search) (column : Nat) (position : Nat) (token : Token) : Search :=
  if s.inFlow || (column : Int) ≤ s.indent then s
  else { s with
    indent := column
    outer := s.indent :: s.outer
    tokens := s.tokens.insertIdxIfInBounds position token }

/-- Forgets the remembered place; it is an error if only a key could have stood there. -/
def forgetKey (s : Search) : Option Search :=
  if s.pending.possible && s.pending.required then none
  else some { s with pending := { s.pending with possible := false } }

/-- Remembers this place as one where a key may begin. -/
def rememberKey (s : Search) : Option Search :=
  if !s.keyAllowed then some s
  else do
    let s ← s.forgetKey
    let c := s.cursor
    let required := !s.inFlow && s.indent = c.column
    some { s with pending := ⟨true, required, s.tokens.size, c.index, c.line, c.column⟩ }

/-- Forgets remembered places on former lines, or too far back. -/
def forgetStale (s : Search) : Option Search := do
  let fresh (k : PendingKey) : Option PendingKey :=
    if k.possible && (k.line < s.cursor.line || k.index + 1024 < s.cursor.index) then
      if k.required then none else some { k with possible := false }
    else some k
  let pending ← fresh s.pending
  let outerPending ← s.outerPending.mapM fresh
  some { s with pending, outerPending }

/-- Skips blanks, comments and breaks.  A tab may not stand where a block key can begin. -/
def skipToToken : (fuel : Nat) → Search → Search
  | 0, s => s
  | fuel + 1, s =>
    let c := s.cursor
    let c := if c.index = 0 ∧ c.at? '\ufeff' then c.skip 1 else c
    let c := c.skipWhile fun char =>
      char = ' ' || ((s.inFlow || !s.keyAllowed) && char = '\t')
    let c := if c.at? '#' then c.skipWhile (!isBreak ·) else c
    if !c.rest.isEmpty && endsLine c.rest then
      skipToToken fuel
        { s with cursor := c.skipBreak.2, keyAllowed := s.keyAllowed || !s.inFlow }
    else { s with cursor := c }

/-- A mark of a document's start or end, three characters long. -/
def documentMark (s : Search) (token : Token) : Option Search := do
  let s ← (s.closeBlocks (-1)).forgetKey
  some { s with keyAllowed := false, cursor := s.cursor.skip 3, tokens := s.tokens.push token }

/-- A `%YAML` or a `%TAG` line. -/
def directive (s : Search) : Option Search := do
  let s ← (s.closeBlocks (-1)).forgetKey
  let name := (s.cursor.rest.drop 1).takeWhile isWord
  let c := s.cursor.skip (1 + name.length)
  if !endsWord c.rest then none
  else if name = "YAML".toList then
    let (major, minor, c) ← readVersion c
    let c ← endDirective c
    some { s with keyAllowed := false, cursor := c, tokens := s.tokens.push (.version major minor) }
  else if name = "TAG".toList then
    let (handle, stem, c) ← readTagLine c
    let c ← endDirective c
    some { s with
      keyAllowed := false
      cursor := c
      tokens := s.tokens.push (.tagHandle handle stem) }
  else none

def openFlow (s : Search) (token : Token) : Option Search := do
  let s ← s.rememberKey
  some { s.emitMark token with
    brackets := s.brackets + 1
    keyAllowed := true
    pending := .none
    outerPending := s.pending :: s.outerPending }

def closeFlow (s : Search) (token : Token) : Option Search := do
  let s ← s.forgetKey
  let s := { s.emitMark token with keyAllowed := false }
  match s.outerPending with
  | pending :: outerPending => some { s with brackets := s.brackets - 1, pending, outerPending }
  | [] => some s

def flowEntry (s : Search) : Option Search := do
  let s ← s.forgetKey
  some { s.emitMark .flowEntry with keyAllowed := true }

def blockEntry (s : Search) : Option Search := do
  if !s.inFlow && !s.keyAllowed then none
  else
    let s ← (s.openBlock s.cursor.column s.tokens.size .blockSequenceStart).forgetKey
    some { s.emitMark .blockEntry with keyAllowed := true }

def explicitKey (s : Search) : Option Search := do
  if !s.inFlow && !s.keyAllowed then none
  else
    let s ← (s.openBlock s.cursor.column s.tokens.size .blockMappingStart).forgetKey
    some { s.emitMark .key with keyAllowed := !s.inFlow }

/-- A colon, which makes a key of the remembered place if there is one. -/
def value (s : Search) : Option Search :=
  let k := s.pending
  if k.possible then
    let s := { s with tokens := s.tokens.insertIdxIfInBounds k.position .key }
    let s := s.openBlock k.column k.position .blockMappingStart
    some { s.emitMark .value with
      keyAllowed := false
      pending := { k with possible := false } }
  else if !s.inFlow && !s.keyAllowed then none
  else
    let s := s.openBlock s.cursor.column s.tokens.size .blockMappingStart
    some { s.emitMark .value with keyAllowed := !s.inFlow }

def keyLike (s : Search) (read : Cursor → Option (Token × Cursor)) : Option Search := do
  let s ← s.rememberKey
  let (token, cursor) ← read s.cursor
  some { s with keyAllowed := false, cursor, tokens := s.tokens.push token }

def quoted (s : Search) (quote : Char) (style : Style) : Option Search :=
  s.keyLike fun c => do
    let (text, c) ← readQuoted quote (c.rest.length + 1) [] (c.skip 1)
    some (.scalar style (String.ofList text.reverse), c)

def block (s : Search) (fold : Bool) (style : Style) : Option Search := do
  let s ← s.forgetKey
  let (text, cursor) ← readBlock fold s.indent (s.cursor.skip 1)
  some { s with
    keyAllowed := true
    cursor
    tokens := s.tokens.push (.scalar style (String.ofList text)) }

/-- A scalar without marks of its own.  After a break behind it a key may begin again. -/
def plain (s : Search) : Option Search := do
  let s ← s.rememberKey
  let (text, broken, cursor) ←
    readPlain s.inFlow (s.indent + 1) (s.cursor.rest.length + 1) [] .empty s.cursor
  some { s with
    keyAllowed := broken
    cursor
    tokens := s.tokens.push (.scalar .plain (String.ofList text.reverse)) }

/-- Whether a plain scalar may begin with the characters `cs`. -/
def startsPlain (s : Search) : List Char → Bool
  | [] => false
  | c :: rest =>
    if c = '-' then !(rest.head?.any isSpace)
    else if c = '?' ∨ c = ':' then !s.inFlow && !endsWord rest
    else !(isSpace c || isBreak c ||
      c ∈ [',', '[', ']', '\x7b', '\x7d', '#', '&', '*', '!', '|', '>', '\'', '"', '%', '@',
        '\x60'])

def finish (s : Search) : Option Search := do
  let s ← (s.closeBlocks (-1)).forgetKey
  some (s.emit .streamEnd)

/-- Reads one token, with the ends of collections before it. -/
def token (s : Search) : Option Search :=
  let c := s.cursor
  let next := c.rest.drop 1
  match c.rest with
  | [] => s.finish
  | char :: _ =>
    if c.column = 0 ∧ char = '%' then s.directive
    else if c.atDocumentMark then
      s.documentMark (if char = '-' then .documentStart else .documentEnd)
    else if char = '[' then s.openFlow .flowSequenceStart
    else if char = '\x7b' then s.openFlow .flowMappingStart
    else if char = ']' then s.closeFlow .flowSequenceEnd
    else if char = '\x7d' then s.closeFlow .flowMappingEnd
    else if char = ',' then s.flowEntry
    else if char = '-' && endsWord next then s.blockEntry
    else if char = '?' && (s.inFlow || endsWord next) then s.explicitKey
    else if char = ':' && (s.inFlow || endsWord next) then s.value
    else if char = '*' then
      s.keyLike fun c => (readAnchor (c.skip 1)).map fun (name, c) => (.alias name, c)
    else if char = '&' then
      s.keyLike fun c => (readAnchor (c.skip 1)).map fun (name, c) => (.anchor name, c)
    else if char = '!' then
      s.keyLike fun c =>
        (readTag s.inFlow c).map fun (handle, suffix, c) => (.tag handle suffix, c)
    else if char = '|' && !s.inFlow then s.block false .literal
    else if char = '>' && !s.inFlow then s.block true .folded
    else if char = '\'' then s.quoted '\'' .singleQuoted
    else if char = '"' then s.quoted '"' .doubleQuoted
    else if s.startsPlain c.rest then s.plain
    else none

def run : (fuel : Nat) → Search → Option (Array Token)
  | 0, _ => none
  | fuel + 1, s => do
    let s := s.skipToToken (s.cursor.rest.length + 1)
    let s ← s.forgetStale
    let s := s.closeBlocks s.cursor.column
    let s ← s.token
    if s.tokens.back? = some .streamEnd then some s.tokens else run fuel s

end Search

/-- The tokens of a text, if it can be cut into tokens. -/
def tokens? (text : List Char) : Option (Array Token) :=
  if text.all isAdmitted then Search.run (text.length + 2) (.start text) else none

end Admission.Yaml
