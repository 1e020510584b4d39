import Admission.Yaml.Tokens

/-!
# YAML documents

A YAML text holds documents, each a tree of nodes.  `documents?` reads them from the tokens of the
text.  An alias stands for the node that was anchored under its name last; inside of that very
node it stands for a node without end, which has no value.
-/

namespace Admission.Yaml

/-- A node of a document. -/
inductive Node where
  /-- A scalar with its tag, if it has one. -/
  | scalar (style : Style) (tag : Option String) (text : String)
  | sequence (tag : Option String) (items : List Node)
  | mapping (tag : Option String) (entries : List (Node × Node))
  /-- An alias of a node that it is itself a part of. -/
  | endless
deriving Inhabited

def Node.empty : Node := .scalar .plain none ""

/-- The nodes that were anchored: every name once with the number of its anchor, latest first, and
the nodes that are complete. -/
structure Anchors where
  names : List (String × Nat)
  nodes : List (Nat × Node)
deriving Inhabited

namespace Anchors

def empty : Anchors := ⟨[], []⟩

/-- The number that a new anchor gets: how many names have one so far.  A name that is anchored
again takes a new number and frees none, so that the next new name shares it; the later node then
counts for both. -/
def nextNumber (a : Anchors) : Nat := a.names.length

/-- A new anchor of a name, if there is one. -/
def declare (a : Anchors) (name : Option String) : Anchors :=
  match name with
  | none => a
  | some name =>
    ⟨(name, a.nextNumber) :: a.names.filter (·.1 ≠ name),
      a.nodes.filter (·.1 ≠ a.nextNumber)⟩

/-- The anchors after the node of the anchor with a number is complete. -/
def complete (a : Anchors) (name : Option String) (number : Nat) (node : Node) : Anchors :=
  if name.isSome then { a with nodes := (number, node) :: a.nodes } else a

def node? (a : Anchors) (name : String) : Option Node :=
  (a.names.find? fun entry => entry.1 = name).map fun entry =>
    match a.nodes.find? fun other => other.1 = entry.2 with
    | some (_, node) => node
    | none => .endless

end Anchors

/-- Where the reading of nodes has come to. -/
structure Reading where
  tokens : List Token
  anchors : Anchors
  /-- What the handles of tags stand for. -/
  handles : List (String × String)
deriving Inhabited

/-- What the handles of tags stand for where nothing else is said. -/
def standardHandles : List (String × String) := [("!", "!"), ("!!", "tag:yaml.org,2002:")]

/-- The full text of a tag; its handle must be known. -/
def Reading.resolve? (r : Reading) (handle suffix : String) : Option String :=
  if handle.isEmpty then some suffix
  else (r.handles.find? fun entry => entry.1 = handle).map fun entry => entry.2 ++ suffix

/-- The anchor and the tag in front of a node, in either order. -/
def readProperties (r : Reading) : Option (Option String × Option String × Reading) :=
  match r.tokens with
  | .anchor name :: .tag handle suffix :: rest => do
    let tag ← r.resolve? handle suffix
    some (some name, some tag, { r with tokens := rest })
  | .tag handle suffix :: .anchor name :: rest => do
    let tag ← r.resolve? handle suffix
    some (some name, some tag, { r with tokens := rest })
  | .anchor name :: rest => some (some name, none, { r with tokens := rest })
  | .tag handle suffix :: rest => do
    let tag ← r.resolve? handle suffix
    some (none, some tag, { r with tokens := rest })
  | _ => some (none, none, r)

/-- Whether one of the tokens `ends` comes next. -/
def Reading.atAny (r : Reading) (ends : List Token) : Bool :=
  r.tokens.head?.any fun token => token ∈ ends

def Reading.next (r : Reading) : Reading := { r with tokens := r.tokens.drop 1 }

mutual

/-- Reads a node.  Block collections are read only where `block` is set, and a sequence that is not
indented only where `indentless` is set. -/
def readNode (block indentless : Bool) : (fuel : Nat) → Reading → Option (Node × Reading)
  | 0, _ => none
  | fuel + 1, r =>
    match r.tokens with
    | .alias name :: rest =>
      (r.anchors.node? name).map fun node => (node, { r with tokens := rest })
    | _ => do
      let (anchor, tag, r) ← readProperties r
      let number := r.anchors.nextNumber
      let r := { r with anchors := r.anchors.declare anchor }
      let (node, r) ←
        match r.tokens with
        | .scalar style text :: rest =>
          some (Node.scalar style tag text, { r with tokens := rest })
        | .flowSequenceStart :: rest => do
          let (items, r) ← readFlowItems fuel true { r with tokens := rest }
          some (Node.sequence tag items, r)
        | .flowMappingStart :: rest => do
          let (entries, r) ← readFlowEntries fuel true { r with tokens := rest }
          some (Node.mapping tag entries, r)
        | .blockEntry :: _ =>
          if indentless then do
            let (items, r) ← readIndentless fuel r
            some (Node.sequence tag items, r)
          else if anchor.isSome || tag.isSome then some (Node.scalar .plain tag "", r)
          else none
        | .blockSequenceStart :: rest =>
          if block then do
            let (items, r) ← readBlockItems fuel { r with tokens := rest }
            some (Node.sequence tag items, r)
          else if anchor.isSome || tag.isSome then some (Node.scalar .plain tag "", r)
          else none
        | .blockMappingStart :: rest =>
          if block then do
            let (entries, r) ← readBlockEntries fuel { r with tokens := rest }
            some (Node.mapping tag entries, r)
          else if anchor.isSome || tag.isSome then some (Node.scalar .plain tag "", r)
          else none
        | _ =>
          if anchor.isSome || tag.isSome then some (Node.scalar .plain tag "", r) else none
      some (node, { r with anchors := r.anchors.complete anchor number node })

/-- Reads a node unless one of the tokens `ends` comes first; then the node is empty. -/
def readUnless (block indentless : Bool) (ends : List Token) :
    (fuel : Nat) → Reading → Option (Node × Reading)
  | 0, _ => none
  | fuel + 1, r => if r.atAny ends then some (.empty, r) else readNode block indentless fuel r

/-- Reads the items of a block sequence up to its end. -/
def readBlockItems : (fuel : Nat) → Reading → Option (List Node × Reading)
  | 0, _ => none
  | fuel + 1, r =>
    match r.tokens with
    | .blockEntry :: rest => do
      let (item, r) ← readUnless true false [.blockEntry, .blockEnd] fuel { r with tokens := rest }
      let (items, r) ← readBlockItems fuel r
      some (item :: items, r)
    | .blockEnd :: rest => some ([], { r with tokens := rest })
    | _ => none

/-- Reads the items of a sequence that is not indented. -/
def readIndentless : (fuel : Nat) → Reading → Option (List Node × Reading)
  | 0, _ => none
  | fuel + 1, r =>
    match r.tokens with
    | .blockEntry :: rest => do
      let (item, r) ← readUnless true false [.blockEntry, .key, .value, .blockEnd] fuel
        { r with tokens := rest }
      let (items, r) ← readIndentless fuel r
      some (item :: items, r)
    | _ => some ([], r)

/-- Reads the entries of a block mapping up to its end. -/
def readBlockEntries : (fuel : Nat) → Reading → Option (List (Node × Node) × Reading)
  | 0, _ => none
  | fuel + 1, r =>
    match r.tokens with
    | .blockEnd :: rest => some ([], { r with tokens := rest })
    | .key :: rest => do
      let (key, r) ← readUnless true true [.key, .value, .blockEnd] fuel { r with tokens := rest }
      let (value, r) ← readBlockValue fuel r
      let (entries, r) ← readBlockEntries fuel r
      some ((key, value) :: entries, r)
    | _ => none

def readBlockValue : (fuel : Nat) → Reading → Option (Node × Reading)
  | 0, _ => none
  | fuel + 1, r =>
    match r.tokens with
    | .value :: rest =>
      readUnless true true [.key, .value, .blockEnd] fuel { r with tokens := rest }
    | _ => some (.empty, r)

/-- Reads the items of a sequence in brackets.  An item with a colon is a mapping of one entry. -/
def readFlowItems : (fuel : Nat) → (first : Bool) → Reading → Option (List Node × Reading)
  | 0, _, _ => none
  | fuel + 1, first, r =>
    match r.tokens with
    | .flowSequenceEnd :: rest => some ([], { r with tokens := rest })
    | tokens => do
      let r ← if first then some r
        else if tokens.head? = some .flowEntry then some r.next else none
      match r.tokens with
      | .flowSequenceEnd :: rest => some ([], { r with tokens := rest })
      | .key :: rest => do
        let r := { r with tokens := rest }
        -- the token after an empty key is lost, even if it ends the sequence
        let (key, r) ← if r.atAny [.value, .flowEntry, .flowSequenceEnd] then some (.empty, r.next)
          else readNode false false fuel r
        let (value, r) ← readFlowValue [.flowEntry, .flowSequenceEnd] fuel r
        let (items, r) ← readFlowItems fuel false r
        some (.mapping none [(key, value)] :: items, r)
      | _ => do
        let (item, r) ← readNode false false fuel r
        let (items, r) ← readFlowItems fuel false r
        some (item :: items, r)

def readFlowEntries :
    (fuel : Nat) → (first : Bool) → Reading → Option (List (Node × Node) × Reading)
  | 0, _, _ => none
  | fuel + 1, first, r =>
    match r.tokens with
    | .flowMappingEnd :: rest => some ([], { r with tokens := rest })
    | tokens => do
      let r ← if first then some r
        else if tokens.head? = some .flowEntry then some r.next else none
      match r.tokens with
      | .flowMappingEnd :: rest => some ([], { r with tokens := rest })
      | .key :: rest => do
        let (key, r) ← readUnless false false [.value, .flowEntry, .flowMappingEnd] fuel
          { r with tokens := rest }
        let (value, r) ← readFlowValue [.flowEntry, .flowMappingEnd] fuel r
        let (entries, r) ← readFlowEntries fuel false r
        some ((key, value) :: entries, r)
      | _ => do
        let (key, r) ← readNode false false fuel r
        let (entries, r) ← readFlowEntries fuel false r
        some ((key, .empty) :: entries, r)

/-- Reads the value of a key in brackets or braces. -/
def readFlowValue (ends : List Token) : (fuel : Nat) → Reading → Option (Node × Reading)
  | 0, _ => none
  | fuel + 1, r =>
    match r.tokens with
    | .value :: rest => readUnless false false ends fuel { r with tokens := rest }
    | _ => some (.empty, r)

end

/-- Reads the directives in front of a document.  The version is said once and is 1.1 or 1.2, and
every handle is given once. -/
def readDirectives : (fuel : Nat) → (versioned : Bool) → List (String × String) → List Token →
    Option (List (String × String) × List Token)
  | 0, _, _, _ => none
  | fuel + 1, versioned, handles, tokens =>
    match tokens with
    | .version major minor :: rest =>
      if versioned || major ≠ 1 || (minor ≠ 1 && minor ≠ 2) then none
      else readDirectives fuel true handles rest
    | .tagHandle handle stem :: rest =>
      if handles.any fun entry => entry.1 = handle then none
      else readDirectives fuel versioned (handles ++ [(handle, stem)]) rest
    | rest => some (handles, rest)

/-- Reads the documents of a text from the second one on, or also the first if it is marked.  Each
of these starts with a mark. -/
def readDocuments : (fuel : Nat) → (first : Bool) → List Token → Option (List Node)
  | 0, _, _ => none
  | fuel + 1, first, tokens => do
    let tokens := if first then tokens else tokens.dropWhile (· = .documentEnd)
    let size := 3 * tokens.length + 8
    match tokens with
    | [] | .streamEnd :: _ => some []
    | .version _ _ :: _ | .tagHandle _ _ :: _ | .documentStart :: _ =>
      let (handles, rest) ← readDirectives size false [] tokens
      let handles := handles ++ standardHandles
      match rest with
      | .documentStart :: rest =>
        let r : Reading := ⟨rest, .empty, handles⟩
        let (node, r) ←
          match rest with
          | [] | .version _ _ :: _ | .tagHandle _ _ :: _ | .documentStart :: _
          | .documentEnd :: _ | .streamEnd :: _ => some (Node.empty, r)
          | _ => readNode true false size r
        let others ← readDocuments fuel false r.tokens
        some (node :: others)
      | _ => none
    | _ =>
      if first then do
        let (node, r) ← readNode true false size ⟨tokens, .empty, standardHandles⟩
        let others ← readDocuments fuel false r.tokens
        some (node :: others)
      else none

/-- The documents of a YAML text, if it is well formed. -/
def documents? (text : String) : Option (List Node) := do
  let tokens ← tokens? text.toList
  readDocuments (tokens.size + 1) true tokens.toList

end Admission.Yaml
