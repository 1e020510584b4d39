/-!
# YAML tokens

The tokens of a YAML text.  Besides the marks that are written, there are tokens for the start and
the end of block collections, which indentation tells.
-/

namespace Admission.Yaml

/-- How a scalar is written. -/
inductive Style where
  | plain
  | singleQuoted
  | doubleQuoted
  | literal
  | folded
deriving DecidableEq, Repr, Inhabited

/-- A token. -/
inductive Token where
  | streamEnd
  /-- A `%YAML` line with its version. -/
  | version (major minor : Nat)
  /-- A `%TAG` line: a handle and what it stands for. -/
  | tagHandle (handle stem : String)
  | documentStart
  | documentEnd
  | blockSequenceStart
  | blockMappingStart
  | blockEnd
  | flowSequenceStart
  | flowSequenceEnd
  | flowMappingStart
  | flowMappingEnd
  | blockEntry
  | flowEntry
  | key
  | value
  | alias (name : String)
  | anchor (name : String)
  | tag (handle suffix : String)
  | scalar (style : Style) (text : String)
deriving DecidableEq, Repr, Inhabited

end Admission.Yaml
