import Admission.Fault

/-!
# Rule files

Rules are kept in a file that is looked at again and again.  `RuleFile.look` says which rules to
publish: those of a text that differs from the last one and makes rules.  A text that makes none
is remembered all the same, so that it is complained about once, and a file that cannot be read is
passed over.

How a text is read as a rule set is up to a `RuleReader`, and nothing here depends on which.
-/

namespace Admission

/-- What is read from a file: its bytes, if it exists. -/
abbrev FileContent := Option ByteArray

def FileContent.text (content : FileContent) : Except Fault String :=
  match content with
  | none => .error (.file .missing)
  | some bytes =>
    match String.fromUTF8? bytes with
    | some text => .ok text
    | none => .error (.file .notText)

/-- How texts are read as rule sets. -/
class RuleReader where
  /-- The rule set that a text says, if it says one. -/
  ruleSet? : String → Option RuleSet

namespace RuleSet

variable [RuleReader]

def parse (text : String) : Except Fault RuleSet :=
  match RuleReader.ruleSet? text with
  | some rules => .ok rules
  | none => .error (.configuration .unreadableRules)

/-- The rules that a text makes: it has to say a rule set that can be compiled. -/
def load (text : String) : Except Fault (List (Rule Descriptor)) := do
  let rules ← parse text
  match rules.compile with
  | .ok compiled => return compiled
  | .error fault => throw (.configuration (.ruleSet fault))

end RuleSet

/-- The text of a rule file when it was last read. -/
structure RuleFile where
  last : String
deriving DecidableEq, Repr

namespace RuleFile

variable [RuleReader]

/-- The first look at a file, which has to make rules. -/
def start (content : FileContent) : Except Fault (RuleFile × List (Rule Descriptor)) := do
  let text ← content.text
  let rules ← RuleSet.load text
  return (⟨text⟩, rules)

/-- A later look at a file, with the rules to publish if there are new ones. -/
def look (file : RuleFile) (content : FileContent) :
    RuleFile × Option (List (Rule Descriptor)) :=
  match content.text with
  | .error _ => (file, none)
  | .ok text => if text = file.last then (file, none) else (⟨text⟩, (RuleSet.load text).toOption)

end RuleFile

end Admission
