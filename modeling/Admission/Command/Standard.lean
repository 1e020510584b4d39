import Admission.RuleSet.Yaml
import Admission.Session

/-!
# The formats of the command

The command reads its settings and its rules in YAML and writes its decisions in JSON.  These are
the formats that it runs with; what is shown of rule files, sessions and the command holds of any.
-/

namespace Admission

instance Formats.standard : Formats where
  ruleSet? := RuleSet.ofYaml?
  arguments := Arguments.parse
  settingsPaths := Settings.candidates
  settings? := Settings.load?
  decision := Decision.text

end Admission
