import Admission.Command
import Admission.Proofs.Run
import Admission.Proofs.Traversal
import Admission.Watched

/-!
# The last good file is in force

A rule file remembers the last text it was read with, good or bad, and rules are published when a
new text makes some.  So the remembered text and the rules in force part ways at a bad text, and a
good text that comes back after it is new again.  What holds the two together is that the remembered
text, if it makes rules at all, makes those in force (`InForce.of_last`): a file that has not
changed has nothing to say.  How a text is read as a rule set makes no difference to this, as long
as it is always read in the same way: a `RuleReader` is any function.

* `InForce.look` — one look at the file keeps this, whatever the file holds.
* `polls_enforce_last_good` — a value that a file is polled for holds, after any number of polls,
  the rules of the last content that made any, and is set by no other poll than one with a new text
  that makes rules.
* `Session.run_enforces_last_good` — the same of the rules that a session decides by, whatever else
  happens to it.
-/

namespace Admission

theorem findSome?_reverse_concat {α β : Type} (f : α → Option β) (xs : List α) (x : α) :
    (xs ++ [x]).reverse.findSome? f = (f x).or (xs.reverse.findSome? f) := by
  rw [List.reverse_append, List.reverse_singleton, List.singleton_append, List.findSome?_cons]
  cases f x <;> rfl

theorem fromUTF8?_toUTF8 (text : String) : String.fromUTF8? text.toUTF8 = some text := by
  unfold String.fromUTF8?
  exact dif_pos text.isValidUTF8

/-- A file that holds a text. -/
def FileContent.ofText (text : String) : FileContent := some text.toUTF8

theorem FileContent.text_ofText (text : String) : (ofText text).text = .ok text := by
  unfold FileContent.text ofText
  dsimp only
  rw [fromUTF8?_toUTF8]

/-- The text of the last content that could be read, in contents listed oldest first. -/
def lastText? (history : List FileContent) : Option String :=
  history.reverse.findSome? fun content => content.text.toOption

theorem lastText?_concat (history : List FileContent) (content : FileContent) :
    lastText? (history ++ [content]) = content.text.toOption.or (lastText? history) :=
  findSome?_reverse_concat _ history content

section Looks

variable [RuleReader]

/-- The rules that a content makes, if it can be read and makes any. -/
def FileContent.rules? (content : FileContent) : Option (List (Rule Descriptor)) :=
  content.text.toOption.bind fun text => (RuleSet.load text).toOption

/-- The rules of the last content that made any. -/
def lastRules? (history : List FileContent) : Option (List (Rule Descriptor)) :=
  history.reverse.findSome? FileContent.rules?

variable {history : List FileContent} {content : FileContent} {text : String}
variable {rules : List (Rule Descriptor)}

theorem lastRules?_concat (history : List FileContent) (content : FileContent) :
    lastRules? (history ++ [content]) = content.rules?.or (lastRules? history) :=
  findSome?_reverse_concat _ history content

theorem FileContent.rules?_of_text (h : content.text = .ok text) :
    content.rules? = (RuleSet.load text).toOption := by
  unfold FileContent.rules?
  rw [h]
  rfl

theorem FileContent.rules?_of_error {fault : Fault} (h : content.text = .error fault) :
    content.rules? = none := by
  unfold FileContent.rules?
  rw [h]
  rfl

namespace RuleFile

variable {file : RuleFile}

/-! ## One look -/

theorem start_eq_ok_iff {first : FileContent} :
    start first = .ok (file, rules) ↔
      first.text = .ok file.last ∧ RuleSet.load file.last = .ok rules := by
  unfold start
  rw [bind_eq_ok_iff]
  constructor
  · rintro ⟨text, htext, hmore⟩
    obtain ⟨made, hload, hstarted⟩ := bind_eq_ok_iff.mp hmore
    cases hstarted
    exact ⟨htext, hload⟩
  · rintro ⟨htext, hload⟩
    exact ⟨file.last, htext, bind_eq_ok_iff.mpr ⟨rules, hload, rfl⟩⟩

theorem look_of_error {fault : Fault} (h : content.text = .error fault) :
    file.look content = (file, none) := by
  unfold look
  rw [h]

theorem look_of_last (h : content.text = .ok file.last) : file.look content = (file, none) := by
  unfold look
  rw [h]
  exact if_pos rfl

theorem look_of_new (h : content.text = .ok text) (hnew : text ≠ file.last) :
    file.look content = (⟨text⟩, (RuleSet.load text).toOption) := by
  unfold look
  rw [h]
  exact if_neg hnew

/-- What a file and the rules in force are after a history of contents. -/
structure InForce (history : List FileContent) (file : RuleFile)
    (inForce : List (Rule Descriptor)) : Prop where
  last_eq : lastText? history = some file.last
  rules_eq : lastRules? history = some inForce
  /-- The remembered text makes no other rules than those in force. -/
  of_last : ∀ made, RuleSet.load file.last = .ok made → made = inForce

/-- A content that says nothing new after a history of others. -/
inductive Stale (history : List FileContent) (content : FileContent) : Prop where
  | unreadable (h : content.text.toOption = none)
  | unchanged (h : content.text.toOption = lastText? history)
  | broken (h : content.rules? = none)

namespace InForce

/-- The first look puts in force what it reads. -/
theorem start {first : FileContent} (h : RuleFile.start first = .ok (file, rules)) :
    InForce [first] file rules := by
  obtain ⟨htext, hload⟩ := start_eq_ok_iff.mp h
  refine ⟨?_, ?_, ?_⟩
  · show lastText? ([] ++ [first]) = _
    rw [lastText?_concat, htext]
    rfl
  · show lastRules? ([] ++ [first]) = _
    rw [lastRules?_concat, FileContent.rules?_of_text htext, hload]
    rfl
  · intro made hmade
    rw [hload] at hmade
    exact (Except.ok.inj hmade).symm

/-- A look keeps the rules of the last good content in force: it leaves them alone, or the content
is good and new. -/
theorem look (h : InForce history file rules) (content : FileContent) :
    InForce (history ++ [content]) (file.look content).1 ((file.look content).2.getD rules) := by
  cases htext : content.text with
  | error fault =>
    rw [look_of_error htext]
    refine ⟨?_, ?_, h.of_last⟩
    · rw [lastText?_concat, htext]
      exact h.last_eq
    · rw [lastRules?_concat, FileContent.rules?_of_error htext]
      exact h.rules_eq
  | ok text =>
    have hlast : lastText? (history ++ [content]) = some text := by
      rw [lastText?_concat, htext]
      rfl
    have hrules : lastRules? (history ++ [content]) =
        (RuleSet.load text).toOption.or (some rules) := by
      rw [lastRules?_concat, FileContent.rules?_of_text htext, h.rules_eq]
    by_cases hsame : text = file.last
    · subst hsame
      rw [look_of_last htext]
      refine ⟨hlast, ?_, h.of_last⟩
      rw [hrules]
      cases hload : RuleSet.load file.last with
      | error fault => rfl
      | ok made =>
        -- the text has been good all along, so its rules are those in force
        rw [h.of_last made hload]
        rfl
    · rw [look_of_new htext hsame]
      cases hload : RuleSet.load text with
      | error fault =>
        refine ⟨hlast, ?_, ?_⟩
        · rw [hrules, hload]
          rfl
        · intro made hmade
          rw [hload] at hmade
          cases hmade
      | ok made =>
        refine ⟨hlast, ?_, ?_⟩
        · rw [hrules, hload]
          rfl
        · intro other hother
          rw [hload] at hother
          exact (Except.ok.inj hother).symm

/-- Nothing is published for a content that says nothing new. -/
theorem look_stale (h : InForce history file rules) (hstale : Stale history content) :
    (file.look content).2 = none := by
  cases htext : content.text with
  | error fault => rw [look_of_error htext]
  | ok text =>
    by_cases hsame : text = file.last
    · subst hsame
      rw [look_of_last htext]
    · rw [look_of_new htext hsame]
      cases hstale with
      | unreadable hnone =>
        rw [htext] at hnone
        cases hnone
      | unchanged heq =>
        rw [htext, h.last_eq] at heq
        exact absurd (Option.some.inj heq) hsame
      | broken hnone =>
        rw [FileContent.rules?_of_text htext] at hnone
        exact hnone

/-- The rules of a content with a new text are published. -/
theorem look_fresh (h : InForce history file rules) (htext : content.text = .ok text)
    (hnew : lastText? history ≠ some text) {made : List (Rule Descriptor)}
    (hload : RuleSet.load text = .ok made) : (file.look content).2 = some made := by
  have hother : text ≠ file.last := by
    intro hsame
    rw [h.last_eq, hsame] at hnew
    exact hnew rfl
  rw [look_of_new htext hother, hload]
  rfl

end InForce

/-! ## Polls -/

/-- A poll at a reading of the clock: a look at the file, and what new rules it makes are published
to a value whose subscribers react to them. -/
def poll {σ : Type} (react : Instant → List (Rule Descriptor) → σ → σ)
    (watch : RuleFile × Watched (List (Rule Descriptor)) σ) (e : Instant × FileContent) :
    RuleFile × Watched (List (Rule Descriptor)) σ :=
  match watch.1.look e.2 with
  | (file, none) => (file, watch.2)
  | (file, some made) => (file, watch.2.set (react e.1) made)

section Polls

variable {σ : Type} {react : Instant → List (Rule Descriptor) → σ → σ}
variable {target : Watched (List (Rule Descriptor)) σ}
variable {watch : RuleFile × Watched (List (Rule Descriptor)) σ} {e : Instant × FileContent}

theorem poll_of_none (h : (watch.1.look e.2).2 = none) :
    poll react watch e = ((watch.1.look e.2).1, watch.2) := by
  unfold poll
  split
  · next hlook => rw [hlook]
  · next hlook => rw [hlook] at h; cases h

theorem poll_of_some {made : List (Rule Descriptor)}
    (h : (watch.1.look e.2).2 = some made) :
    poll react watch e = ((watch.1.look e.2).1, watch.2.set (react e.1) made) := by
  unfold poll
  split
  · next hlook => rw [hlook] at h; cases h
  · next hlook =>
    rw [hlook] at h
    rw [hlook, Option.some.inj h]

theorem InForce.poll (h : InForce history file target.current) (e : Instant × FileContent) :
    let watch := RuleFile.poll react (file, target) e
    InForce (history ++ [e.2]) watch.1 watch.2.current := by
  have hlook := h.look e.2
  cases hmade : (file.look e.2).2 with
  | none =>
    rw [poll_of_none hmade]
    rwa [hmade] at hlook
  | some made =>
    rw [poll_of_some hmade]
    rwa [hmade] at hlook

theorem InForce.polls (h : InForce history file target.current)
    (polled : List (Instant × FileContent)) :
    let watch := polled.foldl (RuleFile.poll react) (file, target)
    InForce (history ++ polled.map (·.2)) watch.1 watch.2.current := by
  induction polled generalizing history file target with
  | nil => simpa using h
  | cons e rest ih =>
    rw [List.map_cons, List.append_cons]
    exact ih (h.poll e)

end Polls

end RuleFile

end Looks

namespace RuleFile

/-- **The last good file is in force.** A value that a file is watched for holds, after any polls,
the rules of the last content that made any.  The next poll leaves the value and its subscribers
alone if the content cannot be read, is that of the last poll that could read one, or makes no
rules; it sets the value if a new text makes rules.  All this holds however texts are read as rule
sets. -/
theorem polls_enforce_last_good [RuleReader] {σ : Type}
    (react : Instant → List (Rule Descriptor) → σ → σ)
    (target : Watched (List (Rule Descriptor)) σ) (began : Instant) (first : FileContent)
    (text : String) (rules : List (Rule Descriptor)) (htext : first.text = .ok text)
    (hload : RuleSet.load text = .ok rules) (polled : List (Instant × FileContent)) :
    ∃ file, RuleFile.start first = .ok (file, rules) ∧
      let history := first :: polled.map (·.2)
      let watch := polled.foldl (poll react) (file, target.set (react began) rules)
      lastRules? history = some watch.2.current ∧
        (∀ e, Stale history e.2 → (poll react watch e).2 = watch.2) ∧
        ∀ e newText made, e.2.text = .ok newText → lastText? history ≠ some newText →
          RuleSet.load newText = .ok made →
          (poll react watch e).2 = watch.2.set (react e.1) made := by
  have hstart : RuleFile.start first = .ok (⟨text⟩, rules) := start_eq_ok_iff.mpr ⟨htext, hload⟩
  refine ⟨⟨text⟩, hstart, ?_⟩
  intro history watch
  have hset : InForce [first] ⟨text⟩ (target.set (react began) rules).current :=
    InForce.start hstart
  have hwatch : InForce history watch.1 watch.2.current := hset.polls polled
  refine ⟨hwatch.rules_eq, ?_, ?_⟩
  · intro e hstale
    rw [poll_of_none (hwatch.look_stale hstale)]
  · intro e newText made hnewText hnew hmade
    rw [poll_of_some (hwatch.look_fresh hnewText hnew hmade)]

/-- The rules come back with a file that was broken, gone and broken again in between, although its
text is the one that they were first made from. -/
theorem polls_enforce_last_good_reverted :
    let good := FileContent.ofText "rules:\n  - name: api"
    let polled : List (Instant × FileContent) :=
      [(⟨1⟩, .ofText "["), (⟨2⟩, none), (⟨3⟩, .ofText "[")]
    let react := fun (_ : Instant) (_ : List (Rule Descriptor)) (count : Nat) => count + 1
    ∃ rules file, start good = .ok (file, rules) ∧ rules.map (·.name) = ["api"] ∧
      let watch := polled.foldl (poll react) (file, (Watched.new []).set (react ⟨0⟩) rules)
      watch.2.current = rules ∧
        (poll react watch (⟨4⟩, good)).2 = watch.2.set (react ⟨4⟩) rules := by
  intro good polled react
  have hnames : (RuleSet.load "rules:\n  - name: api").toOption.map (·.map (·.name)) =
      some ["api"] := by
    decide +kernel
  have hbroken : (RuleSet.load "[").toOption.isNone = true := by
    decide +kernel
  cases hload : RuleSet.load "rules:\n  - name: api" with
  | error fault =>
    rw [hload] at hnames
    cases hnames
  | ok rules =>
    rw [hload] at hnames
    have htext : good.text = .ok "rules:\n  - name: api" := FileContent.text_ofText _
    obtain ⟨file, hstart, hcurrent, _, hfresh⟩ :=
      polls_enforce_last_good react (Watched.new []) ⟨0⟩ good _ rules htext hload polled
    refine ⟨rules, file, hstart, Option.some.inj hnames, ?_, ?_⟩
    · have hlast : lastRules? [good, .ofText "[", none, .ofText "["] = some rules := by
        have hnone : FileContent.rules? (.ofText "[") = none := by
          rw [FileContent.rules?_of_text (FileContent.text_ofText _)]
          exact Option.isNone_iff_eq_none.mp hbroken
        have hmissing : FileContent.rules? none = none := rfl
        have hgood : good.rules? = some rules := by
          rw [FileContent.rules?_of_text htext, hload]
          rfl
        simp [lastRules?, hnone, hmissing, hgood]
      exact Option.some.inj (hcurrent.symm.trans hlast)
    · have hlast : lastText? (good :: polled.map (·.2)) = some "[" := rfl
      refine hfresh (⟨4⟩, good) _ rules htext ?_ hload
      rw [hlast]
      decide

end RuleFile

/-! ## Sessions -/

namespace Gate

variable {α : Type} [Amount α]

theorem rules_askRules (g : Gate α) (d : Descriptor) (now : Instant) :
    (g.askRules d now).1.limiter.rules = g.limiter.rules := by
  unfold askRules Limiter.requireOne Limiter.requireMany Limiter.request
  dsimp only
  split <;> rfl

theorem rules_askAt (g : Gate α) (d : Descriptor) (readings : Readings) :
    (g.askAt d readings).1.limiter.rules = g.limiter.rules := by
  unfold askAt
  split
  · exact g.rules_askRules d readings.rules
  · next buckets _ =>
    have hrules := rules_askRules
      { g with buckets := some (buckets.require d.domain 1 readings.bucket).after } d readings.rules
    dsimp only
    split
    · rfl
    · split
      · next hasked => rwa [hasked] at hrules
      · next hasked => rwa [hasked] at hrules

/-- Deciding about lines does not change the rules. -/
theorem rules_decideLine (g : Gate α) (line : String) (readings : Readings) :
    (g.decideLine line readings).1.limiter.rules = g.limiter.rules := by
  unfold decideLine decide
  dsimp only
  split
  · rfl
  · split
    · rfl
    · next descriptor _ =>
      have hrules := g.rules_askAt descriptor readings
      split
      · next hasked => rwa [hasked] at hrules
      · next hasked => rwa [hasked] at hrules

end Gate

/-- The content that a look at the rule file finds. -/
def Occurrence.looked? {ι : Type} : Occurrence ι → Option FileContent
  | look content _ => some content
  | _ => none

namespace Session

open RuleFile

variable [RuleReader] {s : Session} {history : List FileContent} {content : FileContent}

theorem look_of_none {now : Instant} (h : (s.ruleFile.look content).2 = none) :
    s.look content now = { s with ruleFile := (s.ruleFile.look content).1 } := by
  unfold look
  split
  · next hlook => rw [hlook]
  · next hlook => rw [hlook] at h; cases h

theorem look_of_some {now : Instant} {made : List (Rule Descriptor)}
    (h : (s.ruleFile.look content).2 = some made) :
    s.look content now =
      { s with ruleFile := (s.ruleFile.look content).1, gate := s.gate.publish made now } := by
  unfold look
  split
  · next hlook => rw [hlook] at h; cases h
  · next hlook =>
    rw [hlook] at h
    rw [hlook, Option.some.inj h]

/-- The rules of a session are in force after a look, as those of a watched value are after a poll. -/
theorem inForce_look (h : InForce history s.ruleFile s.gate.limiter.rules) (content : FileContent)
    (now : Instant) :
    InForce (history ++ [content]) (s.look content now).ruleFile
      (s.look content now).gate.limiter.rules := by
  have hlook := h.look content
  cases hmade : (s.ruleFile.look content).2 with
  | none =>
    rw [look_of_none hmade]
    rwa [hmade] at hlook
  | some made =>
    rw [look_of_some hmade]
    rwa [hmade] at hlook

theorem inForce_meet (h : InForce history s.ruleFile s.gate.limiter.rules)
    (e : Occurrence String) :
    InForce (history ++ e.looked?.toList) (s.meet e).1.ruleFile
      (s.meet e).1.gate.limiter.rules := by
  cases e with
  | line text readings =>
    show InForce (history ++ []) s.ruleFile (s.gate.decideLine text readings).1.limiter.rules
    rwa [List.append_nil, Gate.rules_decideLine]
  | sweepBuckets now =>
    rw [← List.append_nil history] at h
    exact h
  | sweepRules now =>
    rw [← List.append_nil history] at h
    exact h
  | look content now => exact inForce_look h content now

theorem inForce_run (h : InForce history s.ruleFile s.gate.limiter.rules)
    (events : List (Occurrence String)) :
    let after := (run meet s events).1
    InForce (history ++ events.filterMap Occurrence.looked?) after.ruleFile
      after.gate.limiter.rules := by
  induction events generalizing history s with
  | nil => simpa [run] using h
  | cons e rest ih =>
    have hlooked : (e :: rest).filterMap Occurrence.looked? =
        e.looked?.toList ++ rest.filterMap Occurrence.looked? := by
      cases e <;> rfl
    rw [run_cons, hlooked, ← List.append_assoc]
    exact ih (inForce_meet h e)

/-- A session decides, whatever lines, sweeps and looks at its rule file there were, by the rules of
the last content that made any, and a look at a content that says nothing new leaves its gate
alone. -/
theorem run_enforces_last_good {settings : Settings} {path : String} {first : FileContent}
    (h : ofFile settings path first = .ok s) (events : List (Occurrence String)) :
    let history := first :: events.filterMap Occurrence.looked?
    let after := (run meet s events).1
    lastRules? history = some after.gate.limiter.rules ∧
      ∀ now content, Stale history content → (after.look content now).gate = after.gate := by
  have hfirst : InForce [first] s.ruleFile s.gate.limiter.rules := by
    obtain ⟨made, hstart, hmore⟩ := bind_eq_ok_iff.mp h
    obtain ⟨plan, _, hstarted⟩ := bind_eq_ok_iff.mp hmore
    rw [← Except.ok.inj hstarted]
    exact InForce.start hstart
  have hafter := inForce_run hfirst events
  refine ⟨hafter.rules_eq, ?_⟩
  intro now content hstale
  rw [look_of_none (hafter.look_stale hstale)]

end Session

end Admission
