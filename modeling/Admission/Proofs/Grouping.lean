import Admission.Proofs.Compiling
import Admission.Proofs.Escaping

/-!
# Groups of descriptors

A grouping of a rule set tells descriptors apart by the first values of some keys.  The values are
joined with bars into one text, so it must be possible to take the text apart again: bars and
backslashes of a value are escaped, and each bar that is not is one between two values.

* `piecesUnescaped_groupText` — the text comes apart into the escaped values, in order.
* `GroupingSpec.groupOf_eq_iff` — hence two descriptors are in one group only if they have the same
  values.
* `DistinctNames.sharesCell_iff` — where names are distinct, two operations that a rule applies to
  share a cell of a grouping with rates if and only if they are in one group.
* `sharesCell_iff_same_values` — both together, for every rule set that is compiled.
-/

namespace Admission

/-! ## The text of a group -/

/-- The first value of a key, which is empty if the descriptor has none. -/
def Descriptor.valueOf (d : Descriptor) (key : String) : String := (d.get? key).getD ""

/-- The text of a group comes apart into the values that it was joined from. -/
theorem piecesUnescaped_groupText {keys : List String} (hne : keys ≠ []) (d : Descriptor) :
    piecesUnescaped '|' (groupText keys d) =
      keys.map fun key => escape ['|', '\\'] (d.valueOf key).toList := by
  apply piecesUnescaped_intercalate (by decide)
  · rw [Ne, List.map_eq_nil_iff]
    exact hne
  · intro text htext
    obtain ⟨key, _, rfl⟩ := List.mem_map.mp htext
    exact shielded_escape (by decide) (by decide) _

theorem groupText_eq_iff {keys : List String} (hne : keys ≠ []) {d d' : Descriptor} :
    groupText keys d = groupText keys d' ↔ ∀ key ∈ keys, d.valueOf key = d'.valueOf key := by
  constructor
  · intro h key hkey
    have hpieces := congrArg (piecesUnescaped '|') h
    rw [piecesUnescaped_groupText hne, piecesUnescaped_groupText hne, List.map_inj_left]
      at hpieces
    exact String.toList_inj.mp ((escape_inj (by decide)).mp (hpieces key hkey))
  · intro h
    show ['|'].intercalate (keys.map fun key => escape ['|', '\\'] (d.valueOf key).toList) = _
    rw [List.map_congr_left fun key hkey => by rw [h key hkey]]
    rfl

namespace GroupingSpec

variable {g : GroupingSpec} {d d' : Descriptor}

theorem groupOf_of_ne_nil (hne : g.groupBy ≠ []) (d : Descriptor) :
    g.groupOf d = .value (String.ofList (groupText g.groupBy d)) := by
  unfold groupOf
  rw [if_neg]
  rw [List.isEmpty_iff]
  exact hne

/-- Without any keys there is one group for all. -/
theorem groupOf_of_nil (hnil : g.groupBy = []) (d : Descriptor) : g.groupOf d = .whole := by
  unfold groupOf
  rw [hnil]
  rfl

theorem groupOf_eq_iff (hne : g.groupBy ≠ []) :
    g.groupOf d = g.groupOf d' ↔ ∀ key ∈ g.groupBy, d.valueOf key = d'.valueOf key := by
  rw [groupOf_of_ne_nil hne, groupOf_of_ne_nil hne, GroupKey.value.injEq, String.ofList_inj]
  exact groupText_eq_iff hne

end GroupingSpec

/-! ## The cells of a group -/

variable {ω : Type}

/-- There is a cell of a rule and a grouping, by their names, in which two operations count. -/
def SharesCell (rules : List (Rule ω)) (rule grouping : String) (a b : ω) : Prop :=
  ∃ key ∈ implicated rules a, key ∈ implicated rules b ∧ key.rule = rule ∧ key.grouping = grouping

/-- Where names are distinct, what shares a cell of a grouping is what it puts in one group. -/
theorem DistinctNames.sharesCell_iff {rules : List (Rule ω)} (h : DistinctNames rules)
    {r : Rule ω} (hr : r ∈ rules) {g : Grouping ω} (hg : g ∈ r.groupings) (hrates : g.rates ≠ [])
    {a b : ω} (ha : r.appliesTo a = true) (hb : r.appliesTo b = true) :
    SharesCell rules r.name g.name a b ↔ g.groupOf a = g.groupOf b := by
  constructor
  · rintro ⟨key, hkeya, hkeyb, hrule, hgrouping⟩
    obtain ⟨_, _, _, rfl⟩ := h.exists_rate_of_mem_implicated hr hg hkeya hrule hgrouping
    obtain ⟨_, _, _, hsame⟩ := h.exists_rate_of_mem_implicated hr hg hkeyb hrule hgrouping
    exact congrArg CellKey.group hsame
  · intro hgroup
    obtain ⟨rate, hrate⟩ := List.exists_mem_of_ne_nil _ hrates
    refine ⟨rateKey r g (g.groupOf a) rate, rateKey_mem_implicated hr ha hg hrate, ?_, rfl, rfl⟩
    rw [hgroup]
    exact rateKey_mem_implicated hr hb hg hrate

/-- A grouping of a rule set that is compiled is found among the compiled rules. -/
theorem RuleSet.Makes.exists_grouping {s : RuleSet} {rules : List (Rule Descriptor)}
    (h : s.Makes rules) {r : RuleSpec} (hr : r ∈ s.rules) {g : GroupingSpec}
    (hg : g ∈ r.groupings) :
    ∃ rule ∈ rules, r.Makes s.domain rule ∧ ∃ grouping ∈ rule.groupings, g.Makes grouping := by
  obtain ⟨rule, hrule, hmakes⟩ := exists_of_forall₂ h.rules hr
  exact ⟨rule, hrule, hmakes, exists_of_forall₂ hmakes.groupings hg⟩

theorem GroupingSpec.Makes.rates_ne_nil {g : GroupingSpec} {made : Grouping Descriptor}
    (h : g.Makes made) (hne : g.rates ≠ []) : made.rates ≠ [] := by
  obtain ⟨spec, hspec⟩ := List.exists_mem_of_ne_nil _ hne
  obtain ⟨rate, hrate, _⟩ := exists_of_forall₂ h.rates hspec
  exact List.ne_nil_of_mem hrate

/-- **Groups are told apart by their values.** A grouping by some keys puts two descriptors in one
group if and only if each key has the same first value in both, where a missing one is empty; and
no such group is the undivided one, whatever bars, backslashes and empty texts are among the values.
Hence, in every rule set that is compiled, two descriptors that a rule applies to share a cell of a
grouping with rates if and only if the grouping does not divide or they have the same values. -/
theorem sharesCell_iff_same_values :
    (∀ (g : GroupingSpec) (d d' : Descriptor), g.groupBy ≠ [] →
      (g.groupOf d = g.groupOf d' ↔ ∀ key ∈ g.groupBy, d.valueOf key = d'.valueOf key) ∧
        g.groupOf d ≠ .whole) ∧
    ∀ (s : RuleSet) (rules : List (Rule Descriptor)), s.compile = .ok rules →
      ∀ r ∈ s.rules, ∀ g ∈ r.groupings, g.rates ≠ [] → ∀ d d' : Descriptor,
        r.appliesTo s.domain d = true → r.appliesTo s.domain d' = true →
        (SharesCell rules r.name g.name d d' ↔
          g.groupBy = [] ∨ ∀ key ∈ g.groupBy, d.valueOf key = d'.valueOf key) := by
  constructor
  · intro g d d' hne
    refine ⟨GroupingSpec.groupOf_eq_iff hne, ?_⟩
    rw [GroupingSpec.groupOf_of_ne_nil hne]
    intro hwhole
    cases hwhole
  · intro s rules hcompile r hr g hg hrates d d' hd hd'
    have hmakes := RuleSet.compile_eq_ok_iff.mp hcompile
    obtain ⟨rule, hrule, hr, grouping, hgrouping, hg⟩ := hmakes.exists_grouping hr hg
    rw [← hr.appliesTo] at hd hd'
    rw [← hr.name, ← hg.name, hmakes.distinctNames.sharesCell_iff hrule hgrouping
      (hg.rates_ne_nil hrates) hd hd', hg.groupOf]
    by_cases hne : g.groupBy = []
    · rw [GroupingSpec.groupOf_of_nil hne, GroupingSpec.groupOf_of_nil hne]
      exact iff_of_true rfl (.inl hne)
    · rw [GroupingSpec.groupOf_eq_iff hne]
      exact (or_iff_right hne).symm

/-- Three permits a second for each pair of a user and a team. -/
def byPair : GroupingSpec := ⟨"pair", ["user", "team"], [⟨3, .second, 1⟩]⟩

def pairRule : RuleSpec := ⟨"api", [], [byPair]⟩

/-- A bar within a value joins no groups, and a missing value is as good as an empty one. -/
theorem sharesCell_iff_same_values_byPair :
    ∃ rules, RuleSet.compile ⟨none, [pairRule]⟩ = .ok rules ∧
      ¬ SharesCell rules "api" "pair" ⟨"edge", [("user", "a|b"), ("team", "c")]⟩
        ⟨"edge", [("user", "a"), ("team", "b|c")]⟩ ∧
      SharesCell rules "api" "pair" ⟨"edge", [("user", "a")]⟩
        ⟨"core", [("team", ""), ("user", "a"), ("user", "b")]⟩ := by
  obtain ⟨rules, hrules⟩ : ∃ rules, RuleSet.compile ⟨none, [pairRule]⟩ = .ok rules := ⟨_, rfl⟩
  have hshares : ∀ d d' : Descriptor, SharesCell rules "api" "pair" d d' ↔
      byPair.groupBy = [] ∨ ∀ key ∈ byPair.groupBy, d.valueOf key = d'.valueOf key := fun d d' =>
    sharesCell_iff_same_values.2 _ rules hrules pairRule List.mem_cons_self byPair
      List.mem_cons_self (List.cons_ne_nil _ _) d d' rfl rfl
  refine ⟨rules, hrules, ?_, ?_⟩
  · rw [hshares]
    decide
  · rw [hshares]
    decide

end Admission
