import Admission.Proofs.Ceiling
import Admission.Proofs.Traversal
import Admission.RuleFile

/-!
# What rule sets compile to

A rule set is compiled rule by rule, a rule grouping by grouping and a grouping rate by rate, and
the first fault ends it all.

* `RuleSet.Makes` — a rule list is what a rule set stands for, said of each level and without the
  compiler.  `RuleSet.compile_eq_ok_iff` says that the compiler makes this and nothing else.
* `RuleSet.FirstFault` — what stands before the fault that is told: nothing that would be one.
* `RuleSpec.Covers` — the descriptors that a rule is for: the domain is the given one, and each
  condition is met by the first entry of its key.
* `CellsApart` — the rates of two groupings never count in the same cell.
* `RuleSet.compile_exact` — hence the compiler takes exactly the valid rule sets, keeps every rate
  in its place, and keeps the cells of all groupings apart.
-/

namespace Admission

/-! ## The descriptors that a rule is for -/

/-- The first entry of a key has a value. -/
def Descriptor.Says (d : Descriptor) (key value : String) : Prop :=
  ∃ before after, d.entries = before ++ (key, value) :: after ∧ ∀ e ∈ before, e.1 ≠ key

theorem Descriptor.get?_eq_some_iff {d : Descriptor} {key value : String} :
    d.get? key = some value ↔ d.Says key value := by
  unfold get? Says
  rw [Option.map_eq_some_iff]
  constructor
  · rintro ⟨entry, hfind, rfl⟩
    obtain ⟨hkey, before, after, hsplit, hbefore⟩ := List.find?_eq_some_iff_append.mp hfind
    obtain rfl := of_decide_eq_true hkey
    refine ⟨before, after, hsplit, fun e he => ?_⟩
    simpa using hbefore e he
  · rintro ⟨before, after, hsplit, hbefore⟩
    refine ⟨(key, value), List.find?_eq_some_iff_append.mpr ⟨decide_eq_true rfl, before, after,
      hsplit, fun e he => ?_⟩, rfl⟩
    simpa using hbefore e he

/-- A descriptor meets a condition: it has the entry, and what the first one of the key says is the
given value and starts as given, where that is said. -/
def MatchSpec.Met (m : MatchSpec) (d : Descriptor) : Prop :=
  ∃ said, d.Says m.key said ∧ (∀ value, m.value = some value → said = value) ∧
    ∀ start, m.startsWith = some start → start.toList <+: said.toList

theorem MatchSpec.holds_iff {m : MatchSpec} {d : Descriptor} :
    m.holds d = true ↔ m.Met d := by
  unfold holds Met
  simp only [← Descriptor.get?_eq_some_iff]
  cases d.get? m.key with
  | none => simp
  | some said => simp [Option.all_eq_true]

/-- A rule of a rule set is for a descriptor: the domain of the set, if it has one, is that of the
descriptor, and every condition is met. -/
structure RuleSpec.Covers (domain : Option String) (r : RuleSpec) (d : Descriptor) : Prop where
  inDomain : ∀ name, domain = some name → name = d.domain
  met : ∀ m ∈ r.conditions, m.Met d

theorem RuleSpec.appliesTo_iff {domain : Option String} {r : RuleSpec} {d : Descriptor} :
    r.appliesTo domain d = true ↔ r.Covers domain d := by
  unfold appliesTo
  rw [Bool.and_eq_true, Option.all_eq_true, List.all_eq_true]
  simp only [decide_eq_true_eq, MatchSpec.holds_iff]
  exact ⟨fun h => ⟨h.1, h.2⟩, fun h => ⟨h.inDomain, h.met⟩⟩

/-! ## What rates make -/

/-- What the configured rate stands for. -/
structure RateSpec.Makes (spec : RateSpec) (rate : BurstRate) : Prop where
  units_pos : 0 < spec.units
  permits : rate.permits = spec.requests
  window : rate.window = spec.unit.span.times spec.units.toNat

theorem RateSpec.window_pos_iff {spec : RateSpec} :
    0 < (spec.unit.span.times spec.units.toNat).nanos ↔ 0 < spec.units := by
  rw [Count.pos_iff]
  exact Nat.mul_pos_iff_of_pos_left spec.unit.span_pos

theorem RateSpec.compile?_eq_some_iff {spec : RateSpec} {rate : BurstRate} :
    spec.compile? = some rate ↔ spec.Makes rate := by
  unfold compile? BurstRate.per? BurstRate.make?
  split
  · next hpos =>
    constructor
    · intro h
      obtain rfl := Option.some.inj h
      exact ⟨window_pos_iff.mp hpos, rfl, rfl⟩
    · rintro ⟨_, hpermits, hwindow⟩
      obtain ⟨permits, window, hwpos⟩ := rate
      obtain rfl : permits = spec.requests := hpermits
      obtain rfl : window = _ := hwindow
      rfl
  · next hzero =>
    constructor
    · intro h
      cases h
    · intro h
      exact absurd (window_pos_iff.mpr h.units_pos) hzero

theorem RateSpec.compile?_eq_none_iff {spec : RateSpec} :
    spec.compile? = none ↔ spec.units = 0 := by
  unfold compile? BurstRate.per? BurstRate.make?
  split
  · next hpos =>
    have hunits := window_pos_iff.mp hpos
    exact iff_of_false (by simp) fun hzero => by rw [hzero] at hunits; cases hunits
  · next hzero =>
    rw [window_pos_iff, Count.pos_iff, Nat.not_lt, Nat.le_zero] at hzero
    exact iff_of_true rfl (UInt32.toNat_inj.mp hzero)

theorem compileRates_eq_ok_iff {rule grouping : String} {index : Nat} {specs : List RateSpec}
    {rates : List BurstRate} :
    compileRates rule grouping index specs = .ok rates ↔
      List.Forall₂ RateSpec.Makes specs rates := by
  induction specs generalizing index rates with
  | nil =>
    rw [List.forall₂_nil_left_iff]
    exact ⟨fun h => (Except.ok.inj h).symm, fun h => h ▸ rfl⟩
  | cons spec rest ih =>
    rw [compileRates, List.forall₂_cons_left_iff]
    cases hspec : spec.compile? with
    | none =>
      constructor
      · intro h
        cases h
      · rintro ⟨rate, _, hmakes, _⟩
        rw [RateSpec.compile?_eq_some_iff.mpr hmakes] at hspec
        cases hspec
    | some rate =>
      have hmakes := RateSpec.compile?_eq_some_iff.mp hspec
      rw [bind_eq_ok_iff]
      constructor
      · rintro ⟨tail, htail, hcons⟩
        exact ⟨rate, tail, hmakes, ih.mp htail, (Except.ok.inj hcons).symm⟩
      · rintro ⟨rate', tail, hmakes', htail, rfl⟩
        have hsame := hspec.symm.trans (RateSpec.compile?_eq_some_iff.mpr hmakes')
        obtain rfl := Option.some.inj hsame
        exact ⟨tail, ih.mpr htail, rfl⟩

/-- The fault is at the first rate of no units. -/
theorem compileRates_eq_error {rule grouping : String} {index : Nat} {specs : List RateSpec}
    {cause : RuleSetFault} (h : compileRates rule grouping index specs = .error cause) :
    ∃ before spec after, specs = before ++ spec :: after ∧ (∀ r ∈ before, 0 < r.units) ∧
      spec.units = 0 ∧ cause = .zeroUnits rule grouping (index + before.length) := by
  induction specs generalizing index with
  | nil => cases h
  | cons spec rest ih =>
    rw [compileRates] at h
    cases hspec : spec.compile? with
    | none =>
      rw [hspec] at h
      exact ⟨[], spec, rest, rfl, List.forall_mem_nil _, RateSpec.compile?_eq_none_iff.mp hspec,
        (Except.error.inj h).symm⟩
    | some rate =>
      rw [hspec] at h
      rcases bind_eq_error_iff.mp h with htail | ⟨tail, _, hpure⟩
      · obtain ⟨before, zero, after, rfl, hbefore, hzero, rfl⟩ := ih htail
        refine ⟨spec :: before, zero, after, rfl, ?_, hzero, ?_⟩
        · exact List.forall_mem_cons.mpr
            ⟨(RateSpec.compile?_eq_some_iff.mp hspec).units_pos, hbefore⟩
        · rw [List.length_cons, Nat.add_assoc, Nat.add_comm 1]
      · cases hpure

/-! ## Groupings, rules and rule sets -/

/-- Every rate has some time to its window. -/
def GroupingSpec.Valid (g : GroupingSpec) : Prop := ∀ rate ∈ g.rates, 0 < rate.units

/-- The groupings of a rule are valid and have distinct names. -/
structure RuleSpec.Valid (r : RuleSpec) : Prop where
  names : (r.groupings.map GroupingSpec.name).Nodup
  groupings : ∀ g ∈ r.groupings, g.Valid

/-- The rules of a rule set are valid and have distinct names. -/
structure RuleSet.Valid (s : RuleSet) : Prop where
  names : (s.rules.map RuleSpec.name).Nodup
  rules : ∀ r ∈ s.rules, r.Valid

instance (g : GroupingSpec) : Decidable g.Valid :=
  inferInstanceAs (Decidable (∀ rate ∈ g.rates, 0 < rate.units))

instance (r : RuleSpec) : Decidable r.Valid :=
  decidable_of_iff ((r.groupings.map GroupingSpec.name).Nodup ∧ ∀ g ∈ r.groupings, g.Valid)
    ⟨fun h => ⟨h.1, h.2⟩, fun h => ⟨h.names, h.groupings⟩⟩

instance (s : RuleSet) : Decidable s.Valid :=
  decidable_of_iff ((s.rules.map RuleSpec.name).Nodup ∧ ∀ r ∈ s.rules, r.Valid)
    ⟨fun h => ⟨h.1, h.2⟩, fun h => ⟨h.names, h.rules⟩⟩

/-- What a configured grouping stands for. -/
structure GroupingSpec.Makes (g : GroupingSpec) (made : Grouping Descriptor) : Prop where
  name : made.name = g.name
  groupOf : made.groupOf = g.groupOf
  rates : List.Forall₂ RateSpec.Makes g.rates made.rates

/-- What a configured rule stands for. -/
structure RuleSpec.Makes (domain : Option String) (r : RuleSpec) (made : Rule Descriptor) :
    Prop where
  names : (r.groupings.map GroupingSpec.name).Nodup
  name : made.name = r.name
  appliesTo : made.appliesTo = r.appliesTo domain
  groupings : List.Forall₂ GroupingSpec.Makes r.groupings made.groupings

/-- What a rule set stands for. -/
structure RuleSet.Makes (s : RuleSet) (made : List (Rule Descriptor)) : Prop where
  names : (s.rules.map RuleSpec.name).Nodup
  rules : List.Forall₂ (RuleSpec.Makes s.domain) s.rules made

/-- The first rate of a grouping that has no time to its window. -/
def GroupingSpec.FirstEmpty (rule : String) (g : GroupingSpec) (cause : RuleSetFault) : Prop :=
  ∃ before rate after, g.rates = before ++ rate :: after ∧ (∀ r ∈ before, 0 < r.units) ∧
    rate.units = 0 ∧ cause = .zeroUnits rule g.name before.length

/-- The first fault of a rule: a name that comes twice, or a rate of a grouping. -/
def RuleSpec.FirstFault (r : RuleSpec) (cause : RuleSetFault) : Prop :=
  Admission.FirstFault GroupingSpec.name (fun g => .duplicateGrouping g.name r.name)
    GroupingSpec.Valid (GroupingSpec.FirstEmpty r.name) r.groupings cause

/-- The first fault of a rule set: a name that comes twice, or a fault of a rule. -/
def RuleSet.FirstFault (s : RuleSet) (cause : RuleSetFault) : Prop :=
  Admission.FirstFault RuleSpec.name (fun r => .duplicateRule r.name)
    RuleSpec.Valid RuleSpec.FirstFault s.rules cause

/-- What the compiler makes of one grouping. -/
def GroupingSpec.compile (rule : String) (g : GroupingSpec) :
    Except RuleSetFault (Grouping Descriptor) := do
  let rates ← compileRates rule g.name 0 g.rates
  return ⟨g.name, g.groupOf, rates⟩

/-- What the compiler makes of one rule. -/
def RuleSpec.compile (domain : Option String) (r : RuleSpec) :
    Except RuleSetFault (Rule Descriptor) := do
  let groupings ← compileGroupings r.name [] r.groupings
  return ⟨r.name, r.appliesTo domain, groupings⟩

theorem compileGroupings_eq (rule : String) (seen : List String) (gs : List GroupingSpec) :
    compileGroupings rule seen gs =
      eachNamed GroupingSpec.name (fun g => .duplicateGrouping g.name rule)
        (GroupingSpec.compile rule) seen gs := by
  induction gs generalizing seen with
  | nil => rfl
  | cons g rest ih =>
    simp only [compileGroupings, eachNamed, GroupingSpec.compile, ih, bind_assoc, pure_bind]

theorem compileRules_eq (domain : Option String) (seen : List String) (rs : List RuleSpec) :
    compileRules domain seen rs =
      eachNamed RuleSpec.name (fun r => .duplicateRule r.name) (RuleSpec.compile domain) seen
        rs := by
  induction rs generalizing seen with
  | nil => rfl
  | cons r rest ih =>
    simp only [compileRules, eachNamed, RuleSpec.compile, ih, bind_assoc, pure_bind]

/-! ### What they make -/

theorem GroupingSpec.compile_eq_ok_iff {rule : String} {g : GroupingSpec}
    {made : Grouping Descriptor} : g.compile rule = .ok made ↔ g.Makes made := by
  unfold GroupingSpec.compile
  rw [bind_eq_ok_iff]
  constructor
  · rintro ⟨rates, hrates, hmade⟩
    obtain rfl := Except.ok.inj hmade
    exact ⟨rfl, rfl, compileRates_eq_ok_iff.mp hrates⟩
  · rintro ⟨hname, hgroupOf, hrates⟩
    refine ⟨made.rates, compileRates_eq_ok_iff.mpr hrates, ?_⟩
    rw [← hname, ← hgroupOf]
    rfl

theorem RuleSpec.compile_eq_ok_iff {domain : Option String} {r : RuleSpec}
    {made : Rule Descriptor} : r.compile domain = .ok made ↔ r.Makes domain made := by
  unfold RuleSpec.compile
  rw [bind_eq_ok_iff]
  simp only [compileGroupings_eq,
    eachNamed_eq_ok_iff fun _ _ => GroupingSpec.compile_eq_ok_iff]
  constructor
  · rintro ⟨groupings, ⟨hnames, _, hgroupings⟩, hmade⟩
    obtain rfl := Except.ok.inj hmade
    exact ⟨hnames, rfl, rfl, hgroupings⟩
  · rintro ⟨hnames, hname, happlies, hgroupings⟩
    refine ⟨made.groupings, ⟨hnames, fun _ _ => List.not_mem_nil, hgroupings⟩, ?_⟩
    rw [← hname, ← happlies]
    rfl

/-- The compiler makes what a rule set stands for, and nothing else. -/
theorem RuleSet.compile_eq_ok_iff {s : RuleSet} {made : List (Rule Descriptor)} :
    s.compile = .ok made ↔ s.Makes made := by
  unfold RuleSet.compile
  rw [compileRules_eq, eachNamed_eq_ok_iff fun _ _ => RuleSpec.compile_eq_ok_iff]
  exact ⟨fun h => ⟨h.1, h.2.2⟩, fun h => ⟨h.names, fun _ _ => List.not_mem_nil, h.rules⟩⟩

/-! ### What keeps them from it -/

theorem GroupingSpec.Makes.valid {g : GroupingSpec} {made : Grouping Descriptor}
    (h : g.Makes made) : g.Valid := by
  intro rate hrate
  obtain ⟨_, _, hmakes⟩ := exists_of_forall₂ h.rates hrate
  exact hmakes.units_pos

theorem RuleSpec.Makes.valid {domain : Option String} {r : RuleSpec} {made : Rule Descriptor}
    (h : r.Makes domain made) : r.Valid where
  names := h.names
  groupings := by
    intro g hg
    obtain ⟨_, _, hmakes⟩ := exists_of_forall₂ h.groupings hg
    exact hmakes.valid

theorem RuleSet.Makes.valid {s : RuleSet} {made : List (Rule Descriptor)} (h : s.Makes made) :
    s.Valid where
  names := h.names
  rules := by
    intro r hr
    obtain ⟨_, _, hmakes⟩ := exists_of_forall₂ h.rules hr
    exact hmakes.valid

theorem GroupingSpec.firstEmpty_of_compile {rule : String} {g : GroupingSpec}
    {cause : RuleSetFault} (h : g.compile rule = .error cause) : g.FirstEmpty rule cause := by
  rcases bind_eq_error_iff.mp h with hrates | ⟨_, _, hpure⟩
  · have hfirst := compileRates_eq_error hrates
    simp only [Nat.zero_add] at hfirst
    exact hfirst
  · cases hpure

theorem RuleSpec.firstFault_of_compile {domain : Option String} {r : RuleSpec}
    {cause : RuleSetFault} (h : r.compile domain = .error cause) : r.FirstFault cause := by
  rcases bind_eq_error_iff.mp h with hgroupings | ⟨_, _, hpure⟩
  · rw [compileGroupings_eq] at hgroupings
    exact .of_eachNamed (fun _ _ hok => (GroupingSpec.compile_eq_ok_iff.mp hok).valid)
      (fun _ _ => GroupingSpec.firstEmpty_of_compile) [] List.nodup_nil
      (List.forall_mem_nil _) hgroupings
  · cases hpure

theorem RuleSet.firstFault_of_compile {s : RuleSet} {cause : RuleSetFault}
    (h : s.compile = .error cause) : s.FirstFault cause := by
  unfold RuleSet.compile at h
  rw [compileRules_eq] at h
  exact .of_eachNamed (fun _ _ hok => (RuleSpec.compile_eq_ok_iff.mp hok).valid)
    (fun _ _ => RuleSpec.firstFault_of_compile) [] List.nodup_nil
    (List.forall_mem_nil _) h

theorem GroupingSpec.FirstEmpty.not_valid {rule : String} {g : GroupingSpec}
    {cause : RuleSetFault} (h : g.FirstEmpty rule cause) : ¬ g.Valid := by
  obtain ⟨before, rate, after, hrates, _, hzero, _⟩ := h
  intro hvalid
  have hunits := hvalid rate (hrates ▸ List.mem_append_right _ List.mem_cons_self)
  rw [hzero] at hunits
  cases hunits

theorem RuleSpec.FirstFault.not_valid {r : RuleSpec} {cause : RuleSetFault}
    (h : r.FirstFault cause) : ¬ r.Valid := fun hvalid =>
  Admission.FirstFault.not_valid h (fun _ _ hempty => hempty.not_valid)
    ⟨hvalid.names, hvalid.groupings⟩

theorem RuleSet.FirstFault.not_valid {s : RuleSet} {cause : RuleSetFault}
    (h : s.FirstFault cause) : ¬ s.Valid := fun hvalid =>
  Admission.FirstFault.not_valid h (fun _ _ hfault => hfault.not_valid)
    ⟨hvalid.names, hvalid.rules⟩

/-! ## What is kept -/

/-- Every configured rate, in order of rule, grouping and rate. -/
def RuleSet.rows (s : RuleSet) : List RateRow :=
  s.rules.flatMap fun r => r.groupings.flatMap fun g =>
    g.rates.map fun rate => ⟨r.name, g.name, rate.requests, rate.unit.span.times rate.units.toNat⟩

theorem RuleSet.Makes.rows_eq {s : RuleSet} {made : List (Rule Descriptor)} (h : s.Makes made) :
    s.rows = rateRows made := by
  unfold RuleSet.rows rateRows
  rw [List.flatMap_def, List.flatMap_def]
  refine congrArg List.flatten (map_eq_of_forall₂ (fun r rule hrule => ?_) h.rules)
  rw [List.flatMap_def, List.flatMap_def]
  refine congrArg List.flatten (map_eq_of_forall₂ (fun g grouping hgrouping => ?_) hrule.groupings)
  refine map_eq_of_forall₂ (fun spec rate hrate => ?_) hgrouping.rates
  rw [hrule.name, hgrouping.name, hrate.permits, hrate.window]

theorem RuleSet.Makes.distinctNames {s : RuleSet} {made : List (Rule Descriptor)}
    (h : s.Makes made) : DistinctNames made where
  ruleNames := by
    rw [← map_eq_of_forall₂ (fun _ _ hrule => hrule.name.symm) h.rules]
    exact h.names
  groupingNames := by
    intro rule hrule
    obtain ⟨r, _, hmakes⟩ := exists_of_forall₂ h.rules.flip hrule
    rw [← map_eq_of_forall₂ (fun _ _ hgrouping => hgrouping.name.symm) hmakes.groupings]
    exact hmakes.names

/-- The rates of two groupings of a rule list never count in the same cell, whatever groups the
operations belong to. -/
def CellsApart {ω : Type} (rules : List (Rule ω)) : Prop :=
  ∀ (i j i' j' : Nat) (r r' : Rule ω) (g g' : Grouping ω) (rate rate' : BurstRate)
    (group group' : GroupKey),
    rules[i]? = some r → r.groupings[j]? = some g → rate ∈ g.rates →
    rules[i']? = some r' → r'.groupings[j']? = some g' → rate' ∈ g'.rates →
    rateKey r g group rate = rateKey r' g' group' rate' → i = i' ∧ j = j'

/-- A name that comes once stands in one place. -/
theorem index_eq_of_nodup_map {α β : Type} {f : α → β} {xs : List α} (h : (xs.map f).Nodup)
    {i j : Nat} {x y : α} (hx : xs[i]? = some x) (hy : xs[j]? = some y) (heq : f x = f y) :
    i = j := by
  obtain ⟨hi, _⟩ := List.getElem?_eq_some_iff.mp hx
  have hlength : i < (xs.map f).length := by
    rw [List.length_map]
    exact hi
  refine (List.getElem?_inj hlength h).mp ?_
  rw [List.getElem?_map, List.getElem?_map, hx, hy]
  exact congrArg some heq

/-- A key names the rule and the grouping that it belongs to. -/
theorem DistinctNames.cellsApart {ω : Type} {rules : List (Rule ω)} (h : DistinctNames rules) :
    CellsApart rules := by
  intro i j i' j' r r' g g' rate rate' group group' hr hg _ hr' hg' _ hkey
  have hrule : r.name = r'.name := congrArg CellKey.rule hkey
  have hgrouping : g.name = g'.name := congrArg CellKey.grouping hkey
  obtain rfl := index_eq_of_nodup_map h.ruleNames hr hr' hrule
  obtain rfl := Option.some.inj (hr.symm.trans hr')
  have hnames := h.groupingNames r (List.mem_of_getElem? hr)
  exact ⟨rfl, index_eq_of_nodup_map hnames hg hg' hgrouping⟩

/-- **Exactly the valid rule sets are compiled, and nothing of them is lost.** A rule set is
compiled if and only if no name of a rule comes twice, no name of a grouping comes twice in its
rule, and no rate has a window of no units.  What keeps one from it is the first fault that there
is, and whoever loads the rule set, from whatever text it is read, is told so as a fault of the
configuration.  What is compiled lists every configured rate in its place, with its names, its
permits and its window; each rule applies to the descriptors that it is for and to no others; and
two groupings never share a cell. -/
theorem RuleSet.compile_exact (s : RuleSet) :
    ((∃ rules, s.compile = .ok rules) ↔ s.Valid) ∧
    (∀ cause, s.compile = .error cause → s.FirstFault cause ∧
      (Fault.configuration (.ruleSet cause)).kind = .configuration ∧
      ∀ [RuleReader] (text : String), RuleSet.parse text = .ok s →
        RuleSet.load text = .error (.configuration (.ruleSet cause))) ∧
    ∀ rules, s.compile = .ok rules →
      rateRows rules = s.rows ∧
      List.Forall₂ (fun (r : RuleSpec) (rule : Rule Descriptor) =>
        rule.name = r.name ∧ ∀ d, rule.appliesTo d = true ↔ r.Covers s.domain d) s.rules rules ∧
      CellsApart rules := by
  refine ⟨⟨?_, ?_⟩, ?_, ?_⟩
  · rintro ⟨rules, hrules⟩
    exact (compile_eq_ok_iff.mp hrules).valid
  · intro hvalid
    cases hcompile : s.compile with
    | ok rules => exact ⟨rules, rfl⟩
    | error cause => exact absurd hvalid (firstFault_of_compile hcompile).not_valid
  · intro cause hcompile
    refine ⟨firstFault_of_compile hcompile, rfl, fun text hparse => ?_⟩
    refine bind_eq_error_iff.mpr (.inr ⟨s, hparse, ?_⟩)
    rw [hcompile]
    rfl
  · intro rules hcompile
    have hmakes := compile_eq_ok_iff.mp hcompile
    refine ⟨hmakes.rows_eq.symm, hmakes.rules.imp fun r rule hrule => ⟨hrule.name, fun d => ?_⟩,
      hmakes.distinctNames.cellsApart⟩
    rw [hrule.appliesTo]
    exact RuleSpec.appliesTo_iff

/-- Ten requests in two minutes and three in a second for each user below a path, and a hundred in
an hour for all together. -/
def belowPath : RuleSet :=
  ⟨some "edge", [⟨"api", [⟨"path", none, some "/v1"⟩],
    [⟨"each", ["user"], [⟨10, .minute, 2⟩, ⟨3, .second, 1⟩]⟩, ⟨"all", [], [⟨100, .hour, 1⟩]⟩]⟩]⟩

/-- The rules of the set for a path, as they are compiled and listed. -/
theorem RuleSet.compile_exact_belowPath :
    ∃ rules, belowPath.compile = .ok rules ∧
      rateRows rules = [⟨"api", "each", 10, .seconds 120⟩, ⟨"api", "each", 3, .seconds 1⟩,
        ⟨"api", "all", 100, .seconds 3600⟩] ∧
      ∃ rule, rules = [rule] ∧ rule.name = "api" ∧
        rule.appliesTo ⟨"edge", [("user", "ann"), ("path", "/v1/a"), ("path", "/v2")]⟩ = true := by
  have hvalid : belowPath.Valid := by decide
  obtain ⟨haccepts, _, hkeeps⟩ := RuleSet.compile_exact belowPath
  obtain ⟨rules, hrules⟩ := haccepts.mpr hvalid
  obtain ⟨hrows, happlies, _⟩ := hkeeps rules hrules
  refine ⟨rules, hrules, hrows, ?_⟩
  obtain ⟨rule, none, ⟨hname, hcovers⟩, hnone, rfl⟩ := List.forall₂_cons_left_iff.mp happlies
  obtain rfl := List.forall₂_nil_left_iff.mp hnone
  refine ⟨rule, rfl, hname, (hcovers _).mpr (RuleSpec.appliesTo_iff.mp ?_)⟩
  decide

/-- Of several faults the one that stands first is told. -/
example : RuleSet.compile ⟨none, [⟨"api", [], [⟨"all", [], [⟨5, .second, 1⟩, ⟨9, .hour, 0⟩]⟩]⟩,
    ⟨"api", [], []⟩]⟩ = .error (.zeroUnits "api" "all" 1) := rfl

end Admission
