import Mathlib.Data.List.Nodup
import Admission.Proofs.Commit
import Admission.Proofs.Run

/-!
# A jumping clock never lets a cell exceed its rate

What a cell counts depends on the reading, so a bound at one reading says nothing about another
when the clock may jump.  What the cell keeps does not depend on it: right after a grant everything
that is kept also counts, so the bound of the grant holds for all that is kept, and every other
operation only takes permits away.  `WithinRates` is this bound, and it holds of every limiter on
rules with distinct names after any calls at any readings.
-/

namespace Admission

variable {ω : Type}

/-- The rules of a list have distinct names, and so have the groupings of each rule. -/
structure DistinctNames (rules : List (Rule ω)) : Prop where
  ruleNames : (rules.map Rule.name).Nodup
  groupingNames : ∀ r ∈ rules, (r.groupings.map Grouping.name).Nodup

/-- The cell in which a rate counts a group. -/
def rateKey (r : Rule ω) (g : Grouping ω) (group : GroupKey) (rate : BurstRate) : CellKey :=
  ⟨r.name, g.name, group, rate.window⟩

/-- Whether an operation belongs to a group of a grouping of a rule. -/
def inGroup (r : Rule ω) (g : Grouping ω) (group : GroupKey) (op : ω) : Bool :=
  r.appliesTo op && g.groupOf op = group

theorem inGroup_iff {r : Rule ω} {g : Grouping ω} {group : GroupKey} {op : ω} :
    inGroup r g group op = true ↔ r.appliesTo op = true ∧ g.groupOf op = group := by
  unfold inGroup
  rw [Bool.and_eq_true, decide_eq_true_eq]

/-- An operation has to pass every rate of every rule that applies to it. -/
theorem exists_check_of_applies {rules : List (Rule ω)} {r : Rule ω} (hr : r ∈ rules) {op : ω}
    (happlies : r.appliesTo op = true) {g : Grouping ω} (hg : g ∈ r.groupings)
    {rate : BurstRate} (hrate : rate ∈ g.rates) :
    ∃ c ∈ checks rules op, c.key = rateKey r g (g.groupOf op) rate ∧ c.rate = rate := by
  obtain ⟨i, hi, rfl⟩ := List.mem_iff_getElem.mp hrate
  exact ⟨⟨r.name, g.name, g.groupOf op, i, g.rates[i]⟩,
    mem_checks.mpr ⟨r, hr, happlies, g, hg, hi, rfl⟩, rfl, rfl⟩

/-- Where names are distinct, a cell that is named for a rule and a grouping counts an operation
only if the rule applies to it, and is then the cell of one of the rates for its group. -/
theorem DistinctNames.exists_rate_of_mem_implicated {rules : List (Rule ω)}
    (h : DistinctNames rules) {r : Rule ω} (hr : r ∈ rules) {g : Grouping ω}
    (hg : g ∈ r.groupings) {key : CellKey} {op : ω} (hkey : key ∈ implicated rules op)
    (hrule : key.rule = r.name) (hgrouping : key.grouping = g.name) :
    r.appliesTo op = true ∧ ∃ rate ∈ g.rates, key = rateKey r g (g.groupOf op) rate := by
  obtain ⟨c, hc, rfl⟩ := mem_implicated.mp hkey
  obtain ⟨r', hr', happlies, g', hg', hi, hc⟩ := mem_checks.mp hc
  rw [hc] at hrule hgrouping
  obtain rfl : r' = r := List.inj_on_of_nodup_map h.ruleNames hr' hr hrule
  obtain rfl : g' = g :=
    List.inj_on_of_nodup_map (h.groupingNames r' hr) hg' hg hgrouping
  exact ⟨happlies, g'.rates[c.index], List.getElem_mem hi, congrArg Check.key hc⟩

/-- An operation that a rule applies to counts in the cell of each rate for its group. -/
theorem rateKey_mem_implicated {rules : List (Rule ω)} {r : Rule ω} (hr : r ∈ rules) {op : ω}
    (happlies : r.appliesTo op = true) {g : Grouping ω} (hg : g ∈ r.groupings)
    {rate : BurstRate} (hrate : rate ∈ g.rates) :
    rateKey r g (g.groupOf op) rate ∈ implicated rules op := by
  obtain ⟨c, hc, hkey, _⟩ := exists_check_of_applies hr happlies hg hrate
  exact mem_implicated.mpr ⟨c, hc, hkey⟩

/-- The operations that count in the cell of a rate are those of the group, and no others. -/
theorem DistinctNames.mem_implicated_iff {rules : List (Rule ω)} (h : DistinctNames rules)
    {r : Rule ω} (hr : r ∈ rules) {g : Grouping ω} (hg : g ∈ r.groupings)
    {rate : BurstRate} (hrate : rate ∈ g.rates) {group : GroupKey} {op : ω} :
    rateKey r g group rate ∈ implicated rules op ↔ inGroup r g group op = true := by
  rw [inGroup_iff]
  constructor
  · intro hkey
    obtain ⟨happlies, rate', _, heq⟩ := h.exists_rate_of_mem_implicated hr hg hkey rfl rfl
    exact ⟨happlies, (congrArg CellKey.group heq).symm⟩
  · rintro ⟨happlies, rfl⟩
    exact rateKey_mem_implicated hr happlies hg hrate

/-- Where names are distinct, an operation that counts in the cell of a rate has to pass it. -/
theorem DistinctNames.exists_check {rules : List (Rule ω)} (h : DistinctNames rules)
    {r : Rule ω} (hr : r ∈ rules) {g : Grouping ω} (hg : g ∈ r.groupings)
    {rate : BurstRate} (hrate : rate ∈ g.rates) {group : GroupKey} {op : ω}
    (hkey : rateKey r g group rate ∈ implicated rules op) :
    ∃ c ∈ checks rules op, c.key = rateKey r g group rate ∧ c.rate = rate := by
  obtain ⟨happlies, rfl⟩ := inGroup_iff.mp ((h.mem_implicated_iff hr hg hrate).mp hkey)
  exact exists_check_of_applies hr happlies hg hrate

/-- A grant stays within every rate of a cell that it is counted in, on top of what counts there. -/
theorem DistinctNames.counted_add_granted_le {rules : List (Rule ω)} (h : DistinctNames rules)
    {r : Rule ω} (hr : r ∈ rules) {g : Grouping ω} (hg : g ∈ r.groupings)
    {rate : BurstRate} (hrate : rate ∈ g.rates) {group : GroupKey} {op : ω}
    (hkey : rateKey r g group rate ∈ implicated rules op) {s : Store} {n : Count}
    {partly : Bool} {now : Instant} (hgranted : 0 < s.granted rules op n partly now) :
    s.counted now (rateKey r g group rate) + (s.granted rules op n partly now).toNat ≤
      rate.permits.toNat := by
  obtain ⟨c, hc, hck, hcr⟩ := h.exists_check hr hg hrate hkey
  rw [← hck, ← hcr]
  exact Store.counted_add_granted_le hc hgranted

/-- A limiter answers a request with what its store grants. -/
theorem Limiter.granted_request (l : Limiter ω) (op : ω) (n : Count) (partly : Bool)
    (now : Instant) :
    (l.request op n partly now).2.granted = l.store.granted l.rules op n partly now :=
  l.store.granted_acquire l.rules op n partly now

/-- Every cell keeps at most the permits of each of its rates, counted or not. -/
structure WithinRates (rules : List (Rule ω)) (s : Store) : Prop where
  wf : s.Wf
  kept_le : ∀ r ∈ rules, ∀ g ∈ r.groupings, ∀ rate ∈ g.rates, ∀ group,
    Grant.tally (fun _ => true) (s.cell (rateKey r g group rate)).kept ≤ rate.permits.toNat

namespace WithinRates

variable {rules : List (Rule ω)} {s : Store}

theorem empty (rules : List (Rule ω)) (policy : WindowPolicy) :
    WithinRates rules (.empty policy) where
  wf := Store.wf_empty policy
  kept_le := by
    intro r _ g _ rate _ group
    rw [Store.cell_empty, WindowCell.kept_empty]
    exact Nat.zero_le _

theorem acquire (hnames : DistinctNames rules) (h : WithinRates rules s) (op : ω) (n : Count)
    (partly : Bool) (now : Instant) :
    WithinRates rules (s.acquire rules op n partly now).1 where
  wf := h.wf.acquire rules op n partly now
  kept_le := by
    intro r hr g hg rate hrate group
    by_cases hcommit : rateKey r g group rate ∈ implicated rules op ∧
        0 < s.granted rules op n partly now
    · obtain ⟨hkey, hgranted⟩ := hcommit
      -- everything that is kept after the grant counts now, and what counts is within the rate
      have hkept : Grant.tally (fun _ => true)
            ((s.acquire rules op n partly now).1.cell (rateKey r g group rate)).kept =
          (s.acquire rules op n partly now).1.counted now (rateKey r g group rate) := by
        refine Grant.tally_congr fun x hx => ?_
        rw [Store.cell_acquire, if_pos ⟨hkey, hgranted⟩] at hx
        exact (WindowCell.live_of_mem_record rate.window_pos (h.wf _).ordered hx).symm
      rw [hkept, Store.counted_acquire hkey hgranted]
      exact hnames.counted_add_granted_le hr hg hrate hkey hgranted
    · rw [Store.cell_acquire, if_neg hcommit]
      exact h.kept_le r hr g hg rate hrate group

theorem giveBack (h : WithinRates rules s) (op : ω) (n : Count) (now : Instant) :
    WithinRates rules (s.giveBack rules op n now) where
  wf := h.wf.giveBack rules op n now
  kept_le := by
    intro r hr g hg rate hrate group
    have hle := h.kept_le r hr g hg rate hrate group
    rw [Store.cell_giveBack]
    split
    · exact Nat.le_trans (WindowCell.tally_giveBack_le _ n) hle
    · exact hle

theorem sweep (h : WithinRates rules s) (now : Instant) : WithinRates rules (s.sweep now) where
  wf := h.wf.sweep now
  kept_le := by
    intro r hr g hg rate hrate group
    rw [Store.cell_sweep]
    split
    · rw [WindowCell.kept_empty]
      exact Nat.zero_le _
    · exact h.kept_le r hr g hg rate hrate group

/-- The bound reaches every reading, as what counts is kept. -/
theorem used_le (h : WithinRates rules s) {r : Rule ω} (hr : r ∈ rules) {g : Grouping ω}
    (hg : g ∈ r.groupings) {rate : BurstRate} (hrate : rate ∈ g.rates) (group : GroupKey)
    (t : Instant) : s.used t (rateKey r g group rate) ≤ rate.permits := by
  have hle := h.kept_le r hr g hg rate hrate group
  have hmono : s.counted t (rateKey r g group rate) ≤
      Grant.tally (fun _ => true) (s.cell (rateKey r g group rate)).kept :=
    Grant.tally_mono (fun _ _ => rfl) _
  rw [UInt32.le_iff_toNat_le, Store.toNat_used]
  omega

end WithinRates

/-- One call keeps the rules and the bound on every cell. -/
theorem Limiter.withinRates_step {rules : List (Rule ω)} (hnames : DistinctNames rules)
    (l : Limiter ω) (e : Instant × Call ω) (h : l.rules = rules ∧ WithinRates rules l.store) :
    (l.step e).1.rules = rules ∧ WithinRates rules (l.step e).1.store := by
  obtain ⟨rfl, h⟩ := h
  refine ⟨Limiter.rules_step l e, ?_⟩
  obtain ⟨now, call⟩ := e
  cases call with
  | request op n partly => exact h.acquire hnames op n partly now
  | available op => exact h
  | giveBack op n => exact h.giveBack op n now
  | sweep => exact h.sweep now

/-- **No reading shows a cell above its rate.** After any calls at any readings of the clock, also
ones that jump back, every rate holds in every group at every instant, under either policy. -/
theorem used_le_permits_at_every_reading {rules : List (Rule ω)} (hnames : DistinctNames rules)
    (policy : WindowPolicy) (calls : List (Instant × Call ω)) {r : Rule ω} (hr : r ∈ rules)
    {g : Grouping ω} (hg : g ∈ r.groupings) {rate : BurstRate} (hrate : rate ∈ g.rates)
    (group : GroupKey) (t : Instant) :
    (run Limiter.step (.new rules policy) calls).1.store.used t (rateKey r g group rate) ≤
      rate.permits := by
  have hrun := run_invariant (Limiter.withinRates_step hnames)
    (s := Limiter.new rules policy) ⟨rfl, WithinRates.empty rules policy⟩ calls
  exact hrun.2.used_le hr hg hrate group t

/-- Grants at 5 s, at 0 s and at 1 s, with the clock going back in between, stay within three
permits at 5 s as well. -/
theorem used_le_permits_jumping_back :
    DistinctNames threeASecond ∧
      (run Limiter.step (.new threeASecond .sliding)
        [(⟨5000000000⟩, .request () 2 false), (⟨0⟩, .request () 2 true),
          (⟨1000000000⟩, .request () 3 true)]).1.store.used ⟨5000000000⟩
        ⟨"api", "global", .whole, .seconds 1⟩ ≤ 3 := by
  have hnames : DistinctNames threeASecond := by
    refine ⟨by decide, fun r hr => ?_⟩
    rw [List.mem_singleton.mp hr]
    decide
  exact ⟨hnames, used_le_permits_at_every_reading hnames .sliding _ List.mem_cons_self
    List.mem_cons_self List.mem_cons_self .whole ⟨5000000000⟩⟩

end Admission
