import Admission.Limiter
import Admission.Proofs.Commit

/-!
# Requests answer what is there

A look at what an operation has available reads the cells that exist and takes the others for empty.
A request opens every cell it has to count in before it reads any.  Both go through the same rates
and find the same least room, so an answer to a request can be foretold from a look before it, and
is seen in full by a look after it.

* `leftTo_create` — cells that are opened count nothing.
* `limitedBy_acquire_iff` — the violation of an answer is the first rate, in order of rule, grouping
  and rate, that leaves too little (`FirstShort`).
* `available_add_granted` — what is granted is missing from what is available, no more and no less.
* `Limiter.request_answers_available` — all of it for one request.
-/

namespace Admission

namespace Store

variable {ω : Type} {s : Store} {rules : List (Rule ω)} {op : ω} {n : Count} {partly : Bool}
variable {now : Instant}

/-! ## The rates that apply to an operation -/

/-- The permits that a rate of a grouping of a rule leaves an operation at `now`. -/
def leftTo (s : Store) (now : Instant) (op : ω) (r : Rule ω) (g : Grouping ω)
    (rate : BurstRate) : Count :=
  Count.minus rate.permits (s.used now ⟨r.name, g.name, g.groupOf op, rate.window⟩)

/-- Every rate of a grouping leaves an operation at least `n` permits. -/
def AmpleGrouping (s : Store) (now : Instant) (op : ω) (n : Count) (r : Rule ω)
    (g : Grouping ω) : Prop := ∀ rate ∈ g.rates, n ≤ s.leftTo now op r g rate

/-- Every rate of a rule leaves an operation at least `n` permits, if the rule applies to it. -/
def AmpleRule (s : Store) (now : Instant) (op : ω) (n : Count) (r : Rule ω) : Prop :=
  r.appliesTo op = true → ∀ g ∈ r.groupings, s.AmpleGrouping now op n r g

theorem forall_mem_groupingChecks {r : Rule ω} {g : Grouping ω} :
    (∀ c ∈ g.checks r.name op, n ≤ s.left now c) ↔ s.AmpleGrouping now op n r g := by
  constructor
  · intro h rate hrate
    obtain ⟨i, hi, rfl⟩ := List.getElem_of_mem hrate
    exact h _ (List.mem_mapIdx.mpr ⟨i, hi, rfl⟩)
  · intro h c hc
    obtain ⟨i, hi, rfl⟩ := List.mem_mapIdx.mp hc
    exact h _ (List.getElem_mem hi)

theorem forall_mem_ruleChecks {r : Rule ω} :
    (∀ c ∈ r.checks op, n ≤ s.left now c) ↔ s.AmpleRule now op n r := by
  unfold Rule.checks AmpleRule
  split
  · next happlies =>
    simp only [List.forall_mem_flatMap, forall_mem_groupingChecks, happlies, forall_const]
  · next hidle => simp [hidle]

/-- An operation could take `n` permits exactly if every rate that applies to it leaves as many. -/
theorem le_available_iff :
    n ≤ s.available rules op now ↔ ∀ r ∈ rules, s.AmpleRule now op n r := by
  unfold available checks
  rw [le_room]
  simp only [List.forall_mem_flatMap, forall_mem_ruleChecks]

/-! ## The first rate that leaves too little -/

/-- A violation of the first rate, in order of rule, grouping and rate, that applies to an operation
and leaves it fewer than `n` permits: every rule before its rule is ample, and so are the groupings
before its grouping and the rates before it. -/
inductive FirstShort (s : Store) (now : Instant) (rules : List (Rule ω)) (op : ω) (n : Count) :
    Violation → Prop
  | intro {rulesBefore rulesAfter : List (Rule ω)} {r : Rule ω}
      {groupingsBefore groupingsAfter : List (Grouping ω)} {g : Grouping ω}
      {ratesBefore ratesAfter : List BurstRate} {rate : BurstRate}
      (rule_eq : rules = rulesBefore ++ r :: rulesAfter)
      (applies : r.appliesTo op = true)
      (grouping_eq : r.groupings = groupingsBefore ++ g :: groupingsAfter)
      (rate_eq : g.rates = ratesBefore ++ rate :: ratesAfter)
      (short : s.leftTo now op r g rate < n)
      (ampleRules : ∀ r' ∈ rulesBefore, s.AmpleRule now op n r')
      (ampleGroupings : ∀ g' ∈ groupingsBefore, s.AmpleGrouping now op n r g')
      (ampleRates : ∀ rate' ∈ ratesBefore, n ≤ s.leftTo now op r g rate') :
      FirstShort s now rules op n
        (.rate r.name g.name ratesBefore.length (g.groupOf op) rate)

/-- The first element of a list of lists that meets a test is in the first list that has any. -/
private theorem find?_flatMap_eq_some {α β : Type} {f : α → List β} {p : β → Bool} {xs : List α}
    {b : β} : (xs.flatMap f).find? p = some b ↔
      ∃ as a bs, xs = as ++ a :: bs ∧ (f a).find? p = some b ∧
        ∀ x ∈ as, ∀ y ∈ f x, p y = false := by
  rw [List.find?_flatMap, List.findSome?_eq_some_iff]
  simp only [List.find?_eq_none, Bool.not_eq_true]

private theorem find?_mapIdx_eq_some {α β : Type} {f : Nat → α → β} {p : β → Bool} {xs : List α}
    {b : β} : (xs.mapIdx f).find? p = some b ↔
      ∃ as a bs, xs = as ++ a :: bs ∧ b = f as.length a ∧ p b = true ∧
        ∀ y ∈ as.mapIdx f, p y = false := by
  rw [List.find?_eq_some_iff_append]
  simp only [Bool.not_eq_true']
  constructor
  · rintro ⟨hb, before, after, heq, hbefore⟩
    obtain ⟨as, rest, rfl, rfl, hrest⟩ := List.mapIdx_eq_append_iff.mp heq
    obtain ⟨a, bs, rfl, rfl, -⟩ := List.mapIdx_eq_cons_iff.mp hrest
    refine ⟨as, a, bs, rfl, ?_, hb, hbefore⟩
    rw [Nat.zero_add]
  · rintro ⟨as, a, bs, rfl, rfl, hb, hbefore⟩
    refine ⟨hb, as.mapIdx f, bs.mapIdx fun i => f (i + 1 + as.length), ?_, hbefore⟩
    rw [List.mapIdx_append, List.mapIdx_cons, Nat.zero_add]

/-- No check of a list leaves fewer than `n` permits. -/
private theorem forall_not_short {cs : List Check} :
    (∀ c ∈ cs, decide (s.left now c < n) = false) ↔ ∀ c ∈ cs, n ≤ s.left now c := by
  simp only [decide_eq_false_iff_not, UInt32.not_lt]

/-- The checks of an operation are in order of rule, grouping and rate, so the first one that leaves
too little is that of the first such rate. -/
theorem firstShort_of_find? {c : Check}
    (h : (checks rules op).find? (fun c => s.left now c < n) = some c) :
    s.FirstShort now rules op n c.violation := by
  obtain ⟨rulesBefore, r, rulesAfter, hrules, hr, hrulesBefore⟩ := find?_flatMap_eq_some.mp h
  unfold Rule.checks at hr
  split at hr
  · next happlies =>
    obtain ⟨gsBefore, g, gsAfter, hgroupings, hg, hgsBefore⟩ := find?_flatMap_eq_some.mp hr
    obtain ⟨ratesBefore, rate, ratesAfter, hrates, rfl, hshort, hratesBefore⟩ :=
      find?_mapIdx_eq_some.mp hg
    refine .intro hrules happlies hgroupings hrates (of_decide_eq_true hshort) ?_ ?_ ?_
    · intro r' hr'
      exact forall_mem_ruleChecks.mp (forall_not_short.mp (hrulesBefore r' hr'))
    · intro g' hg'
      exact forall_mem_groupingChecks.mp (forall_not_short.mp (hgsBefore g' hg'))
    · intro rate' hrate'
      obtain ⟨i, hi, rfl⟩ := List.getElem_of_mem hrate'
      exact forall_not_short.mp hratesBefore _ (List.mem_mapIdx.mpr ⟨i, hi, rfl⟩)
  · -- a rule that does not apply has no checks
    cases hr

theorem FirstShort.exists_find? {v : Violation} (h : s.FirstShort now rules op n v) :
    ∃ c, (checks rules op).find? (fun c => s.left now c < n) = some c ∧ c.violation = v := by
  cases h with
  | @intro _ _ r _ _ g ratesBefore _ rate hrules happlies hgroupings hrates hshort hrulesBefore
      hgsBefore hratesBefore =>
    have hrate : (g.checks r.name op).find? (fun c => s.left now c < n) =
        some ⟨r.name, g.name, g.groupOf op, ratesBefore.length, rate⟩ := by
      refine find?_mapIdx_eq_some.mpr ⟨_, _, _, hrates, rfl, decide_eq_true hshort, ?_⟩
      refine forall_not_short.mpr fun c hc => ?_
      obtain ⟨i, hi, rfl⟩ := List.mem_mapIdx.mp hc
      exact hratesBefore _ (List.getElem_mem hi)
    have hrule : (r.checks op).find? (fun c => s.left now c < n) =
        some ⟨r.name, g.name, g.groupOf op, ratesBefore.length, rate⟩ := by
      unfold Rule.checks
      rw [if_pos happlies]
      refine find?_flatMap_eq_some.mpr ⟨_, _, _, hgroupings, hrate, fun g' hg' => ?_⟩
      exact forall_not_short.mpr (forall_mem_groupingChecks.mpr (hgsBefore g' hg'))
    refine ⟨_, find?_flatMap_eq_some.mpr ⟨_, _, _, hrules, hrule, fun r' hr' => ?_⟩, rfl⟩
    exact forall_not_short.mpr (forall_mem_ruleChecks.mpr (hrulesBefore r' hr'))

/-- The violation of an answer is that of the first rate that leaves too little. -/
theorem limitedBy_acquire_iff {v : Violation} :
    (s.acquire rules op n partly now).2.limitedBy = some v ↔ s.FirstShort now rules op n v := by
  rw [acquire_answer, Option.map_eq_some_iff]
  constructor
  · rintro ⟨c, hfind, rfl⟩
    exact firstShort_of_find? hfind
  · intro h
    exact h.exists_find?

/-- Nothing is in the way of a request exactly if there is room for all of it. -/
theorem limitedBy_acquire_eq_none_iff :
    (s.acquire rules op n partly now).2.limitedBy = none ↔ n ≤ s.available rules op now := by
  rw [acquire_answer]
  unfold available
  simp only [Option.map_eq_none_iff, List.find?_eq_none, le_room, decide_eq_true_eq,
    UInt32.not_lt]

/-! ## What a look sees of a request -/

/-- Cells that are opened count nothing, so no rate leaves less for it. -/
theorem left_create (s : Store) (keys : List CellKey) (now : Instant) :
    (s.create keys).left now = s.left now := by
  funext c
  unfold left
  rw [used_eq, used_eq, cell_create]

theorem available_create (s : Store) (keys : List CellKey) (rules : List (Rule ω)) (op : ω)
    (now : Instant) : (s.create keys).available rules op now = s.available rules op now :=
  available_congr fun c _ => congrFun (left_create s keys now) c

/-- What is taken of every rate alike is taken of the least room. -/
theorem toNat_room_of_left {t : Store} {cs : List Check} (hcs : cs ≠ []) {k : Nat}
    (h : ∀ c ∈ cs, (t.left now c).toNat + k = (s.left now c).toNat) :
    (t.room now cs).toNat + k = (s.room now cs).toNat := by
  have hleast : ∀ (u : Store) (c : Check), c ∈ cs →
      (u.room now cs).toNat ≤ (u.left now c).toNat := by
    intro u c hc
    exact UInt32.le_iff_toNat_le.mp (le_room.mp (UInt32.le_refl _) c hc)
  have hgreatest : ∀ (u : Store) (m : Nat), (∀ c ∈ cs, m ≤ (u.left now c).toNat) →
      m ≤ (u.room now cs).toNat := by
    intro u m hm
    -- some check bounds `m`, so it is a count
    obtain ⟨c, hc⟩ := List.exists_mem_of_ne_nil cs hcs
    have hlt : m < 4294967296 := Nat.lt_of_le_of_lt (hm c hc) (u.left now c).toNat_lt
    have hcount : (UInt32.ofNat m).toNat = m := UInt32.toNat_ofNat_of_lt' hlt
    rw [← hcount, ← UInt32.le_iff_toNat_le]
    refine le_room.mpr fun c hc => ?_
    rw [UInt32.le_iff_toNat_le, hcount]
    exact hm c hc
  apply Nat.le_antisymm
  · refine hgreatest s _ fun c hc => ?_
    rw [← h c hc]
    exact Nat.add_le_add_right (hleast t c hc) k
  · have hroom : (s.room now cs).toNat - k ≤ (t.room now cs).toNat := by
      refine hgreatest t _ fun c hc => ?_
      have hs := hleast s c hc
      rw [← h c hc] at hs
      omega
    omega

theorem toNat_left_acquire {c : Check} (hc : c ∈ checks rules op) :
    ((s.acquire rules op n partly now).1.left now c).toNat +
        (s.granted rules op n partly now).toNat = (s.left now c).toNat := by
  by_cases hgranted : 0 < s.granted rules op n partly now
  · have hle := counted_add_granted_le hc hgranted
    rw [toNat_left, toNat_left, counted_acquire (mem_implicated.mpr ⟨c, hc, rfl⟩) hgranted]
    omega
  · have hzero : s.granted rules op n partly now = 0 := by
      rw [Count.pos_iff] at hgranted
      exact UInt32.toNat_inj.mp (Nat.eq_zero_of_not_pos hgranted)
    unfold left
    rw [used_eq, used_eq, cell_acquire_of_denied hzero, hzero]
    rfl

/-- What is granted is missing from what is available after it, where any rate applies at all. -/
theorem available_add_granted (h : checks rules op ≠ []) :
    ((s.acquire rules op n partly now).1.available rules op now).toNat +
        (s.granted rules op n partly now).toNat = (s.available rules op now).toNat :=
  toNat_room_of_left h fun _ hc => toNat_left_acquire hc

theorem checks_ne_nil {r : Rule ω} (hr : r ∈ rules) (happlies : r.appliesTo op = true)
    {g : Grouping ω} (hg : g ∈ r.groupings) (hrates : g.rates ≠ []) : checks rules op ≠ [] := by
  obtain ⟨rate, hrate⟩ := List.exists_mem_of_ne_nil _ hrates
  obtain ⟨i, hi, rfl⟩ := List.getElem_of_mem hrate
  have hcheck : (⟨r.name, g.name, g.groupOf op, i, g.rates[i]⟩ : Check) ∈ checks rules op :=
    mem_checks.mpr ⟨r, hr, happlies, g, hg, hi, rfl⟩
  exact List.ne_nil_of_mem hcheck

end Store

namespace Limiter

variable {ω : Type}

/-- **A request answers what is there.** Whatever the cells hold: the permits that an answer says
were available are those that a look finds just before, also in the cells that the request opens,
and they are the most that every rate which applies leaves; all of a request is granted if they
suffice, and else what there is or nothing; the answer names a violation exactly if they do not
suffice, and then that of the first rate in order of rule, grouping and rate that leaves too little;
and where any rate applies, a look just after finds what was available less what was granted. -/
theorem request_answers_available (l : Limiter ω) (op : ω) (n : Count) (partly : Bool)
    (now : Instant) :
    let available := l.available op now
    let answer := (l.request op n partly now).2
    let after := (l.request op n partly now).1
    let opened : Limiter ω := { l with store := l.store.create (implicated l.rules op) }
    (answer.available = available ∧ opened.available op now = available) ∧
    (∀ m, m ≤ available ↔ ∀ r ∈ l.rules, l.store.AmpleRule now op m r) ∧
    (n ≤ available → answer.granted = n) ∧
    (available < n → answer.granted = if partly then available else 0) ∧
    (answer.limitedBy = none ↔ n ≤ available) ∧
    (∀ v, answer.limitedBy = some v ↔ l.store.FirstShort now l.rules op n v) ∧
    ((∃ r ∈ l.rules, r.appliesTo op = true ∧ ∃ g ∈ r.groupings, g.rates ≠ []) →
      (after.available op now).toNat + answer.granted.toNat = available.toNat) := by
  intro available answer after opened
  have hanswer : answer = ⟨n, available, l.store.granted l.rules op n partly now,
      ((checks l.rules op).find? fun c => l.store.left now c < n).map Check.violation⟩ :=
    l.store.acquire_answer l.rules op n partly now
  have hgranted : answer.granted = grantable available n partly := by
    rw [hanswer]
    rfl
  refine ⟨⟨?_, ?_⟩, ?_, ?_, ?_, ?_, ?_, ?_⟩
  · rw [hanswer]
  · exact l.store.available_create _ l.rules op now
  · intro m
    exact Store.le_available_iff
  · intro hroom
    rw [hgranted]
    exact if_pos hroom
  · intro hshort
    rw [hgranted]
    exact if_neg (UInt32.not_le.mpr hshort)
  · exact Store.limitedBy_acquire_eq_none_iff
  · intro v
    exact Store.limitedBy_acquire_iff
  · rintro ⟨r, hr, happlies, g, hg, hrates⟩
    rw [hanswer]
    exact Store.available_add_granted (Store.checks_ne_nil hr happlies hg hrates)

/-- A rule that applies to no operation here. -/
def closed : Rule Bool := ⟨"closed", fun op => op, [.undivided "global" [.perUnit 0 .second]]⟩

/-- Five permits a minute, and three a second. -/
def layers : Grouping Bool := .undivided "global" [.perUnit 5 .minute, .perUnit 3 .second]

/-- A request for seven permits that takes what there is gets the three of the tighter rate, and is
told of the other, which comes first. -/
theorem request_answers_available_layers :
    let l : Limiter Bool := .new [closed, .everything "api" [layers]] .sliding
    let answer := (l.request false 7 true ⟨0⟩).2
    l.available false ⟨0⟩ = 3 ∧ answer.granted = 3 ∧
      answer.limitedBy = some (.rate "api" "global" 0 .whole (.perUnit 5 .minute)) ∧
      ((l.request false 7 true ⟨0⟩).1.available false ⟨0⟩).toNat = 0 := by
  intro l answer
  have havailable : l.available false ⟨0⟩ = 3 := by decide
  have hless : l.available false ⟨0⟩ < 7 := by rw [havailable]; decide
  obtain ⟨-, -, -, hshort, -, hfirst, hafter⟩ :=
    request_answers_available l false 7 true ⟨0⟩
  have hgranted : answer.granted = 3 := (hshort hless).trans havailable
  have hminute : l.store.FirstShort ⟨0⟩ l.rules false 7
      (.rate "api" "global" 0 .whole (.perUnit 5 .minute)) := by
    refine .intro (show l.rules = [closed] ++ .everything "api" [layers] :: [] from rfl) rfl
      (show [layers] = [] ++ layers :: [] from rfl)
      (show layers.rates = [] ++ .perUnit 5 .minute :: [.perUnit 3 .second] from rfl) ?_ ?_ ?_ ?_
    · show l.store.leftTo ⟨0⟩ false (.everything "api" [layers]) layers (.perUnit 5 .minute) < 7
      decide
    · intro r hr happlies
      rw [List.mem_singleton.mp hr] at happlies
      cases happlies
    · intro g hg
      cases hg
    · intro rate hrate
      cases hrate
  refine ⟨havailable, hgranted, (hfirst _).mpr hminute, ?_⟩
  have hsum := hafter ⟨.everything "api" [layers], by simp [l, new], rfl, layers,
    List.mem_singleton_self _, by simp [layers, Grouping.undivided]⟩
  rw [hgranted, havailable] at hsum
  exact Nat.add_right_cancel (hsum.trans (Nat.zero_add 3).symm)

end Limiter

end Admission
