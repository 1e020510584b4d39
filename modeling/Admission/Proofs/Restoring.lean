import Admission.Proofs.BucketRun
import Admission.Proofs.Numbers

/-!
# What buckets hold, and restoring it

Whatever snapshot buckets are restored from, as long as its amounts are numbers, every amount that
they ever hold lies between nothing and the capacity.  `levels_step` says once what a call can do to
the level of a key; that amounts stay in range and that marks only move forward are read off from
it.

* `Buckets.InRange.step` — no call takes an amount out of range.
* `Buckets.refilled_le_run` — while a level is there, its mark never moves back.
* `Buckets.restore_snapshot` — amounts in range are restored as they are, so buckets that hold such
  amounts are restored from their own snapshot.
* `in_range_and_restored` — so buckets restored at any time go on as the ones they were taken from.
-/

namespace Admission

open Amount LawfulAmount

variable {α : Type} [Amount α]

/-- A refill keeps an amount in range. -/
theorem Level.within_refill [LawfulAmount α] [NumericAmount α]
    {plan : BucketPlan α} {l : Level α} (now : Instant)
    (h : Within plan.capacity l.tokens) : Within plan.capacity (l.refill plan now).tokens := by
  obtain ⟨u, hu, hu0⟩ := h.exists_worth
  obtain ⟨v, hv, hv0⟩ :=
    NumericAmount.exists_worth_income (elapsed l.refilled now) plan.rate_valid
  obtain ⟨w, hw, _⟩ := NumericAmount.exists_worth_add hu hv hu0 hv0
  exact within_clamp hw plan.capacity

namespace Buckets

/-! ## One call and one level -/

/-- A call leaves the level of a key alone, or sweeps and drops it because it is spent, or is about
the key and makes it of the level that is found: by taking tokens out or by putting some in. -/
theorem levels_step (b : Buckets α) (e : Instant × BucketCall) (key : String) :
    (b.step e).1.levels[key]? = b.levels[key]? ∨
    (∃ force l, e.2 = .sweep force ∧ b.levels[key]? = some l ∧ b.isSpent force e.1 l = true ∧
      (b.step e).1.levels[key]? = none) ∨
    (∃ n partly, e.2.taking? = some (key, n, partly) ∧
      (b.levels[key]?.isSome = true ∨ 0 < b.granted key n partly e.1) ∧
      (b.step e).1.levels[key]? = some (b.left key (b.granted key n partly e.1) e.1)) ∨
    ∃ n, e.2 = .giveBack key n ∧ n ≠ 0 ∧
      (b.step e).1.levels[key]? = some (b.filled key n e.1) := by
  obtain ⟨now, call⟩ := e
  cases htaking : call.taking? with
  | some request =>
    obtain ⟨k, n, partly⟩ := request
    rw [step_taking htaking, getElem?_take]
    split
    · next h =>
      obtain ⟨rfl, hstored⟩ := h
      exact Or.inr (Or.inr (Or.inl ⟨n, partly, rfl, hstored, rfl⟩))
    · exact Or.inl rfl
  | none =>
    cases call with
    | request k n partly => cases htaking
    | require k n => cases htaking
    | acquire k n partly => cases htaking
    | available k => exact Or.inl rfl
    | giveBack k n =>
      have hstep : (b.step (now, .giveBack k n)).1.levels[key]? = _ :=
        getElem?_giveBack b k n now key
      rw [hstep]
      split
      · next h =>
        obtain ⟨rfl, _, hn⟩ := h
        exact Or.inr (Or.inr (Or.inr ⟨n, rfl, hn, rfl⟩))
      · exact Or.inl rfl
    | sweep force =>
      have hstep : (b.step (now, .sweep force)).1.levels[key]? = _ :=
        getElem?_sweep b force now key
      rw [hstep]
      cases hl : b.levels[key]? with
      | none => exact Or.inl rfl
      | some l =>
        cases hspent : b.isSpent force now l with
        | true => exact Or.inr (Or.inl ⟨force, l, rfl, rfl, hspent, by simp [hspent]⟩)
        | false => exact Or.inl (by simp [hspent])

/-- A call that is not about a key leaves its level alone or drops it. -/
theorem levels_step_of_ne (b : Buckets α) {e : Instant × BucketCall} {key : String}
    (h : e.2.key? ≠ some key) :
    (b.step e).1.levels[key]? = b.levels[key]? ∨ (b.step e).1.levels[key]? = none := by
  rcases b.levels_step e key with hsame | ⟨_, _, _, _, _, hnone⟩ | ⟨n, partly, htaking, _⟩ |
    ⟨n, hcall, _⟩
  · exact Or.inl hsame
  · exact Or.inr hnone
  · exact absurd (of_taking htaking).1 h
  · rw [hcall] at h
    exact absurd rfl h

theorem levels_run_of_ne (b : Buckets α) {events : List (Instant × BucketCall)} {key : String}
    (h : ∀ e ∈ events, e.2.key? ≠ some key) :
    (run step b events).1.levels[key]? = b.levels[key]? ∨
      (run step b events).1.levels[key]? = none := by
  refine run_keeps (P := fun c : Buckets α => c.levels[key]? = b.levels[key]? ∨
    c.levels[key]? = none) ?_ (Or.inl rfl)
  intro c e he hc
  rcases levels_step_of_ne c (h e he) with hsame | hnone
  · rw [hsame]
    exact hc
  · exact Or.inr hnone

@[simp] theorem plan_step (b : Buckets α) (e : Instant × BucketCall) :
    (b.step e).1.plan = b.plan := by
  obtain ⟨now, call⟩ := e
  cases htaking : call.taking? with
  | some request =>
    rw [step_taking htaking]
    exact plan_take
  | none =>
    cases call with
    | request k n partly => cases htaking
    | require k n => cases htaking
    | acquire k n partly => cases htaking
    | available k => rfl
    | giveBack k n => exact plan_giveBack
    | sweep force => rfl

theorem plan_run (b : Buckets α) (events : List (Instant × BucketCall)) :
    (run step b events).1.plan = b.plan :=
  run_invariant (P := fun c => c.plan = b.plan) (fun c e h => (plan_step c e).trans h) rfl events

/-! ## Marks -/

theorem refilled_le_found {b : Buckets α} {key : String} {l : Level α} (now : Instant)
    (h : b.levels[key]? = some l) : l.refilled ≤ (b.found key now).refilled := by
  rw [found_of_some h, Level.refilled_refill]
  split
  · next hlt => exact Int.le_of_lt hlt
  · exact Int.le_refl _

/-- No call moves a mark back. -/
theorem refilled_le_step {b : Buckets α} {e : Instant × BucketCall} {key : String}
    {l l' : Level α} (h : b.levels[key]? = some l) (h' : (b.step e).1.levels[key]? = some l') :
    l.refilled ≤ l'.refilled := by
  have hfound := refilled_le_found e.1 h
  rcases b.levels_step e key with hsame | ⟨_, _, _, _, _, hnone⟩ | ⟨n, partly, _, _, hleft⟩ |
    ⟨n, _, _, hfilled⟩
  · rw [h', h] at hsame
    obtain rfl := Option.some.inj hsame
    exact Int.le_refl _
  · rw [h'] at hnone
    cases hnone
  · rw [h'] at hleft
    obtain rfl := Option.some.inj hleft
    exact hfound
  · rw [h'] at hfilled
    obtain rfl := Option.some.inj hfilled
    exact hfound

/-- While a level is there, its mark never moves back. -/
theorem refilled_le_run {b : Buckets α} {events : List (Instant × BucketCall)} {key : String}
    {l l' : Level α}
    (hstays : ∀ part, part <+: events → (run step b part).1.levels[key]?.isSome = true)
    (h : b.levels[key]? = some l) (h' : (run step b events).1.levels[key]? = some l') :
    l.refilled ≤ l'.refilled := by
  induction events generalizing b l with
  | nil =>
    rw [run_nil, h] at h'
    obtain rfl := Option.some.inj h'
    exact Int.le_refl _
  | cons e rest ih =>
    have hfirst := hstays [e] ⟨rest, rfl⟩
    rw [run_cons, run_nil] at hfirst
    obtain ⟨m, hm⟩ := Option.isSome_iff_exists.mp hfirst
    refine Int.le_trans (refilled_le_step h hm) (ih (fun part hpart => ?_) hm h')
    exact hstays (e :: part) ((List.cons_prefix_cons).mpr ⟨rfl, hpart⟩)

/-! ## Restoring -/

/-- A level of restored buckets is one of the snapshot, cut off at both ends. -/
theorem exists_of_restore {plan : BucketPlan α} {levels : Snapshot α} {key : String}
    {l : Level α} (h : (restore plan levels).levels[key]? = some l) :
    ∃ m, (key, m) ∈ levels ∧ l = { m with tokens := clamp m.tokens (ofCount plan.capacity) } := by
  -- the induction is for any levels that are stored before
  have hfold : ∀ (levels : Snapshot α) (stored : Std.ExtTreeMap String (Level α)),
      (levels.foldl (fun stored entry => stored.insert entry.1
        { entry.2 with tokens := clamp entry.2.tokens (ofCount plan.capacity) }) stored)[key]? =
          some l →
      stored[key]? = some l ∨ ∃ m, (key, m) ∈ levels ∧
        l = { m with tokens := clamp m.tokens (ofCount plan.capacity) } := by
    intro levels
    induction levels with
    | nil => exact fun stored h => Or.inl h
    | cons entry rest ih =>
      intro stored h
      rcases ih _ h with hstored | ⟨m, hm, hl⟩
      · rw [Std.ExtTreeMap.getElem?_insert] at hstored
        split at hstored
        · next hkey =>
          obtain rfl : entry.1 = key := Std.compare_eq_iff_eq.mp hkey
          exact Or.inr ⟨entry.2, List.mem_cons_self, (Option.some.inj hstored).symm⟩
        · exact Or.inl hstored
      · exact Or.inr ⟨m, List.mem_cons_of_mem _ hm, hl⟩
  rcases hfold levels ∅ h with hnone | hmem
  · rw [Std.ExtTreeMap.getElem?_empty] at hnone
    cases hnone
  · exact hmem

/-- Every amount lies between nothing and the capacity. -/
def InRange (b : Buckets α) : Prop :=
  ∀ (key : String) (l : Level α), b.levels[key]? = some l → Within b.plan.capacity l.tokens

variable [LawfulAmount α]

/-- Numbers are restored within range. -/
theorem inRange_restore (plan : BucketPlan α) {levels : Snapshot α}
    (h : ∀ entry ∈ levels, ∃ u, worth entry.2.tokens = some u) :
    (restore plan levels).InRange := by
  intro key l hl
  obtain ⟨m, hm, rfl⟩ := exists_of_restore hl
  obtain ⟨u, hu⟩ := h _ hm
  exact within_clamp hu plan.capacity

/-- A map is made of its own entries. -/
private theorem foldl_insert_toList {β : Type} (m : Std.ExtTreeMap String β) :
    m.toList.foldl (fun stored entry => stored.insert entry.1 entry.2) ∅ = m := by
  rw [← Std.ExtTreeMap.insertMany_list_eq_foldl]
  apply Std.ExtTreeMap.ext_getElem?
  intro k
  cases hk : m[k]? with
  | some x =>
    exact Std.ExtTreeMap.getElem?_insertMany_list_of_mem Std.ReflCmp.compare_self
      Std.ExtTreeMap.distinct_keys_toList (Std.ExtTreeMap.mem_toList_iff_getElem?_eq_some.mpr hk)
  | none =>
    have habsent : (m.toList.map Prod.fst).contains k = false := by
      rw [Std.ExtTreeMap.map_fst_toList_eq_keys, Std.ExtTreeMap.contains_keys,
        Std.ExtTreeMap.contains_eq_isSome_getElem?, hk]
      rfl
    rw [Std.ExtTreeMap.getElem?_insertMany_list_of_contains_eq_false habsent,
      Std.ExtTreeMap.getElem?_empty]

/-- Buckets with amounts in range are restored from their own snapshot. -/
theorem restore_snapshot {b : Buckets α} (h : b.InRange) : restore b.plan b.snapshot = b := by
  have hsame : ∀ (stored : Std.ExtTreeMap String (Level α)) (entry : String × Level α),
      entry ∈ b.levels.toList →
      stored.insert entry.1
        { entry.2 with tokens := clamp entry.2.tokens (ofCount b.plan.capacity) } =
      stored.insert entry.1 entry.2 := by
    intro stored entry hentry
    have hstored := Std.ExtTreeMap.mem_toList_iff_getElem?_eq_some.mp hentry
    rw [(h entry.1 entry.2 hstored).clamp_eq]
  have hlevels : (restore b.plan b.snapshot).levels = b.levels :=
    (List.foldl_ext _ _ _ hsame).trans (foldl_insert_toList b.levels)
  calc restore b.plan b.snapshot = ⟨b.plan, (restore b.plan b.snapshot).levels⟩ := rfl
    _ = b := by rw [hlevels]

/-! ## Every call -/

variable [NumericAmount α]

namespace InRange

variable {b : Buckets α} {key : String} {now : Instant}

theorem found (h : b.InRange) (key : String) (now : Instant) :
    Within b.plan.capacity (b.found key now).tokens := by
  cases hl : b.levels[key]? with
  | some l =>
    rw [found_of_some hl]
    exact Level.within_refill now (h key l hl)
  | none =>
    rw [found_of_none hl]
    exact Level.within_refill now (within_ofCount _)

/-- No more is taken out than what is found. -/
theorem left (h : b.InRange) (key : String) (n : Count) (partly : Bool) (now : Instant) :
    Within b.plan.capacity (b.left key (b.granted key n partly now) now).tokens := by
  obtain ⟨p, hp, _⟩ := within_iff.mp (h.found key now)
  rcases b.held_left key n partly now with hnone | hheld
  · rcases b.worth_left key n partly now with ⟨hnot, _⟩ | ⟨q, _, _, _, hleft⟩
    · rw [hp] at hnot
      cases hnot
    · rw [hleft] at hnone
      cases hnone
  · exact within_iff.mpr hheld

/-- No more is put in than there is room for. -/
theorem filled (h : b.InRange) (key : String) (n : Count) (now : Instant) :
    Within b.plan.capacity (b.filled key n now).tokens := by
  obtain ⟨u, hu, hu0⟩ := (h.found key now).exists_worth
  obtain ⟨w, hw, hw0⟩ := NumericAmount.exists_worth_add hu (worth_ofCount n) hu0
    (Extent.ofRat_le.mpr (Nat.cast_nonneg _))
  exact within_atMost hw hw0 b.plan.capacity

/-- No call takes an amount out of range. -/
theorem step (h : b.InRange) (e : Instant × BucketCall) : (b.step e).1.InRange := by
  intro key l hl
  rw [plan_step]
  rcases b.levels_step e key with hsame | ⟨_, _, _, _, _, hnone⟩ | ⟨n, partly, _, _, hleft⟩ |
    ⟨n, _, _, hfilled⟩
  · exact h key l (hsame.symm.trans hl)
  · rw [hl] at hnone
    cases hnone
  · rw [hl] at hleft
    obtain rfl := Option.some.inj hleft
    exact h.left key n partly e.1
  · rw [hl] at hfilled
    obtain rfl := Option.some.inj hfilled
    exact h.filled key n e.1

theorem run (h : b.InRange) (events : List (Instant × BucketCall)) :
    (run Buckets.step b events).1.InRange :=
  run_invariant (fun _ e hs => hs.step e) h events

end InRange

end Buckets

/-- **Buckets stay in range and can be restored at any time.** Restore buckets from any snapshot
whose amounts are numbers, be they negative, infinite or above the capacity, and from none in
particular, and use them in any way at any readings of the clock.  Then every stored amount lies
between nothing and the capacity, and while a key has a level the mark of its last refill never
moves back.  So buckets that are restored from the snapshot of these have the same snapshot, and
give the same answers whatever follows. -/
theorem in_range_and_restored (plan : BucketPlan Float) {levels : Snapshot Float}
    (hnumbers : ∀ entry ∈ levels, entry.2.tokens.isNaN = false)
    (events : List (Instant × BucketCall)) :
    let b := (run Buckets.step (.restore plan levels) events).1
    (∀ (key : String) (l : Level Float), b.levels[key]? = some l →
      zero ≤ l.tokens ∧ l.tokens ≤ ofCount plan.capacity) ∧
    (∀ (key : String) (l l' : Level Float) (later : List (Instant × BucketCall)),
      b.levels[key]? = some l → (run Buckets.step b later).1.levels[key]? = some l' →
      (∀ part, part <+: later → (run Buckets.step b part).1.levels[key]?.isSome) →
      l.refilled ≤ l'.refilled) ∧
    (Buckets.restore plan b.snapshot).snapshot = b.snapshot ∧
    ∀ later : List (Instant × BucketCall),
      (run Buckets.step (.restore plan b.snapshot) later).2 = (run Buckets.step b later).2 := by
  intro b
  have hplan : b.plan = plan := Buckets.plan_run _ events
  have hrange : b.InRange := by
    refine Buckets.InRange.run (Buckets.inRange_restore plan fun entry hentry => ?_) events
    exact Double.exists_worth_of_isNaN (hnumbers entry hentry)
  have hrestored : Buckets.restore plan b.snapshot = b := by
    rw [← hplan]
    exact Buckets.restore_snapshot hrange
  refine ⟨?_, ?_, ?_, ?_⟩
  · intro key l hl
    rw [← hplan]
    exact hrange key l hl
  · intro key l l' later hl hl' hstays
    exact Buckets.refilled_le_run hstays hl hl'
  · rw [hrestored]
  · intro later
    rw [hrestored]

/-- Buckets that start empty are restored from no snapshot at all. -/
example (plan : BucketPlan Float) : Buckets.restore plan [] = .empty plan := rfl

/-- Four tokens, and half a token more every second. -/
def restoredPlan : BucketPlan Float := ⟨4, 1 / 2, none, by decide, rfl⟩

/-- One amount is negative, one infinite and one above the capacity. -/
def outOfRange : Snapshot Float :=
  [("core", ⟨-4.25, ⟨0⟩⟩), ("edge", ⟨1e308 * 1e308, ⟨2000000000⟩⟩), ("rim", ⟨7.5, ⟨1000000000⟩⟩)]

/-- The buckets are used while the clock goes forth and back. -/
def forthAndBack : List (Instant × BucketCall) :=
  [(⟨3000000000⟩, .request "edge" 2 false), (⟨1000000000⟩, .require "core" 1),
    (⟨1000000000⟩, .giveBack "edge" 1), (⟨500000000⟩, .sweep true)]

/-- Two seconds after its mark one token has come in for `core`, before and after the restart. -/
theorem in_range_and_restored_wildAmounts :
    let b := (run Buckets.step (.restore restoredPlan outOfRange) forthAndBack).1
    (∀ entry ∈ outOfRange, entry.2.tokens.isNaN = false) ∧
      (run Buckets.step (.restore restoredPlan b.snapshot)
        [(⟨2000000000⟩, .request "core" 3 true)]).2 = [.granted 1] ∧
      b.levels["edge"]?.isSome ∧ b.levels["rim"]? = none := by
  intro b
  have hnumbers : ∀ entry ∈ outOfRange, entry.2.tokens.isNaN = false := by decide +kernel
  obtain ⟨-, -, -, hanswers⟩ := in_range_and_restored restoredPlan hnumbers forthAndBack
  refine ⟨hnumbers, ?_, ?_, ?_⟩
  · rw [hanswers]
    decide +kernel
  · decide +kernel
  · decide +kernel

end Admission
