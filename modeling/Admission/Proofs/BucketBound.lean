import Admission.Proofs.BucketRun
import Admission.Proofs.Store

/-!
# What a bucket can give away

Refill is applied whenever a key is touched, and clocks may jump in both directions.  No stretch of
time is refilled twice all the same, because the mark of the last refill only moves forward.  The
*prospect* of a key is what its bucket holds and all that can still come in until the last reading
of the run: a grant lowers it by what is granted, a return raises it by no more than what is
returned, and nothing else raises it (`prospect_step`).

* `granted_le_capacity_add_refill` — over every run without sweeps, the tokens granted to a key are
  at most the capacity, what was given back, and what comes in during the time that the readings
  span.
-/

namespace Admission

/-! ## Readings -/

/-- The time between the smallest and the largest reading of a run. -/
def spread {ε : Type} (events : List (Instant × ε)) : Span :=
  match (events.map (·.1.nanos)).min?, (events.map (·.1.nanos)).max? with
  | some first, some last => elapsed ⟨first⟩ ⟨last⟩
  | _, _ => .zero

/-- The seconds from one instant to another, negative if that is the earlier one. -/
def Instant.secondsTo (a b : Instant) : ℚ := ((b.nanos - a.nanos : ℤ) : ℚ) / 1000000000

theorem Instant.secondsTo_nonneg {a b : Instant} (h : a ≤ b) : 0 ≤ a.secondsTo b := by
  have hnanos : (0 : ℚ) ≤ ((b.nanos - a.nanos : ℤ) : ℚ) := by
    exact_mod_cast Int.sub_nonneg_of_le h
  unfold secondsTo
  positivity

theorem Instant.secondsTo_anti {a b : Instant} (h : a ≤ b) (t : Instant) :
    b.secondsTo t ≤ a.secondsTo t := by
  have hnanos : ((t.nanos - b.nanos : ℤ) : ℚ) ≤ ((t.nanos - a.nanos : ℤ) : ℚ) := by
    exact_mod_cast Int.sub_le_sub_left h _
  unfold secondsTo
  linarith

theorem inSeconds_elapsed {a b : Instant} (h : a ≤ b) :
    (elapsed a b).inSeconds = a.secondsTo b := by
  have hnanos : ((elapsed a b).nanos : ℤ) = b.nanos - a.nanos :=
    Int.toNat_of_nonneg (Int.sub_nonneg_of_le h)
  rw [Span.inSeconds_eq]
  unfold Instant.secondsTo
  rw [← hnanos]
  rfl

/-- All readings of a run lie between two that are as far apart as its spread. -/
theorem exists_bounds {ε : Type} (events : List (Instant × ε)) :
    ∃ first last : Instant, first ≤ last ∧ (∀ e ∈ events, first ≤ e.1 ∧ e.1 ≤ last) ∧
      first.secondsTo last = (spread events).inSeconds := by
  cases events with
  | nil =>
    refine ⟨⟨0⟩, ⟨0⟩, Int.le_refl _, fun e he => absurd he List.not_mem_nil, ?_⟩
    rw [← inSeconds_elapsed (Int.le_refl _)]
    rfl
  | cons e rest =>
    obtain ⟨first, hfirst⟩ : ∃ first, ((e :: rest).map (·.1.nanos)).min? = some first := ⟨_, rfl⟩
    obtain ⟨last, hlast⟩ : ∃ last, ((e :: rest).map (·.1.nanos)).max? = some last := ⟨_, rfl⟩
    have hbounds : ∀ x ∈ e :: rest, first ≤ x.1.nanos ∧ x.1.nanos ≤ last := by
      intro x hx
      have hmem : x.1.nanos ∈ (e :: rest).map (·.1.nanos) := List.mem_map_of_mem hx
      exact ⟨(List.min?_eq_some_iff.mp hfirst).2 _ hmem, (List.max?_eq_some_iff.mp hlast).2 _ hmem⟩
    have hle : (⟨first⟩ : Instant) ≤ ⟨last⟩ := by
      obtain ⟨h1, h2⟩ := hbounds e List.mem_cons_self
      exact Int.le_trans h1 h2
    refine ⟨⟨first⟩, ⟨last⟩, hle, hbounds, ?_⟩
    unfold spread
    rw [hfirst, hlast, ← inSeconds_elapsed hle]

/-! ## Prospects -/

variable {plan : BucketPlan ℚ} {l : Level ℚ} {now first last : Instant}

theorem rate_pos (plan : BucketPlan ℚ) : 0 < plan.refillRate := of_decide_eq_true plan.rate_valid

namespace Level

/-- What a level holds and all that comes in until `last`. -/
def prospect (plan : BucketPlan ℚ) (last : Instant) (l : Level ℚ) : ℚ :=
  l.tokens + l.refilled.secondsTo last * plan.refillRate

theorem tokens_refill_nonneg : 0 ≤ (l.refill plan now).tokens := Amount.clamp_nonneg _ _

/-- A refill brings in nothing that was not in prospect. -/
theorem prospect_refill_le (h : 0 ≤ l.tokens) :
    (l.refill plan now).prospect plan last ≤ l.prospect plan last := by
  have hrate := rate_pos plan
  have hspan : 0 ≤ (elapsed l.refilled now).inSeconds := by
    rw [Span.inSeconds_eq]
    positivity
  have hreached : 0 ≤ l.reached plan now := add_nonneg h (mul_nonneg hspan hrate.le)
  have htokens := Amount.clamp_le hreached plan.capacity
  have hmark : l.refilled.secondsTo last =
      (elapsed l.refilled now).inSeconds + (l.refill plan now).refilled.secondsTo last := by
    rw [refilled_refill]
    split
    · next hlt =>
      rw [inSeconds_elapsed (Int.le_of_lt hlt)]
      unfold Instant.secondsTo
      push_cast
      ring
    · next hlt =>
      have hnone : elapsed l.refilled now = .zero := by
        have hle : now.nanos ≤ l.refilled.nanos := Int.not_lt.mp hlt
        exact congrArg Span.mk (Int.toNat_eq_zero.mpr (by omega))
      rw [hnone, Span.inSeconds_eq]
      simp [Span.zero]
  unfold prospect
  rw [tokens_refill, hmark, add_mul]
  have hsum : l.reached plan now =
      l.tokens + (elapsed l.refilled now).inSeconds * plan.refillRate := rfl
  rw [hsum] at htokens ⊢
  linarith

end Level

namespace Buckets

variable {b : Buckets ℚ} {key : String}

/-- What the bucket of a key holds and all that comes in until `last`.  A key without a level was
never granted anything since `first`. -/
def prospect (b : Buckets ℚ) (key : String) (first last : Instant) : ℚ :=
  (b.levels[key]?.getD (.full b.plan first)).prospect b.plan last

/-- No level is negative or was refilled after `last`. -/
def Until (last : Instant) (b : Buckets ℚ) : Prop :=
  ∀ (key : String) (l : Level ℚ), b.levels[key]? = some l → 0 ≤ l.tokens ∧ l.refilled ≤ last

theorem Until.found (h : b.Until last) (key : String) (hnow : now ≤ last) :
    0 ≤ (b.found key now).tokens ∧ (b.found key now).refilled ≤ last := by
  refine ⟨Level.tokens_refill_nonneg, ?_⟩
  show Instant.nanos (if _ then now else _) ≤ _
  split
  · exact hnow
  · cases hl : b.levels[key]? with
    | some l => exact (h key l hl).2
    | none => exact hnow

theorem prospect_nonneg (h : b.Until last) (hle : first ≤ last) (key : String) :
    0 ≤ b.prospect key first last := by
  have hrate := rate_pos b.plan
  unfold prospect Level.prospect
  cases hl : b.levels[key]? with
  | some l =>
    obtain ⟨htokens, hmark⟩ := h key l hl
    exact add_nonneg htokens (mul_nonneg (Instant.secondsTo_nonneg hmark) hrate.le)
  | none =>
    exact add_nonneg (Nat.cast_nonneg _) (mul_nonneg (Instant.secondsTo_nonneg hle) hrate.le)

/-- What a call finds was in prospect. -/
theorem prospect_found_le (h : b.Until last) (hfirst : first ≤ now) (key : String) :
    (b.found key now).prospect b.plan last ≤ b.prospect key first last := by
  have hrate := rate_pos b.plan
  unfold prospect
  cases hl : b.levels[key]? with
  | some l =>
    rw [found_of_some hl]
    exact Level.prospect_refill_le (h key l hl).1
  | none =>
    rw [found_of_none hl, Level.refill_full]
    have hlater := mul_le_mul_of_nonneg_right (Instant.secondsTo_anti hfirst last) hrate.le
    show (b.plan.capacity.toNat : ℚ) + now.secondsTo last * b.plan.refillRate ≤
      b.plan.capacity.toNat + first.secondsTo last * b.plan.refillRate
    linarith

/-- No more is granted than what is found. -/
theorem granted_le_found (b : Buckets ℚ) (key : String) (n : Count) (partly : Bool)
    (now : Instant) :
    ((b.granted key n partly now).toNat : ℚ) ≤ (b.found key now).tokens := by
  have hworth : LawfulAmount.worth (b.found key now).tokens =
      some (.ofRat (b.found key now).tokens) := rfl
  exact (Amount.le_whole_iff hworth Level.tokens_refill_nonneg).mp (grantable_le_available _ _ _)

/-! ## One call -/

theorem prospect_congr {c : Buckets ℚ} (hplan : c.plan = b.plan)
    (h : c.levels[key]? = b.levels[key]?) :
    c.prospect key first last = b.prospect key first last := by
  unfold prospect
  rw [hplan, h]

theorem Until.take (h : b.Until last) (hnow : now ≤ last) (key : String) (n : Count)
    (partly : Bool) : (b.take key n partly now).after.Until last := by
  intro k l hl
  rw [getElem?_take] at hl
  split at hl
  · -- no more is taken than was found
    obtain rfl := Option.some.inj hl
    have hgranted := granted_le_found b key n partly now
    exact ⟨sub_nonneg.mpr hgranted, (h.found key hnow).2⟩
  · exact h k l hl

theorem Until.giveBack (h : b.Until last) (hnow : now ≤ last) (key : String) (n : Count) :
    (b.giveBack key n now).after.Until last := by
  intro k l hl
  rw [getElem?_giveBack] at hl
  split at hl
  · obtain rfl := Option.some.inj hl
    obtain ⟨htokens, hmark⟩ := h.found key hnow
    have hsum : 0 ≤ (b.found key now).tokens + (n.toNat : ℚ) :=
      add_nonneg htokens (Nat.cast_nonneg _)
    exact ⟨Amount.atMost_nonneg hsum (Nat.cast_nonneg _), hmark⟩
  · exact h k l hl

/-- A request lowers the prospect of its key by what it is granted. -/
theorem prospect_take (h : b.Until last) (hfirst : first ≤ now) (key : String) (n : Count)
    (partly : Bool) :
    ((b.granted key n partly now).toNat : ℚ) +
      (b.take key n partly now).after.prospect key first last ≤ b.prospect key first last := by
  by_cases hchanged : b.levels[key]?.isSome ∨ 0 < b.granted key n partly now
  · have hleft : (b.take key n partly now).after.prospect key first last =
        (b.found key now).prospect b.plan last - (b.granted key n partly now).toNat := by
      unfold prospect
      rw [plan_take, getElem?_take, if_pos ⟨rfl, hchanged⟩]
      show (b.found key now).tokens - ((b.granted key n partly now).toNat : ℚ) +
        (b.found key now).refilled.secondsTo last * b.plan.refillRate = _
      unfold Level.prospect
      ring
    rw [hleft]
    linarith [prospect_found_le h hfirst key]
  · have hzero : (b.granted key n partly now).toNat = 0 := by
      by_contra hne
      exact hchanged (Or.inr (Count.pos_iff.mpr (Nat.pos_of_ne_zero hne)))
    rw [prospect_congr plan_take (by rw [getElem?_take, if_neg fun hk => hchanged hk.2]), hzero,
      Nat.cast_zero, zero_add]

/-- A return raises the prospect of its key by no more than what is returned. -/
theorem prospect_giveBack (h : b.Until last) (hfirst : first ≤ now) (key : String) (n : Count) :
    (b.giveBack key n now).after.prospect key first last ≤ b.prospect key first last + n.toNat := by
  have hreturned : (0 : ℚ) ≤ n.toNat := Nat.cast_nonneg _
  by_cases hchanged : b.levels[key]?.isSome ∧ n ≠ 0
  · have hfilled : (b.giveBack key n now).after.prospect key first last ≤
        (b.found key now).prospect b.plan last + n.toNat := by
      unfold prospect
      rw [plan_giveBack, getElem?_giveBack, if_pos ⟨rfl, hchanged⟩]
      have hcut := Amount.atMost_le ((b.found key now).tokens + (n.toNat : ℚ))
        (Amount.ofCount b.plan.capacity)
      show Amount.atMost ((b.found key now).tokens + (n.toNat : ℚ))
        (Amount.ofCount b.plan.capacity) +
          (b.found key now).refilled.secondsTo last * b.plan.refillRate ≤ _
      unfold Level.prospect
      linarith
    linarith [prospect_found_le h hfirst key]
  · rw [prospect_congr plan_giveBack (by rw [getElem?_giveBack, if_neg fun hk => hchanged hk.2])]
    linarith

theorem prospect_take_of_ne {k : String} (h : k ≠ key) (n : Count) (partly : Bool) :
    (b.take k n partly now).after.prospect key first last = b.prospect key first last :=
  prospect_congr plan_take (by rw [getElem?_take, if_neg fun hs => h hs.1.symm])

theorem prospect_giveBack_of_ne {k : String} (h : k ≠ key) (n : Count) :
    (b.giveBack k n now).after.prospect key first last = b.prospect key first last :=
  prospect_congr plan_giveBack (by rw [getElem?_giveBack, if_neg fun hs => h hs.1.symm])

/-- A call that takes tokens tells of no more than it lowers the prospect of its key by. -/
theorem prospect_taking (h : b.Until last) {call : BucketCall} {k : String} {n : Count}
    {partly : Bool} (htaking : call.taking? = some (k, n, partly)) (hfirst : first ≤ now)
    (key : String) :
    ((if call.key? = some key then (b.step (now, call)).2.tokens else 0 : ℕ) : ℚ) +
      (b.step (now, call)).1.prospect key first last ≤ b.prospect key first last := by
  obtain ⟨hkey, _, _⟩ := of_taking htaking
  rw [step_taking htaking, hkey]
  dsimp only
  by_cases hk : k = key
  · subst hk
    rw [if_pos rfl, tokens_told_take htaking]
    linarith [prospect_take h hfirst k n partly]
  · rw [if_neg fun hs => hk (Option.some.inj hs), Nat.cast_zero, zero_add,
      prospect_take_of_ne hk]

/-- What one call grants to a key and leaves in prospect was in prospect or is given back. -/
theorem prospect_step (h : b.Until last) {e : Instant × BucketCall} (hsweep : e.2.isSweep = false)
    (hfirst : first ≤ e.1) (hlast : e.1 ≤ last) (key : String) :
    (b.step e).1.Until last ∧
      ((if e.2.key? = some key then (b.step e).2.tokens else 0 : ℕ) : ℚ) +
        (b.step e).1.prospect key first last ≤
      b.prospect key first last + (if e.2.key? = some key then e.2.returned else 0 : ℕ) := by
  obtain ⟨now, call⟩ := e
  cases htaking : call.taking? with
  | some request =>
    obtain ⟨k, n, partly⟩ := request
    obtain ⟨_, hnone, _⟩ := of_taking htaking
    have huntil : (b.step (now, call)).1.Until last := by
      rw [step_taking htaking]
      exact h.take hlast k n partly
    dsimp only
    rw [hnone, ite_self, Nat.cast_zero, add_zero]
    exact ⟨huntil, prospect_taking h htaking hfirst key⟩
  | none =>
    cases call with
    | request k n partly => cases htaking
    | require k n => cases htaking
    | acquire k n partly => cases htaking
    | sweep force => cases hsweep
    | available k =>
      refine ⟨h, ?_⟩
      show ((if some k = some key then 0 else 0 : ℕ) : ℚ) + b.prospect key first last ≤
        b.prospect key first last + (if some k = some key then 0 else 0 : ℕ)
      rw [ite_self, Nat.cast_zero, zero_add, add_zero]
    | giveBack k n =>
      refine ⟨h.giveBack hlast k n, ?_⟩
      show ((if some k = some key then 0 else 0 : ℕ) : ℚ) +
          (b.giveBack k n now).after.prospect key first last ≤
        b.prospect key first last + (if some k = some key then n.toNat else 0 : ℕ)
      rw [ite_self, Nat.cast_zero, zero_add]
      by_cases hk : k = key
      · subst hk
        rw [if_pos rfl]
        exact prospect_giveBack h hfirst k n
      · rw [if_neg fun hs => hk (Option.some.inj hs), Nat.cast_zero, add_zero,
          prospect_giveBack_of_ne hk]

/-! ## Whole runs -/

/-- What a run grants to a key and leaves in prospect was in prospect or is given back. -/
theorem prospect_run (h : b.Until last) {events : List (Instant × BucketCall)}
    (hsweeps : ∀ e ∈ events, e.2.isSweep = false)
    (hbounds : ∀ e ∈ events, first ≤ e.1 ∧ e.1 ≤ last) (key : String) :
    (run step b events).1.Until last ∧
      (grantedTo key events (run step b events).2 : ℚ) +
        (run step b events).1.prospect key first last ≤
      b.prospect key first last + returnedTo key events := by
  induction events generalizing b with
  | nil =>
    refine ⟨h, ?_⟩
    show ((0 : ℕ) : ℚ) + b.prospect key first last ≤ b.prospect key first last + ((0 : ℕ) : ℚ)
    rw [Nat.cast_zero, zero_add, add_zero]
  | cons e rest ih =>
    obtain ⟨hsweep, hsweeps⟩ := List.forall_mem_cons.mp hsweeps
    obtain ⟨⟨hfirst, hlast⟩, hbounds⟩ := List.forall_mem_cons.mp hbounds
    obtain ⟨huntil, hstep⟩ := prospect_step h hsweep hfirst hlast key
    obtain ⟨hend, hrest⟩ := ih huntil hsweeps hbounds
    rw [run_cons]
    refine ⟨hend, ?_⟩
    rw [grantedTo_cons, returnedTo_cons, Nat.cast_add, Nat.cast_add]
    linarith

end Buckets

/-- **A bucket gives away what it holds, what comes back and what comes in.** Over every run
without sweeps, whatever the readings of the clock, the tokens that are granted to a key are at most
the capacity, the tokens given back for it, and those that come in during the time between the
smallest and the largest reading. -/
theorem granted_le_capacity_add_refill (plan : BucketPlan ℚ) (key : String)
    {events : List (Instant × BucketCall)} (hsweeps : ∀ e ∈ events, e.2.isSweep = false) :
    (grantedTo key events (run Buckets.step (.empty plan) events).2 : ℚ) ≤
      plan.capacity.toNat + returnedTo key events +
        plan.refillRate * (spread events).inSeconds := by
  obtain ⟨first, last, hle, hbounds, hspread⟩ := exists_bounds events
  have hempty : ∀ k : String, (Buckets.empty plan).levels[k]? = none := fun k =>
    Std.ExtTreeMap.getElem?_empty
  have hstart : (Buckets.empty plan).Until last := by
    intro k l hl
    rw [hempty k] at hl
    cases hl
  obtain ⟨hend, hrun⟩ := Buckets.prospect_run hstart hsweeps hbounds key
  have hleft := Buckets.prospect_nonneg hend hle key
  have hfirst : (Buckets.empty plan).prospect key first last =
      plan.capacity.toNat + (spread events).inSeconds * plan.refillRate := by
    unfold Buckets.prospect
    rw [hempty key, ← hspread]
    rfl
  rw [hfirst] at hrun
  linarith

/-- Three tokens, and half a token more every second. -/
def slowRefill : BucketPlan ℚ := ⟨3, 1 / 2, none, by decide, decide_eq_true (by norm_num)⟩

/-- The bucket is emptied, refills for ten seconds, and is used after the clock went back. -/
def jumpingBack : List (Instant × BucketCall) :=
  [(⟨0⟩, .request "edge" 5 true), (⟨10000000000⟩, .require "edge" 4),
    (⟨4000000000⟩, .request "edge" 2 false), (⟨4000000000⟩, .giveBack "edge" 1),
    (⟨6000000000⟩, .request "edge" 5 true)]

/-- Seven tokens are granted; the capacity, one that came back and five that came in make nine. -/
theorem granted_le_capacity_add_refill_jumpingBack :
    (∀ e ∈ jumpingBack, e.2.isSweep = false) ∧
      grantedTo "edge" jumpingBack (run Buckets.step (.empty slowRefill) jumpingBack).2 = 7 ∧
      ((7 : ℕ) : ℚ) ≤
        slowRefill.capacity.toNat + ((1 : ℕ) : ℚ) + slowRefill.refillRate * 10 := by
  have hsweeps : ∀ e ∈ jumpingBack, e.2.isSweep = false := by decide
  have hgranted :
      grantedTo "edge" jumpingBack (run Buckets.step (.empty slowRefill) jumpingBack).2 = 7 := by
    decide +kernel
  have hreturned : returnedTo "edge" jumpingBack = 1 := by decide
  have hspread : (spread jumpingBack).inSeconds = 10 := by decide +kernel
  refine ⟨hsweeps, hgranted, ?_⟩
  have hbound := granted_le_capacity_add_refill slowRefill "edge" hsweeps
  rw [hgranted, hreturned, hspread] at hbound
  exact hbound

end Admission
