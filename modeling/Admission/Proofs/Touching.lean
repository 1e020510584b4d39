import Admission.Proofs.BucketBound
import Admission.Proofs.Restoring

/-!
# Touching a bucket costs nothing

Whatever touches a bucket refills it, so the time up to a reading may be refilled in many pieces,
each cut off at the capacity.  What a piece lost there the whole stretch would have lost too
(`Amount.clamp_add_clamp`), and the pieces cover the stretch, because the mark of the last refill
only moves forward (`nanos_elapsed_le_touched`).  They cover more than the stretch only if some piece
lies beyond the reading.

* `Level.tokens_refill_touched` — a level that was refilled before holds no less at a reading, and
  holds the same if it was not refilled after that reading.
* `Buckets.levels_untaken` — what a call can do to a level that gives nothing away and gets nothing
  back: nothing, a refill, or a drop once it is full.
* `touching_costs_nothing` — so calls that are granted nothing never lower what is available, and
  change nothing if the clock does not pass the reading.
-/

namespace Admission

/-! ## Refilling in pieces -/

/-- The pieces into which a reading cuts the time up to another one leave no gap. -/
theorem nanos_elapsed_le_touched (since now t : Instant) :
    (elapsed since t).nanos ≤
      (elapsed since now).nanos + (elapsed (if since < now then now else since) t).nanos := by
  unfold elapsed
  split
  · show (t.nanos - since.nanos).toNat ≤
      (now.nanos - since.nanos).toNat + (t.nanos - now.nanos).toNat
    omega
  · exact Nat.le_add_left _ _

/-- Up to a reading that is not passed they do not overlap either. -/
theorem nanos_elapsed_eq_touched {since now t : Instant} (h : now ≤ t) :
    (elapsed since t).nanos =
      (elapsed since now).nanos + (elapsed (if since < now then now else since) t).nanos := by
  have hle : now.nanos ≤ t.nanos := h
  unfold elapsed
  split
  · next hlt =>
    have hlt' : since.nanos < now.nanos := hlt
    show (t.nanos - since.nanos).toNat =
      (now.nanos - since.nanos).toNat + (t.nanos - now.nanos).toNat
    omega
  · next hlt =>
    have hge : now.nanos ≤ since.nanos := Int.not_lt.mp hlt
    show (t.nanos - since.nanos).toNat =
      (now.nanos - since.nanos).toNat + (t.nanos - since.nanos).toNat
    omega

namespace Amount

variable {c : Count} {x y a : ℚ}

theorem clamp_eq_min (h : 0 ≤ x) (c : Count) : clamp x (ofCount c) = min x c.toNat := by
  have hzero : (zero : ℚ) = 0 := by simp [zero, ofCount]
  unfold clamp
  rw [if_neg (not_lt.mpr (hzero.le.trans h))]
  split
  · next hlt => exact (min_eq_right hlt.le).symm
  · next hge => exact (min_eq_left (not_lt.mp hge)).symm

/-- What is cut off before more comes in would have been cut off afterwards. -/
theorem clamp_add_clamp (hx : 0 ≤ x) (ha : 0 ≤ a) (c : Count) :
    clamp (clamp x (ofCount c) + a) (ofCount c) = clamp (x + a) (ofCount c) := by
  have hcut : 0 ≤ clamp x (ofCount c) := clamp_nonneg x c
  rw [clamp_eq_min (add_nonneg hcut ha), clamp_eq_min (add_nonneg hx ha), clamp_eq_min hx,
    min_add, min_assoc, min_eq_right (le_add_of_nonneg_right ha)]

theorem clamp_mono (hx : 0 ≤ x) (h : x ≤ y) (c : Count) :
    clamp x (ofCount c) ≤ clamp y (ofCount c) := by
  rw [clamp_eq_min hx, clamp_eq_min (hx.trans h)]
  exact min_le_min_right _ h

theorem whole_mono (hx : 0 ≤ x) (h : x ≤ y) : whole x ≤ whole y := by
  have hwhole : ((whole x).toNat : ℚ) ≤ x := (le_whole_iff rfl hx).mp (UInt32.le_refl _)
  exact (le_whole_iff rfl (hx.trans h)).mpr (hwhole.trans h)

end Amount

namespace Level

variable {plan : BucketPlan ℚ} {l : Level ℚ} {now t : Instant}

theorem reached_eq (plan : BucketPlan ℚ) (now : Instant) (l : Level ℚ) :
    l.reached plan now = l.tokens + (elapsed l.refilled now).inSeconds * plan.refillRate := rfl

theorem income_nonneg (plan : BucketPlan ℚ) (s : Span) : 0 ≤ s.inSeconds * plan.refillRate := by
  rw [Span.inSeconds_eq]
  exact mul_nonneg (by positivity) (rate_pos plan).le

/-- A level that is refilled in two pieces gets what comes in during both. -/
theorem tokens_refill_refill (h : 0 ≤ l.tokens) (plan : BucketPlan ℚ) (now t : Instant) :
    ((l.refill plan now).refill plan t).tokens =
      Amount.clamp (l.tokens + ((elapsed l.refilled now).inSeconds +
        (elapsed (l.refill plan now).refilled t).inSeconds) * plan.refillRate)
          (Amount.ofCount plan.capacity) := by
  have hreached : 0 ≤ l.reached plan now := add_nonneg h (income_nonneg plan _)
  rw [tokens_refill, reached_eq, tokens_refill,
    Amount.clamp_add_clamp hreached (income_nonneg plan _), reached_eq, add_assoc, add_mul]

/-- A level that was refilled before holds no less, and the same if it was not refilled later. -/
theorem tokens_refill_touched (h : 0 ≤ l.tokens) (plan : BucketPlan ℚ) (now t : Instant) :
    (l.refill plan t).tokens ≤ ((l.refill plan now).refill plan t).tokens ∧
      (now ≤ t → ((l.refill plan now).refill plan t).tokens = (l.refill plan t).tokens) := by
  rw [tokens_refill_refill h, tokens_refill, reached_eq]
  constructor
  · have hpieces : (elapsed l.refilled t).inSeconds ≤ (elapsed l.refilled now).inSeconds +
        (elapsed (l.refill plan now).refilled t).inSeconds := by
      have hnanos : ((elapsed l.refilled t).nanos : ℚ) ≤ (elapsed l.refilled now).nanos +
          (elapsed (l.refill plan now).refilled t).nanos := by
        exact_mod_cast nanos_elapsed_le_touched l.refilled now t
      rw [Span.inSeconds_eq, Span.inSeconds_eq, Span.inSeconds_eq, ← add_div]
      gcongr
    refine Amount.clamp_mono (add_nonneg h (income_nonneg plan _)) ?_ _
    exact add_le_add_right (mul_le_mul_of_nonneg_right hpieces (rate_pos plan).le) _
  · intro hle
    have hpieces : (elapsed l.refilled now).inSeconds +
        (elapsed (l.refill plan now).refilled t).inSeconds = (elapsed l.refilled t).inSeconds := by
      have hnanos : ((elapsed l.refilled t).nanos : ℚ) = (elapsed l.refilled now).nanos +
          (elapsed (l.refill plan now).refilled t).nanos := by
        exact_mod_cast nanos_elapsed_eq_touched hle
      rw [Span.inSeconds_eq, Span.inSeconds_eq, Span.inSeconds_eq, ← add_div, hnanos]
    rw [hpieces]

end Level

namespace Buckets

/-! ## Calls that take nothing -/

variable {b : Buckets ℚ} {key : String} {e : Instant × BucketCall} {t : Instant}

theorem left_zero (b : Buckets ℚ) (key : String) (now : Instant) :
    b.left key 0 now = b.found key now := by
  have htokens : (b.found key now).tokens - (Amount.ofCount 0 : ℚ) = (b.found key now).tokens :=
    sub_zero _
  unfold left
  rw [htokens]

/-- A call that grants a key nothing and gives nothing back to it leaves its level alone, refills
it, or drops it once it is full. -/
theorem levels_untaken (b : Buckets ℚ)
    (hgranted : (if e.2.key? = some key then (b.step e).2.tokens else 0) = 0)
    (hreturned : (if e.2.key? = some key then e.2.returned else 0) = 0) :
    (b.step e).1.levels[key]? = b.levels[key]? ∨ ∃ l, b.levels[key]? = some l ∧
      ((b.step e).1.levels[key]? = some (l.refill b.plan e.1) ∨
        (b.step e).1.levels[key]? = none ∧
          Amount.ofCount b.plan.capacity ≤ l.reached b.plan e.1) := by
  rcases b.levels_step e key with hsame | ⟨force, l, _, hl, hspent, hnone⟩ |
    ⟨n, partly, htaking, hstored, hleft⟩ | ⟨n, hcall, hn, _⟩
  · exact Or.inl hsame
  · exact Or.inr ⟨l, hl, Or.inr ⟨hnone, reached_of_isSpent hspent⟩⟩
  · obtain ⟨now, call⟩ := e
    rw [step_taking htaking, if_pos (of_taking htaking).1, tokens_told_take htaking] at hgranted
    -- what is granted nothing finds a level, or it would leave none
    have hzero : b.granted key n partly now = 0 := UInt32.toNat_inj.mp hgranted
    rw [hzero] at hstored hleft
    obtain ⟨l, hl⟩ := Option.isSome_iff_exists.mp (hstored.resolve_right (UInt32.lt_irrefl 0))
    rw [left_zero, found_of_some hl] at hleft
    exact Or.inr ⟨l, hl, Or.inl hleft⟩
  · rw [hcall] at hreturned
    exact absurd (UInt32.toNat_inj.mp ((if_pos rfl).symm.trans hreturned)) hn

/-- Such a call lowers nothing that is found later, and changes nothing that is found at a reading
which is not earlier. -/
theorem tokens_found_untaken (h : b.InRange)
    (hgranted : (if e.2.key? = some key then (b.step e).2.tokens else 0) = 0)
    (hreturned : (if e.2.key? = some key then e.2.returned else 0) = 0) (t : Instant) :
    (b.found key t).tokens ≤ ((b.step e).1.found key t).tokens ∧
      (e.1 ≤ t → ((b.step e).1.found key t).tokens = (b.found key t).tokens) := by
  rcases levels_untaken b hgranted hreturned with hsame | ⟨l, hl, hrefilled | ⟨hnone, hfull⟩⟩
  · rw [found_congr (plan_step b e) hsame]
    exact ⟨le_rfl, fun _ => rfl⟩
  · have htokens : 0 ≤ l.tokens := by simpa [Amount.zero, Amount.ofCount] using (h key l hl).1
    rw [found_of_some hl, found_of_some hrefilled, plan_step]
    exact Level.tokens_refill_touched htokens b.plan e.1 t
  · have hdropped : ((b.step e).1.found key t).tokens = b.plan.capacity.toNat := by
      rw [found_of_none hnone, plan_step, Level.refill_full]
      rfl
    rw [hdropped]
    refine ⟨?_, fun hle => ?_⟩
    · rcases b.held_found key t with hnot | ⟨p, hp, _, hcap⟩
      · cases hnot
      · obtain rfl := Extent.ofRat_inj.mp (Option.some.inj hp)
        exact hcap
    · rw [found_of_some hl, Level.tokens_refill,
        Amount.clamp_of_le b.plan.capacity_pos (Level.reached_mono hfull hle)]
      rfl

theorem tokens_found_run_untaken (h : b.InRange) {events : List (Instant × BucketCall)}
    (hgranted : grantedTo key events (run step b events).2 = 0)
    (hreturned : returnedTo key events = 0) (t : Instant) :
    (b.found key t).tokens ≤ ((run step b events).1.found key t).tokens ∧
      ((∀ e ∈ events, e.1 ≤ t) →
        ((run step b events).1.found key t).tokens = (b.found key t).tokens) := by
  induction events generalizing b with
  | nil => exact ⟨le_rfl, fun _ => rfl⟩
  | cons e rest ih =>
    rw [run_cons, grantedTo_cons, Nat.add_eq_zero_iff] at hgranted
    rw [returnedTo_cons, Nat.add_eq_zero_iff] at hreturned
    obtain ⟨hle, heq⟩ := tokens_found_untaken h hgranted.1 hreturned.1 t
    obtain ⟨hle', heq'⟩ := ih (h.step e) hgranted.2 hreturned.2
    rw [run_cons]
    refine ⟨hle.trans hle', fun hpast => ?_⟩
    obtain ⟨hfirst, hrest⟩ := List.forall_mem_cons.mp hpast
    exact (heq' hrest).trans (heq hfirst)

end Buckets

/-- **Touching a bucket costs nothing.** Take buckets that were restored from any snapshot and used
in any way, and a run of further calls that grants a key nothing and gives nothing back to it, at
any readings of the clock.  At no reading is less available for the key after that run than before
it, and if the run does not pass the reading, the same is available. -/
theorem touching_costs_nothing (plan : BucketPlan ℚ) (levels : Snapshot ℚ)
    (events : List (Instant × BucketCall)) {key : String}
    {touches : List (Instant × BucketCall)}
    (hgranted : grantedTo key touches
      (run Buckets.step (run Buckets.step (.restore plan levels) events).1 touches).2 = 0)
    (hreturned : returnedTo key touches = 0) (t : Instant) :
    let b := (run Buckets.step (.restore plan levels) events).1
    let touched := (run Buckets.step b touches).1
    b.available key t ≤ touched.available key t ∧
      ((∀ e ∈ touches, e.1 ≤ t) → touched.available key t = b.available key t) := by
  intro b touched
  have hrange : b.InRange :=
    Buckets.InRange.run (Buckets.inRange_restore plan fun _ _ => ⟨_, rfl⟩) events
  obtain ⟨hle, heq⟩ := Buckets.tokens_found_run_untaken hrange hgranted hreturned t
  rw [Buckets.available_eq, Buckets.available_eq]
  refine ⟨Amount.whole_mono Level.tokens_refill_nonneg hle, fun hpast => ?_⟩
  exact congrArg Amount.whole (heq hpast)

/-- Requests for more than has come in, also after the clock went back. -/
def inVain : List (Instant × BucketCall) :=
  [(⟨1000000000⟩, .request "edge" 3 false), (⟨3000000000⟩, .require "edge" 2),
    (⟨2000000000⟩, .acquire "edge" 4 false), (⟨3500000000⟩, .request "edge" 2 false)]

/-- Half a token comes in every second, in pieces as on the whole: two after four seconds.  Half a
second after the bucket was emptied none would be there, but one has come in for the readings that
were ahead. -/
theorem touching_costs_nothing_inVain :
    let b := (run Buckets.step (.restore slowRefill []) [(⟨0⟩, .request "edge" 3 false)]).1
    grantedTo "edge" inVain (run Buckets.step b inVain).2 = 0 ∧ returnedTo "edge" inVain = 0 ∧
      (∀ e ∈ inVain, e.1 ≤ ⟨4000000000⟩) ∧ b.available "edge" ⟨4000000000⟩ = 2 ∧
      (run Buckets.step b inVain).1.available "edge" ⟨4000000000⟩ = 2 ∧
      b.available "edge" ⟨500000000⟩ ≤ (run Buckets.step b inVain).1.available "edge" ⟨500000000⟩ ∧
      b.available "edge" ⟨500000000⟩ = 0 := by
  intro b
  have hgranted : grantedTo "edge" inVain (run Buckets.step b inVain).2 = 0 := by decide +kernel
  have hreturned : returnedTo "edge" inVain = 0 := by decide
  have hpast : ∀ e ∈ inVain, e.1 ≤ (⟨4000000000⟩ : Instant) := by decide
  have hroom : b.available "edge" ⟨4000000000⟩ = 2 := by decide +kernel
  obtain ⟨-, hsame⟩ := touching_costs_nothing slowRefill [] _ hgranted hreturned ⟨4000000000⟩
  obtain ⟨hmore, -⟩ := touching_costs_nothing slowRefill [] _ hgranted hreturned ⟨500000000⟩
  exact ⟨hgranted, hreturned, hpast, hroom, (hsame hpast).trans hroom, hmore, by decide +kernel⟩

end Admission
