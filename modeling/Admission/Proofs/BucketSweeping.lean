import Admission.Proofs.BucketRun
import Admission.Proofs.FloatAmounts

/-!
# Sweeping buckets is not seen

A sweep drops buckets that are full again, and a key without a bucket counts as a full one.  The two
are not the same state: a level that was left alone is not marked with the reading at which it
became full.  `Swept` relates buckets that were swept to buckets that were not: whatever the former
lack is full in the latter, and stays so as the clock goes on (`Level.reached_mono`), whatever is
asked in between.

* `sweeps_unseen` — over every run with a clock that never goes back, sweeps change no answer to
  any other call.
-/

namespace Admission

open Amount LawfulAmount

namespace Buckets

variable {α : Type} [Amount α]

/-- The buckets `b` are the buckets `c` without some that are full at the reading `t`, and `c` was
not refilled after `t`. -/
structure Swept (t : Instant) (b c : Buckets α) : Prop where
  plan : b.plan = c.plan
  past : ∀ (key : String) (l : Level α), c.levels[key]? = some l → l.refilled ≤ t
  levels : ∀ key : String, b.levels[key]? = c.levels[key]? ∨ b.levels[key]? = none ∧
    ∃ l, c.levels[key]? = some l ∧ ofCount c.plan.capacity ≤ l.reached c.plan t

namespace Swept

variable {b c : Buckets α} {t now : Instant}

theorem refl (h : ∀ (key : String) (l : Level α), b.levels[key]? = some l → l.refilled ≤ t) :
    Swept t b b := ⟨rfl, h, fun _ => Or.inl rfl⟩

/-- The level that is found is marked with the reading. -/
theorem refilled_found (h : Swept t b c) (key : String) : (c.found key t).refilled = t := by
  refine Level.refilled_refill_of_le ?_
  cases hl : c.levels[key]? with
  | some l => exact h.past key l hl
  | none => exact Int.le_refl _

variable [LawfulAmount α]

/-- What is full stays full. -/
theorem mono (h : Swept t b c) (hle : t ≤ now) : Swept now b c := by
  refine ⟨h.plan, fun key l hl => Int.le_trans (h.past key l hl) hle, fun key => ?_⟩
  rcases h.levels key with hsame | ⟨hnone, l, hl, hfull⟩
  · exact Or.inl hsame
  · exact Or.inr ⟨hnone, l, hl, Level.reached_mono hfull hle⟩

/-- A call finds the same level in both. -/
theorem found_eq (h : Swept t b c) (key : String) : b.found key t = c.found key t := by
  rcases h.levels key with hsame | ⟨hnone, l, hl, hfull⟩
  · exact found_congr h.plan hsame
  · rw [found_of_none hnone, found_of_some hl, h.plan, Level.refill_full,
      Level.refill_of_reached hfull (h.past key l hl)]

theorem granted_eq (h : Swept t b c) (key : String) (n : Count) (partly : Bool) :
    b.granted key n partly t = c.granted key n partly t := by
  unfold granted
  rw [h.found_eq key]

/-- What is found under a key that was dropped is a full bucket. -/
theorem found_of_dropped (h : Swept t b c) {key : String} (hnone : b.levels[key]? = none) :
    c.found key t = .full c.plan t := by
  rw [← h.found_eq key, found_of_none hnone, h.plan, Level.refill_full]

/-- A level with a full bucket's tokens and the mark of the reading is full. -/
theorem full_of_worth {plan : BucketPlan α} {l : Level α} (hmark : l.refilled = t)
    (htokens : worth l.tokens = worth (ofCount plan.capacity : α)) :
    ofCount plan.capacity ≤ l.reached plan t := by
  rw [le_iff]
  refine ⟨_, _, worth_ofCount _, ?_, le_rfl⟩
  unfold Level.reached
  rw [hmark, elapsed_self, worth_add_no_time plan.rate_valid, htokens, worth_ofCount]

theorem take (h : Swept t b c) (key : String) (n : Count) (partly : Bool) :
    Swept t (b.take key n partly t).after (c.take key n partly t).after := by
  have hgranted := h.granted_eq key n partly
  have hleft :
      b.left key (c.granted key n partly t) t = c.left key (c.granted key n partly t) t := by
    unfold left
    rw [h.found_eq key]
  refine ⟨by rw [plan_take, plan_take, h.plan], fun k l hl => ?_, fun k => ?_⟩
  · rw [getElem?_take] at hl
    split at hl
    · obtain rfl := Option.some.inj hl
      exact Int.le_of_eq (congrArg Instant.nanos (h.refilled_found key))
    · exact h.past k l hl
  · rw [getElem?_take, getElem?_take, plan_take, hgranted, hleft]
    by_cases hk : k = key
    · subst hk
      by_cases hpos : 0 < c.granted k n partly t
      · rw [if_pos ⟨rfl, Or.inr hpos⟩, if_pos ⟨rfl, Or.inr hpos⟩]
        exact Or.inl rfl
      · rcases h.levels k with hsame | ⟨hnone, l, hl, _⟩
        · rw [hsame]
          exact Or.inl rfl
        · -- nothing is taken, and the level that only one side holds stays full
          right
          have hzero : c.granted k n partly t = 0 := by
            rw [Count.pos_iff, Nat.not_lt, Nat.le_zero] at hpos
            exact UInt32.toNat_inj.mp (hpos.trans UInt32.toNat_zero.symm)
          rw [if_neg (by simp [hnone, hpos]), if_pos ⟨rfl, Or.inl (by rw [hl]; rfl)⟩]
          refine ⟨hnone, _, rfl, full_of_worth (h.refilled_found k) ?_⟩
          show worth ((c.found k t).tokens - ofCount (c.granted k n partly t)) = _
          rw [h.found_of_dropped hnone, hzero]
          show worth (ofCount c.plan.capacity - ofCount 0) = _
          rw [worth_sub_ofCount (worth_ofCount _), worth_ofCount]
          · simp
          · simp
          · exact_mod_cast Count.toNat_le_most _
    · rw [if_neg fun hs => hk hs.1, if_neg fun hs => hk hs.1]
      exact h.levels k

theorem giveBack (h : Swept t b c) (key : String) (n : Count) :
    Swept t (b.giveBack key n t).after (c.giveBack key n t).after := by
  have hfilled : b.filled key n t = c.filled key n t := by
    unfold filled
    rw [h.found_eq key, h.plan]
  refine ⟨by rw [plan_giveBack, plan_giveBack, h.plan], fun k l hl => ?_, fun k => ?_⟩
  · rw [getElem?_giveBack] at hl
    split at hl
    · obtain rfl := Option.some.inj hl
      exact Int.le_of_eq (congrArg Instant.nanos (h.refilled_found key))
    · exact h.past k l hl
  · rw [getElem?_giveBack, getElem?_giveBack, plan_giveBack, hfilled]
    by_cases hk : k = key
    · subst hk
      rcases h.levels k with hsame | ⟨hnone, l, hl, hfull⟩
      · rw [hsame]
        exact Or.inl rfl
      · right
        rw [if_neg (by simp [hnone])]
        refine ⟨hnone, ?_⟩
        split
        · refine ⟨_, rfl, full_of_worth (h.refilled_found k) ?_⟩
          show worth (atMost ((c.found k t).tokens + ofCount n) (ofCount c.plan.capacity)) = _
          rw [h.found_of_dropped hnone]
          exact congrArg worth (atMost_add_of_full _ _)
        · exact ⟨l, hl, hfull⟩
    · rw [if_neg fun hs => hk hs.1, if_neg fun hs => hk hs.1]
      exact h.levels k

/-- A sweep drops nothing but full buckets. -/
theorem sweep_left (h : Swept t b c) (force : Bool) : Swept t (b.sweep force t).after c := by
  refine ⟨h.plan, h.past, fun k => ?_⟩
  rcases b.levels_sweep force t k with hkept | ⟨hnone, l, hl, hfull⟩
  · rw [hkept]
    exact h.levels k
  · rcases h.levels k with hsame | ⟨hmissing, _⟩
    · rw [h.plan] at hfull
      exact Or.inr ⟨hnone, l, hsame.symm.trans hl, hfull⟩
    · rw [hl] at hmissing
      cases hmissing

/-- A call that is not a sweep is answered alike by both and keeps them related. -/
theorem step (h : Swept t b c) {call : BucketCall} (hsweep : call.isSweep = false) :
    Swept t (b.step (t, call)).1 (c.step (t, call)).1 ∧
      (b.step (t, call)).2 = (c.step (t, call)).2 := by
  cases htaking : call.taking? with
  | some request =>
    obtain ⟨key, n, partly⟩ := request
    rw [step_taking htaking, step_taking htaking]
    refine ⟨h.take key n partly, ?_⟩
    rw [answer_take, answer_take, h.granted_eq, h.found_eq]
  | none =>
    cases call with
    | request key n partly => cases htaking
    | require key n => cases htaking
    | acquire key n partly => cases htaking
    | sweep force => cases hsweep
    | available key =>
      refine ⟨h, ?_⟩
      show BucketAnswer.room (b.available key t) = .room (c.available key t)
      rw [available_eq, available_eq, h.found_eq]
    | giveBack key n => exact ⟨h.giveBack key n, rfl⟩

end Swept

end Buckets

/-- The calls of a run that are not sweeps. -/
def notSweeping (e : Instant × BucketCall) : Bool := !e.2.isSweep

/-- **Sweeping buckets is not seen.** Whatever the buckets hold at first, if they were not refilled
after the first reading and the clock never goes back, then sweeps, forced or not, change no answer
to any other call for any key. -/
theorem sweeps_unseen (b : Buckets Float) {events : List (Instant × BucketCall)}
    (hclock : Chronological events)
    (hpast : ∀ first ∈ events.head?, ∀ (key : String) (l : Level Float),
      b.levels[key]? = some l → l.refilled ≤ first.1) :
    answersTo notSweeping events (run Buckets.step b events).2 =
      (run Buckets.step b (events.filter notSweeping)).2 := by
  cases events with
  | nil => rfl
  | cons first rest =>
    obtain ⟨hfirst, _⟩ := List.pairwise_cons.mp hclock
    have hstart : Buckets.Swept first.1 b b := .refl (hpast first rfl)
    refine run_answersTo_eq ?_ ?_ hstart hclock
      (List.forall_mem_cons.mpr ⟨Int.le_refl _, hfirst⟩)
    · rintro last s t ⟨now, call⟩ h hle hlooked
      exact (h.mono hle).step (Bool.not_eq_true' _ ▸ hlooked)
    · rintro last s t ⟨now, call⟩ h hle hlooked
      cases call with
      | sweep force => exact (h.mono hle).sweep_left force
      | request key n partly => cases hlooked
      | require key n => cases hlooked
      | acquire key n partly => cases hlooked
      | available key => cases hlooked
      | giveBack key n => cases hlooked

/-- Two tokens, half a token more every second, and sweeps of what was left alone for a second. -/
def sweptPlan : BucketPlan Float := ⟨2, 0.5, some (.seconds 1), by decide, rfl⟩

def halfFull : Buckets Float := .restore sweptPlan [("edge", ⟨1.5, ⟨0⟩⟩)]

/-- The bucket is used, swept once it is full, used and swept again. -/
def sweptTwice : List (Instant × BucketCall) :=
  [(⟨1000000000⟩, .request "edge" 1 false), (⟨6000000000⟩, .sweep false),
    (⟨6000000000⟩, .available "edge"), (⟨6000000000⟩, .giveBack "edge" 1),
    (⟨7000000000⟩, .sweep true), (⟨8000000000⟩, .request "edge" 5 true)]

/-- Without the sweeps the answers are the same. -/
theorem sweeps_unseen_sweptTwice :
    Chronological sweptTwice ∧
      (∀ first ∈ sweptTwice.head?, ∀ (key : String) (l : Level Float),
        halfFull.levels[key]? = some l → l.refilled ≤ first.1) ∧
      (run Buckets.step halfFull (sweptTwice.filter notSweeping)).2 =
        [.granted 1, .room 2, .done, .granted 2] := by
  have hclock : Chronological sweptTwice := by
    unfold Chronological
    decide
  have hpast : ∀ first ∈ sweptTwice.head?, ∀ (key : String) (l : Level Float),
      halfFull.levels[key]? = some l → l.refilled ≤ first.1 := by
    intro first hfirst key l hl
    obtain rfl := Option.some.inj hfirst
    have hlevels : halfFull.levels = (∅ : Std.ExtTreeMap String (Level Float)).insert "edge"
        ⟨clamp 1.5 (ofCount 2), ⟨0⟩⟩ := rfl
    rw [hlevels, Std.ExtTreeMap.getElem?_insert] at hl
    split at hl
    · obtain rfl := Option.some.inj hl
      decide
    · rw [Std.ExtTreeMap.getElem?_empty] at hl
      cases hl
  refine ⟨hclock, hpast, ?_⟩
  rw [← sweeps_unseen halfFull hclock hpast]
  decide +kernel

end Admission
