import Admission.Proofs.BucketBound
import Admission.Proofs.Restoring

/-!
# What sweeps let a bucket refill again

The mark of the last refill is what keeps a stretch of time from being refilled twice.  A sweep that
drops a full bucket drops its mark as well.  Nobody misses it while the clock goes forward; but if
the clock goes back behind it and the key takes tokens there, the new bucket is marked with the
earlier reading, and the time from there to the lost mark is refilled once more.

`rewound` adds up these stretches over a run: `forgotten` carries the mark that the last sweep
dropped with the bucket of a key, and `regained` is how far behind it a new bucket is made.  With a
forgotten mark a key without a level has in prospect what it had when it was dropped, so no call
raises the prospect by more than what comes back and what is regained (`prospect_step_any`).

* `granted_le_capacity_add_refill_add_rewound` — over every run the tokens granted to a key are at
  most the capacity, what was given back, and what comes in during the time that the readings span
  and the time that was rewound; it takes a sweep and a clock that goes back to rewind anything.
* `swept_bucket_refills_again` — without the time that was rewound this is false.
-/

namespace Admission

/-! ## What a sweep forgets -/

/-- The mark that was dropped with the bucket of a key, after one more call. -/
def forgotten (key : String) (mark : Option Instant) (b : Buckets ℚ) (e : Instant × BucketCall) :
    Option Instant :=
  match b.levels[key]?, (b.step e).1.levels[key]? with
  | some l, none => some (l.refill b.plan e.1).refilled
  | none, some _ => none
  | _, _ => mark

/-- How far a call that makes a new bucket for a key goes back behind the mark that was dropped. -/
def regained (key : String) (mark : Option Instant) (b : Buckets ℚ) (e : Instant × BucketCall) :
    Span :=
  match b.levels[key]?, (b.step e).1.levels[key]? with
  | none, some _ => mark.elim .zero (elapsed e.1)
  | _, _ => .zero

/-- The time that a run goes back behind marks that were dropped, over all buckets of a key. -/
def rewound (key : String) : Option Instant → Buckets ℚ → List (Instant × BucketCall) → Span
  | _, _, [] => .zero
  | mark, b, e :: rest =>
    (regained key mark b e).plus (rewound key (forgotten key mark b e) (b.step e).1 rest)

theorem inSeconds_zero : Span.zero.inSeconds = 0 := by
  rw [Span.inSeconds_eq]
  simp [Span.zero]

theorem inSeconds_plus (a b : Span) : (a.plus b).inSeconds = a.inSeconds + b.inSeconds := by
  rw [Span.inSeconds_eq, Span.inSeconds_eq, Span.inSeconds_eq, ← add_div, ← Nat.cast_add]
  rfl

/-- Time counted from an earlier instant is longer by no more than what lies in between. -/
theorem Instant.secondsTo_le_add (a b t : Instant) :
    a.secondsTo t ≤ b.secondsTo t + (elapsed a b).inSeconds := by
  have hnanos : ((t.nanos - a.nanos : ℤ) : ℚ) ≤
      ((t.nanos - b.nanos : ℤ) : ℚ) + ((elapsed a b).nanos : ℕ) := by
    have hclamp : b.nanos - a.nanos ≤ ((elapsed a b).nanos : ℤ) := Int.self_le_toNat _
    exact_mod_cast (by omega : t.nanos - a.nanos ≤ t.nanos - b.nanos + ((elapsed a b).nanos : ℤ))
  rw [Span.inSeconds_eq]
  unfold secondsTo
  rw [← add_div]
  gcongr

/-- A bucket made at `now` is behind the mark that was dropped by no more than what is regained. -/
theorem Instant.secondsTo_le_regained {first now : Instant} (hfirst : first ≤ now)
    (mark : Option Instant) (last : Instant) :
    now.secondsTo last ≤
      (mark.getD first).secondsTo last + (mark.elim .zero (elapsed now)).inSeconds := by
  cases mark with
  | none =>
    rw [Option.elim_none, inSeconds_zero, add_zero]
    exact secondsTo_anti hfirst last
  | some m => exact secondsTo_le_add now m last

namespace Buckets

variable {b : Buckets ℚ} {key : String} {mark : Option Instant} {first last : Instant}
  {e : Instant × BucketCall} {l l' : Level ℚ}

theorem prospect_of_some (h : b.levels[key]? = some l) :
    b.prospect key first last = l.prospect b.plan last := by
  unfold prospect
  rw [h]
  rfl

theorem prospect_of_none (h : b.levels[key]? = none) :
    b.prospect key first last =
      b.plan.capacity.toNat + first.secondsTo last * b.plan.refillRate := by
  unfold prospect
  rw [h]
  rfl

/-! ## One call -/

theorem forgotten_of_dropped (hl : b.levels[key]? = some l)
    (hnone : (b.step e).1.levels[key]? = none) :
    forgotten key mark b e = some (l.refill b.plan e.1).refilled := by
  unfold forgotten
  rw [hl, hnone]

theorem forgotten_of_same (h : (b.step e).1.levels[key]? = b.levels[key]?) :
    forgotten key mark b e = mark := by
  unfold forgotten
  rw [h]
  cases b.levels[key]? <;> rfl

theorem regained_of_made (hnone : b.levels[key]? = none)
    (hl' : (b.step e).1.levels[key]? = some l') :
    regained key mark b e = mark.elim .zero (elapsed e.1) := by
  unfold regained
  rw [hnone, hl']

/-- Nothing is regained unless a bucket is made. -/
theorem regained_eq_zero (h : b.levels[key]?.isSome ∨ (b.step e).1.levels[key]? = none) :
    regained key mark b e = .zero := by
  unfold regained
  split
  · next hnone hl' => simp [hnone, hl'] at h
  · rfl

/-- Only a sweep drops a level, and only one that has reached the capacity. -/
theorem sweep_of_dropped (hl : b.levels[key]? = some l)
    (hnone : (b.step e).1.levels[key]? = none) :
    e.2.isSweep = true ∧ Amount.ofCount b.plan.capacity ≤ l.reached b.plan e.1 := by
  rcases b.levels_step e key with hsame | ⟨force, m, hcall, hm, hspent, _⟩ |
    ⟨n, partly, _, _, hleft⟩ | ⟨n, _, _, hfilled⟩
  · exact absurd (hl.symm.trans (hsame.symm.trans hnone)) (Option.some_ne_none l)
  · obtain rfl := Option.some.inj (hl.symm.trans hm)
    rw [hcall]
    exact ⟨rfl, reached_of_isSpent hspent⟩
  · exact absurd (hleft.symm.trans hnone) (Option.some_ne_none _)
  · exact absurd (hfilled.symm.trans hnone) (Option.some_ne_none _)

/-- A bucket that is dropped leaves the prospect of a full one with its mark. -/
theorem prospect_dropped (h : b.Until last) (hl : b.levels[key]? = some l)
    (hnone : (b.step e).1.levels[key]? = none) :
    (b.step e).1.prospect key (l.refill b.plan e.1).refilled last ≤ b.prospect key first last := by
  have hrefill : (l.refill b.plan e.1).prospect b.plan last ≤ l.prospect b.plan last :=
    Level.prospect_refill_le (h key l hl).1
  obtain ⟨_, hfull⟩ := sweep_of_dropped hl hnone
  have htokens : (l.refill b.plan e.1).tokens = b.plan.capacity.toNat := by
    rw [Level.tokens_refill, Amount.clamp_of_le b.plan.capacity_pos hfull]
    rfl
  rw [prospect_of_none hnone, prospect_of_some hl, plan_step, ← htokens]
  exact hrefill

theorem Until.sweep (h : b.Until last) (force : Bool) (now : Instant) :
    (b.sweep force now).after.Until last := by
  intro k l hl
  rcases b.levels_sweep force now k with hkept | ⟨hnone, _⟩
  · exact h k l (hkept.symm.trans hl)
  · rw [hl] at hnone
    cases hnone

theorem Until.step (h : b.Until last) (hlast : e.1 ≤ last) : (b.step e).1.Until last := by
  obtain ⟨now, call⟩ := e
  cases htaking : call.taking? with
  | some request =>
    obtain ⟨k, n, partly⟩ := request
    rw [step_taking htaking]
    exact h.take hlast k n partly
  | none =>
    cases call with
    | request k n partly => cases htaking
    | require k n => cases htaking
    | acquire k n partly => cases htaking
    | available k => exact h
    | giveBack k n => exact h.giveBack hlast k n
    | sweep force => exact h.sweep force now

/-- No mark that was dropped lies after the last reading. -/
theorem forgotten_le (h : b.Until last) (hmark : ∀ m ∈ mark, m ≤ last) (hlast : e.1 ≤ last)
    (key : String) : ∀ m ∈ forgotten key mark b e, m ≤ last := by
  unfold forgotten
  split
  · next l hl _ =>
    intro m hm
    obtain rfl := Option.some.inj hm
    rw [Level.refilled_refill]
    split
    · exact hlast
    · exact (h key l hl).2
  · exact fun m hm => by cases hm
  · exact hmark

/-- A sweep keeps the prospect of a key whose dropped marks are known. -/
theorem prospect_sweep (h : b.Until last) (key : String) (mark : Option Instant)
    (first : Instant) (force : Bool) (now : Instant) :
    (b.step (now, .sweep force)).1.prospect key
        ((forgotten key mark b (now, .sweep force)).getD first) last ≤
      b.prospect key (mark.getD first) last := by
  rcases b.levels_sweep force now key with hkept | ⟨hnone, l, hl, _⟩
  · rw [forgotten_of_same hkept]
    exact le_of_eq (prospect_congr rfl hkept)
  · have hdropped : (b.step (now, .sweep force)).1.levels[key]? = none := hnone
    rw [forgotten_of_dropped hl hdropped]
    exact prospect_dropped h hl hdropped

/-- A call that does not sweep raises the prospect only if it makes a bucket behind the mark that was
dropped. -/
theorem prospect_step_of_not_sweep (h : b.Until last) (hsweep : e.2.isSweep = false)
    (hfirst : first ≤ e.1) (hlast : e.1 ≤ last) (key : String) (mark : Option Instant) :
    ((if e.2.key? = some key then (b.step e).2.tokens else 0 : ℕ) : ℚ) +
        (b.step e).1.prospect key ((forgotten key mark b e).getD first) last ≤
      b.prospect key (mark.getD first) last +
        (if e.2.key? = some key then e.2.returned else 0 : ℕ) +
        b.plan.refillRate * (regained key mark b e).inSeconds := by
  -- a key without a level counts as full at the reading of the call
  have hnow : e.1 ≤ e.1 := Int.le_refl _
  obtain ⟨_, hstep⟩ := prospect_step h hsweep hnow hlast key
  cases hl : b.levels[key]? with
  | some l =>
    cases hl' : (b.step e).1.levels[key]? with
    | some l' =>
      rw [regained_eq_zero (Or.inl (by rw [hl]; rfl)), inSeconds_zero, mul_zero, add_zero]
      rw [prospect_of_some hl, prospect_of_some hl'] at hstep ⊢
      exact hstep
    | none =>
      obtain ⟨hdrop, _⟩ := sweep_of_dropped hl hl'
      rw [hsweep] at hdrop
      cases hdrop
  | none =>
    cases hl' : (b.step e).1.levels[key]? with
    | none =>
      rw [regained_eq_zero (Or.inr hl'), inSeconds_zero, mul_zero, add_zero,
        forgotten_of_same (hl'.trans hl.symm)]
      rw [prospect_of_none hl, prospect_of_none hl', plan_step] at hstep ⊢
      linarith
    | some l' =>
      rw [regained_of_made hl hl', prospect_of_some hl', prospect_of_none hl]
      rw [prospect_of_some hl', prospect_of_none hl] at hstep
      have hgain := mul_le_mul_of_nonneg_right
        (Instant.secondsTo_le_regained hfirst mark last) (rate_pos b.plan).le
      rw [add_mul] at hgain
      linarith

/-- What one call grants to a key and leaves in prospect was in prospect, is given back or is
regained. -/
theorem prospect_step_any (h : b.Until last) (hfirst : first ≤ e.1) (hlast : e.1 ≤ last)
    (key : String) (mark : Option Instant) :
    ((if e.2.key? = some key then (b.step e).2.tokens else 0 : ℕ) : ℚ) +
        (b.step e).1.prospect key ((forgotten key mark b e).getD first) last ≤
      b.prospect key (mark.getD first) last +
        (if e.2.key? = some key then e.2.returned else 0 : ℕ) +
        b.plan.refillRate * (regained key mark b e).inSeconds := by
  cases hsweep : e.2.isSweep with
  | false => exact prospect_step_of_not_sweep h hsweep hfirst hlast key mark
  | true =>
    obtain ⟨now, call⟩ := e
    cases call with
    | sweep force =>
      have hkept := prospect_sweep h key mark first force now
      have hback : 0 ≤ (regained key mark b (now, .sweep force)).inSeconds := by
        rw [Span.inSeconds_eq]
        positivity
      have hgain := mul_nonneg (rate_pos b.plan).le hback
      show ((0 : ℕ) : ℚ) + _ ≤ _ + ((0 : ℕ) : ℚ) + _
      rw [Nat.cast_zero]
      linarith
    | _ => cases hsweep

/-! ## Whole runs -/

/-- What a run grants to a key and leaves in prospect was in prospect, is given back or is
regained. -/
theorem prospect_run_any (h : b.Until last) (hmark : ∀ m ∈ mark, m ≤ last)
    {events : List (Instant × BucketCall)} (hbounds : ∀ e ∈ events, first ≤ e.1 ∧ e.1 ≤ last)
    (hle : first ≤ last) (key : String) :
    (grantedTo key events (run step b events).2 : ℚ) ≤
      b.prospect key (mark.getD first) last + returnedTo key events +
        b.plan.refillRate * (rewound key mark b events).inSeconds := by
  induction events generalizing b mark with
  | nil =>
    have hleft : 0 ≤ b.prospect key (mark.getD first) last := by
      refine prospect_nonneg h ?_ key
      cases mark with
      | none => exact hle
      | some m => exact hmark m rfl
    show ((0 : ℕ) : ℚ) ≤ _ + ((0 : ℕ) : ℚ) + b.plan.refillRate * Span.zero.inSeconds
    rw [inSeconds_zero, Nat.cast_zero, mul_zero, add_zero, add_zero]
    exact hleft
  | cons e rest ih =>
    obtain ⟨⟨hfirst, hlast⟩, hbounds⟩ := List.forall_mem_cons.mp hbounds
    have hstep := prospect_step_any h hfirst hlast key mark
    have hrest := ih (h.step hlast) (forgotten_le h hmark hlast key) hbounds
    rw [plan_step] at hrest
    rw [run_cons, grantedTo_cons, returnedTo_cons, Nat.cast_add, Nat.cast_add, rewound,
      inSeconds_plus, mul_add]
    linarith

/-- A clock that never goes back does not go back behind a mark that was dropped. -/
theorem rewound_of_chronological (h : b.Until last) (hmark : ∀ m ∈ mark, m ≤ last)
    {events : List (Instant × BucketCall)} (hclock : Chronological events)
    (hlast : ∀ e ∈ events, last ≤ e.1) : rewound key mark b events = .zero := by
  induction events generalizing b mark last with
  | nil => rfl
  | cons e rest ih =>
    obtain ⟨he, hrest⟩ := List.pairwise_cons.mp hclock
    have hnow : last ≤ e.1 := hlast e List.mem_cons_self
    have huntil : b.Until e.1 := fun k l hl => ⟨(h k l hl).1, Int.le_trans (h k l hl).2 hnow⟩
    have hmark' : ∀ m ∈ mark, m ≤ e.1 := fun m hm => Int.le_trans (hmark m hm) hnow
    have hgain : regained key mark b e = .zero := by
      unfold regained
      split
      · cases mark with
        | none => rfl
        | some m =>
          have hle : m.nanos ≤ e.1.nanos := hmark' m rfl
          exact congrArg Span.mk (Int.toNat_eq_zero.mpr (by omega))
      · rfl
    rw [rewound, hgain, ih (huntil.step (Int.le_refl _))
      (forgotten_le huntil hmark' (Int.le_refl _) key) hrest he]
    rfl

/-- Nothing but a sweep drops a mark behind which the clock could go back. -/
theorem rewound_of_no_sweeps (b : Buckets ℚ) {events : List (Instant × BucketCall)}
    (hsweeps : ∀ e ∈ events, e.2.isSweep = false) (key : String) :
    rewound key none b events = .zero := by
  induction events generalizing b with
  | nil => rfl
  | cons e rest ih =>
    obtain ⟨hsweep, hsweeps⟩ := List.forall_mem_cons.mp hsweeps
    have hgain : regained key none b e = .zero := by
      unfold regained
      split <;> rfl
    have hmark : forgotten key none b e = none := by
      unfold forgotten
      split
      · next l hl hnone =>
        obtain ⟨hdrop, _⟩ := sweep_of_dropped hl hnone
        rw [hsweep] at hdrop
        cases hdrop
      · rfl
      · rfl
    rw [rewound, hgain, hmark, ih _ hsweeps]
    rfl

end Buckets

/-- **Sweeps let a bucket refill again only the time that the clock goes back behind them.** Over
every run, sweeps included and whatever the readings of the clock, the tokens that are granted to a
key are at most the capacity, the tokens given back for it, and those that come in during the time
between the smallest and the largest reading and the time by which the run goes back behind marks
that sweeps dropped.  A run without sweeps or with a clock that never goes back does not go back
behind any. -/
theorem granted_le_capacity_add_refill_add_rewound (plan : BucketPlan ℚ) (key : String)
    (events : List (Instant × BucketCall)) :
    let back := rewound key none (.empty plan) events
    (grantedTo key events (run Buckets.step (.empty plan) events).2 : ℚ) ≤
        plan.capacity.toNat + returnedTo key events +
          plan.refillRate * ((spread events).inSeconds + back.inSeconds) ∧
      (Chronological events → back = .zero) ∧
      ((∀ e ∈ events, e.2.isSweep = false) → back = .zero) := by
  intro back
  have hempty : ∀ k : String, (Buckets.empty plan).levels[k]? = none := fun k =>
    Std.ExtTreeMap.getElem?_empty
  have hstart : ∀ last, (Buckets.empty plan).Until last := by
    intro last k l hl
    rw [hempty k] at hl
    cases hl
  have hnone : ∀ last, ∀ m ∈ (none : Option Instant), m ≤ last := fun _ m hm => by cases hm
  refine ⟨?_, ?_, fun hsweeps => Buckets.rewound_of_no_sweeps _ hsweeps key⟩
  · obtain ⟨first, last, hle, hbounds, hspread⟩ := exists_bounds events
    have hrun := Buckets.prospect_run_any (hstart last) (hnone last) hbounds hle key
    rw [Buckets.prospect_of_none (hempty key), Option.getD_none, hspread] at hrun
    have hsum : (grantedTo key events (run Buckets.step (.empty plan) events).2 : ℚ) ≤
        plan.capacity.toNat + (spread events).inSeconds * plan.refillRate +
          returnedTo key events + plan.refillRate * back.inSeconds := hrun
    linarith
  · intro hclock
    cases events with
    | nil => rfl
    | cons e rest =>
      obtain ⟨he, _⟩ := List.pairwise_cons.mp hclock
      exact Buckets.rewound_of_chronological (hstart e.1) (hnone e.1) hclock
        (List.forall_mem_cons.mpr ⟨Int.le_refl _, he⟩)

/-- One token, and one more every second. -/
def onePerSecond : BucketPlan ℚ :=
  ⟨1, 1, none, UInt32.zero_lt_one, decide_eq_true zero_lt_one⟩

/-- The bucket is emptied, dropped once it is full, and used after the clock went back. -/
def sweptThenBack : List (Instant × BucketCall) :=
  [(⟨0⟩, .request "edge" 1 false), (⟨1000000000⟩, .sweep true), (⟨0⟩, .request "edge" 1 false),
    (⟨1000000000⟩, .request "edge" 1 false)]

/-- The one second between the readings is refilled twice, so three tokens are granted. -/
theorem granted_le_capacity_add_refill_add_rewound_sweptThenBack :
    grantedTo "edge" sweptThenBack (run Buckets.step (.empty onePerSecond) sweptThenBack).2 = 3 ∧
      rewound "edge" none (.empty onePerSecond) sweptThenBack = .seconds 1 ∧
      ((3 : ℕ) : ℚ) ≤ ((1 : ℕ) : ℚ) + ((0 : ℕ) : ℚ) + 1 * (1 + 1) ∧
      Chronological (sweptThenBack.take 2) ∧
      rewound "edge" none (.empty onePerSecond) (sweptThenBack.take 2) = .zero ∧
      (∀ e ∈ (sweptThenBack.drop 2).reverse, e.2.isSweep = false) ∧
      rewound "edge" none (.empty onePerSecond) (sweptThenBack.drop 2).reverse = .zero := by
  have hgranted : grantedTo "edge" sweptThenBack
      (run Buckets.step (.empty onePerSecond) sweptThenBack).2 = 3 := by decide +kernel
  have hreturned : returnedTo "edge" sweptThenBack = 0 := by decide
  have hspread : (spread sweptThenBack).inSeconds = 1 := by decide +kernel
  have hback : rewound "edge" none (.empty onePerSecond) sweptThenBack = .seconds 1 := by
    decide +kernel
  have hsecond : (Span.seconds 1).inSeconds = 1 := by decide +kernel
  have hclock : Chronological (sweptThenBack.take 2) := by
    unfold Chronological
    decide
  have hsweeps : ∀ e ∈ (sweptThenBack.drop 2).reverse, e.2.isSweep = false := by decide
  obtain ⟨hbound, -, -⟩ :=
    granted_le_capacity_add_refill_add_rewound onePerSecond "edge" sweptThenBack
  obtain ⟨-, hforward, -⟩ :=
    granted_le_capacity_add_refill_add_rewound onePerSecond "edge" (sweptThenBack.take 2)
  obtain ⟨-, -, hunswept⟩ :=
    granted_le_capacity_add_refill_add_rewound onePerSecond "edge" (sweptThenBack.drop 2).reverse
  rw [hgranted, hreturned, hspread, hback, hsecond] at hbound
  exact ⟨hgranted, hback, hbound, hclock, hforward hclock, hsweeps, hunswept hsweeps⟩

/-- The capacity and what comes in during one second are two tokens, and three are granted. -/
theorem swept_bucket_refills_again :
    ¬ (grantedTo "edge" sweptThenBack
        (run Buckets.step (.empty onePerSecond) sweptThenBack).2 : ℚ) ≤
      onePerSecond.capacity.toNat + returnedTo "edge" sweptThenBack +
        onePerSecond.refillRate * (spread sweptThenBack).inSeconds := by
  have hgranted : grantedTo "edge" sweptThenBack
      (run Buckets.step (.empty onePerSecond) sweptThenBack).2 = 3 := by decide +kernel
  have hreturned : returnedTo "edge" sweptThenBack = 0 := by decide
  have hspread : (spread sweptThenBack).inSeconds = 1 := by decide +kernel
  rw [hgranted, hreturned, hspread]
  show ¬ ((3 : ℕ) : ℚ) ≤ ((1 : ℕ) : ℚ) + ((0 : ℕ) : ℚ) + 1 * 1
  norm_num

end Admission
