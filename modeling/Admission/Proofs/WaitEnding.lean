import Admission.Proofs.BucketBound
import Admission.Proofs.Waiting

/-!
# How a wait ends

If nobody else uses the key and every sleep is slept out, a wait ends.  What it waits for is
`secondsAway`, and each sleep brings it nearer by at least its length.  A sleep is cut off at an
hour and rounded to whole nanoseconds, and it may be rounded down just short of the goal; the next
one then lasts the millisecond that every sleep lasts at least, which is more than enough.

* `le_refillDelay` — a sleep lasts as long as the tokens are away, but for half a nanosecond, or an
  hour.
* `EnoughSleeps.after_sleep` — so with each sleep there is one less to come.
* `Wait.granted_of_long_timeout` — a wait on a timeline is granted if its timeout is an hour for each
  sleep it may need.
* `waiting_ends` — a wait for tokens that are `T` seconds away ends after `⌈T / 3600⌉ + 1` sleeps at
  most.
-/

namespace Admission

/-! ## Rounding -/

/-- A quotient is rounded down by half at most. -/
theorem two_mul_le_roundToEven (num : ℕ) {den : ℕ} (hden : 0 < den) :
    2 * num ≤ (2 * roundToEven num den + 1) * den := by
  have hdiv : 2 * num = 2 * (num / den) * den + 2 * (num % den) := by
    have hnum := Nat.div_add_mod' num den
    rw [Nat.mul_assoc]
    omega
  have hmod := Nat.mod_lt num hden
  -- the next whole number is not less than the quotient
  have hup : 2 * num ≤ (2 * (num / den + 1) + 1) * den := by
    have : (2 * (num / den + 1) + 1) * den = 2 * (num / den) * den + 3 * den := by ring
    omega
  have hdown : 2 * (num % den) ≤ den → 2 * num ≤ (2 * (num / den) + 1) * den := by
    intro hhalf
    have : (2 * (num / den) + 1) * den = 2 * (num / den) * den + den := by ring
    omega
  unfold roundToEven
  dsimp only
  split
  · next hless => exact hdown hless.le
  · next hge =>
    split
    · exact hup
    · next hle =>
      split
      · exact hdown (Nat.not_lt.mp hle)
      · exact hup

theorem sub_half_le_nearestNat (x : ℚ) : x - 1 / 2 ≤ nearestNat x := by
  have hden : (0 : ℚ) < x.den := by exact_mod_cast x.den_pos
  have hround : (2 * (x.num.toNat : ℚ)) ≤ (2 * (nearestNat x : ℚ) + 1) * x.den := by
    exact_mod_cast two_mul_le_roundToEven x.num.toNat x.den_pos
  have hnum : (x.num : ℚ) ≤ (x.num.toNat : ℚ) := by exact_mod_cast Int.self_le_toNat x.num
  have hx : x * x.den = x.num := Rat.mul_den_eq_num x
  have hle : 2 * x * x.den ≤ (2 * (nearestNat x : ℚ) + 1) * x.den := by
    calc 2 * x * x.den = 2 * (x.num : ℚ) := by rw [mul_assoc, hx]
      _ ≤ 2 * (x.num.toNat : ℚ) := by linarith
      _ ≤ _ := hround
  have := le_of_mul_le_mul_right hle hden
  linarith

/-! ## One sleep -/

theorem Span.min_le_clamp (s low high : Span) :
    min s.nanos high.nanos ≤ (s.clamp low high).nanos := by
  unfold clamp
  split
  · next h =>
    have hless : s.nanos < low.nanos := h
    omega
  · split
    · exact Nat.min_le_right _ _
    · exact Nat.min_le_left _ _

namespace Buckets

/-- A sleep lasts a millisecond, and as long as the tokens need to come in but for half a
nanosecond, or an hour. -/
theorem le_refillDelay (missing refillRate : ℚ) :
    1 / 1000 ≤ (refillDelay missing refillRate).inSeconds ∧
      min (missing / refillRate - 1 / 2000000000) 3600 ≤
        (refillDelay missing refillRate).inSeconds := by
  have hshort : ((1000000 : ℕ) : ℚ) ≤ ((refillDelay missing refillRate).nanos : ℚ) := by
    exact_mod_cast (refillDelay_bounds missing refillRate).1
  have hnear := sub_half_le_nearestNat (missing / refillRate * Span.perSecond)
  have hcut : min (nearestNat (missing / refillRate * Span.perSecond)) 3600000000000 ≤
      (refillDelay missing refillRate).nanos := Span.min_le_clamp _ _ _
  have hcut' : min (nearestNat (missing / refillRate * Span.perSecond) : ℚ) 3600000000000 ≤
      ((refillDelay missing refillRate).nanos : ℚ) := by exact_mod_cast hcut
  have hsecond : ((Span.perSecond : ℕ) : ℚ) = 1000000000 := by norm_num [Span.perSecond]
  rw [Span.inSeconds_eq]
  rw [hsecond] at hnear hcut'
  push_cast at hshort
  refine ⟨by linarith, ?_⟩
  rcases min_le_iff.mp hcut' with h | h
  · exact (min_le_left _ _).trans (by linarith)
  · exact (min_le_right _ _).trans (by linarith)

end Buckets

/-- How many sleeps are enough for tokens that are some seconds away: none if they are there, one
for a millisecond, and else one for every hour and one more. -/
def EnoughSleeps (k : ℕ) (away : ℚ) : Prop :=
  away ≤ 0 ∨ (1 ≤ k ∧ away ≤ 1 / 1000) ∨ (2 ≤ k ∧ away ≤ (k - 1) * 3600)

namespace EnoughSleeps

variable {k : ℕ} {away : ℚ}

theorem ceil (away : ℚ) : EnoughSleeps (⌈away / 3600⌉₊ + 1) away := by
  by_cases h : away ≤ 0
  · exact Or.inl h
  · have hpos : 0 < away / 3600 := by linarith
    have hceil := Nat.ceil_pos.mpr hpos
    have hle := Nat.le_ceil (away / 3600)
    refine Or.inr (Or.inr ⟨by omega, ?_⟩)
    push_cast
    linarith

theorem mono {away' : ℚ} (h : EnoughSleeps k away) (hle : away' ≤ away) : EnoughSleeps k away' := by
  rcases h with hnone | ⟨hk, hone⟩ | ⟨hk, hmore⟩
  · exact Or.inl (hle.trans hnone)
  · exact Or.inr (Or.inl ⟨hk, hle.trans hone⟩)
  · exact Or.inr (Or.inr ⟨hk, hle.trans hmore⟩)

theorem max_zero (h : EnoughSleeps k away) : EnoughSleeps k (max 0 away) := by
  rcases le_total away 0 with hnone | hsome
  · rw [max_eq_left hnone]
    exact Or.inl le_rfl
  · rw [max_eq_right hsome]
    exact h

/-- After a sleep there is one less to come. -/
theorem after_sleep (h : EnoughSleeps k away) (haway : 0 < away) {slept : ℚ}
    (hshort : 1 / 1000 ≤ slept) (hlong : min (away - 1 / 2000000000) 3600 ≤ slept) :
    ∃ k', k = k' + 1 ∧ EnoughSleeps k' (away - slept) := by
  rcases h with hnone | ⟨hk, hone⟩ | ⟨hk, hmore⟩
  · exact absurd haway (not_lt.mpr hnone)
  · exact ⟨k - 1, by omega, Or.inl (by linarith)⟩
  · refine ⟨k - 1, by omega, ?_⟩
    rcases min_le_iff.mp hlong with hnear | hhour
    · -- what rounding left is less than a millisecond away
      exact Or.inr (Or.inl ⟨by omega, by linarith⟩)
    · by_cases hlast : k = 2
      · subst hlast
        refine Or.inl ?_
        push_cast at hmore
        linarith
      · refine Or.inr (Or.inr ⟨by omega, ?_⟩)
        rw [Nat.cast_sub (by omega)]
        push_cast
        linarith

end EnoughSleeps

/-! ## One round -/

theorem Count.cast_le_cast {a c : Count} (h : a ≤ c) : (a.toNat : ℚ) ≤ c.toNat := by
  exact_mod_cast UInt32.le_iff_toNat_le.mp h

/-- At least as much time has gone by as was slept. -/
theorem Span.inSeconds_le_elapsed {s : Span} {now next : Instant} (h : now.plus s ≤ next) :
    s.inSeconds ≤ (elapsed now next).inSeconds := by
  have hnanos : now.nanos + s.nanos ≤ next.nanos := h
  have hle : s.nanos ≤ (elapsed now next).nanos := by
    show s.nanos ≤ (next.nanos - now.nanos).toNat
    omega
  have hle' : (s.nanos : ℚ) ≤ ((elapsed now next).nanos : ℚ) := by exact_mod_cast hle
  rw [Span.inSeconds_eq, Span.inSeconds_eq]
  linarith

theorem Amount.min_le_clamp (x : ℚ) (c : Count) : min x c.toNat ≤ clamp x (ofCount c) := by
  unfold clamp
  split
  · next h => exact (min_le_left _ _).trans (le_of_lt h)
  · split
    · exact min_le_right _ _
    · exact min_le_left _ _

namespace Buckets

variable {b : Buckets ℚ} {key : String} {n : Count} {unheard : Bool} {now next : Instant}

/-- The seconds until a bucket that nobody uses has `n` tokens, negative if it has more. -/
def secondsAway (b : Buckets ℚ) (key : String) (n : Count) (now : Instant) : ℚ :=
  ((n.toNat : ℚ) - (b.found key now).tokens) / b.plan.refillRate

theorem available_lt_iff : b.available key now < n ↔ 0 < b.secondsAway key n now := by
  have hrate := rate_pos b.plan
  have hworth : LawfulAmount.worth (b.found key now).tokens =
      some (.ofRat (b.found key now).tokens) := rfl
  rw [available_eq, ← UInt32.not_le]
  unfold Level.whole secondsAway
  rw [Amount.le_whole_iff hworth Level.tokens_refill_nonneg, not_le, div_pos_iff_of_pos_right hrate,
    sub_pos]

/-- A full bucket has all that a bucket can be asked for. -/
theorem secondsAway_of_none (h : b.levels[key]? = none) (hn : n ≤ b.plan.capacity) :
    b.secondsAway key n now ≤ 0 := by
  have hrate := rate_pos b.plan
  have hcapacity := Count.cast_le_cast hn
  unfold secondsAway
  rw [found_of_none h, Level.refill_full]
  refine div_nonpos_of_nonpos_of_nonneg ?_ hrate.le
  show (n.toNat : ℚ) - b.plan.capacity.toNat ≤ 0
  linarith

/-- A failed attempt only refills the bucket. -/
theorem levels_made_of_lt (hfails : b.available key now < n) (hn : n ≤ b.plan.capacity)
    (hmark : ∀ l, b.levels[key]? = some l → l.refilled ≤ now) :
    (b.made key n now).after.levels[key]? = some ⟨(b.found key now).tokens, now⟩ := by
  cases hl : b.levels[key]? with
  | none =>
    have haway : b.secondsAway key n now ≤ 0 := secondsAway_of_none hl hn
    exact absurd (available_lt_iff.mp hfails) (not_lt.mpr haway)
  | some l =>
    show (b.take key n false now).after.levels[key]? = _
    rw [getElem?_take, if_pos ⟨rfl, Or.inl (by rw [hl]; rfl)⟩, granted_of_lt hfails]
    have hmarked : (b.found key now).refilled = now := by
      rw [found_of_some hl]
      exact Level.refilled_refill_of_le (hmark l hl)
    have htokens : (b.found key now).tokens - Amount.ofCount 0 = (b.found key now).tokens :=
      sub_zero _
    have hleft : b.left key 0 now =
        ⟨(b.found key now).tokens - Amount.ofCount 0, (b.found key now).refilled⟩ := rfl
    rw [hleft, htokens, hmarked]

/-- What is seen of a bucket after a sleep is nearer by the length of the sleep, or there. -/
theorem secondsAway_after_sleep {x : ℚ} {sleep : Span}
    (hl : b.levels[key]? = some ⟨x, now⟩) (hn : n ≤ b.plan.capacity)
    (hslept : now.plus sleep ≤ next) :
    b.secondsAway key n next ≤ max 0 (((n.toNat : ℚ) - x) / b.plan.refillRate - sleep.inSeconds) := by
  have hrate := rate_pos b.plan
  have hcapacity := Count.cast_le_cast hn
  have hfound : min (x + sleep.inSeconds * b.plan.refillRate) b.plan.capacity.toNat ≤
      (b.found key next).tokens := by
    have hincome := mul_le_mul_of_nonneg_right (Span.inSeconds_le_elapsed hslept) hrate.le
    rw [found_of_some hl]
    refine (min_le_min_right _ ?_).trans (Amount.min_le_clamp _ _)
    show _ ≤ x + (elapsed now next).inSeconds * b.plan.refillRate
    linarith
  unfold secondsAway
  rcases min_le_iff.mp hfound with hincome | hfull
  · refine le_max_of_le_right ?_
    rw [div_le_iff₀ hrate, sub_mul, div_mul_cancel₀ _ hrate.ne']
    linarith
  · refine le_max_of_le_left (div_nonpos_of_nonpos_of_nonneg ?_ hrate.le)
    linarith

/-- After a failed attempt and a sleep during which nobody used the key, the tokens are nearer by
the length of the sleep, or there. -/
theorem secondsAway_next (hfails : b.available key now < n) (hn : n ≤ b.plan.capacity)
    (hmark : ∀ l, b.levels[key]? = some l → l.refilled ≤ now) {sleep : Span}
    {others : List (Instant × BucketCall)} (hothers : ∀ e ∈ others, e.2.key? ≠ some key)
    (hslept : now.plus sleep ≤ next) :
    let c := (run step (b.made key n now).after others).1
    (∀ l, c.levels[key]? = some l → l.refilled ≤ next) ∧
      c.secondsAway key n next ≤ max 0 (b.secondsAway key n now - sleep.inSeconds) := by
  intro c
  have hplan : c.plan = b.plan := (plan_run _ others).trans plan_take
  have hmade := levels_made_of_lt hfails hn hmark
  have hlevels := levels_run_of_ne (b.made key n now).after hothers
  rw [hmade] at hlevels
  rcases hlevels with hleft | hnone
  · refine ⟨fun l hl => ?_, ?_⟩
    · obtain rfl := Option.some.inj (hl.symm.trans hleft)
      have hnanos : now.nanos + sleep.nanos ≤ next.nanos := hslept
      show now.nanos ≤ next.nanos
      omega
    · have haway := secondsAway_after_sleep hleft (by rw [hplan]; exact hn) hslept
      rw [hplan] at haway
      exact haway
  · refine ⟨fun l hl => ?_, le_max_of_le_left ?_⟩
    · rw [hl] at hnone
      cases hnone
    · exact secondsAway_of_none hnone (by rw [hplan]; exact hn)

/-! ## All rounds -/

/-- A wait ends after as many sleeps as are enough for its tokens. -/
theorem retry_of_enough {rounds : List Round} {k : ℕ} (hn : n ≤ b.plan.capacity)
    (hmark : ∀ first ∈ rounds.head?, ∀ l, b.levels[key]? = some l → l.refilled ≤ first.now)
    (henough : ∀ first ∈ rounds.head?, EnoughSleeps k (b.secondsAway key n first.now))
    (hothers : ∀ round ∈ rounds, ∀ e ∈ round.others, e.2.key? ≠ some key)
    (hslept : SleptOut rounds (b.retry key n unheard rounds).sleeps) :
    (b.retry key n unheard rounds).sleeps.length ≤ k ∧
      (k < rounds.length → (b.retry key n unheard rounds).ending = .granted) := by
  induction rounds generalizing b unheard k with
  | nil => exact ⟨Nat.zero_le k, fun h => absurd h (Nat.not_lt_zero k)⟩
  | cons round rest ih =>
    by_cases h : n ≤ b.available key round.now
    · rw [retry_of_le h]
      exact ⟨Nat.zero_le k, fun _ => rfl⟩
    · rw [UInt32.not_le] at h
      rw [retry_of_lt h] at hslept ⊢
      obtain ⟨hsleep, hslept⟩ := hslept
      obtain ⟨hround, hothers⟩ := List.forall_mem_cons.mp hothers
      -- the sleep brings the tokens nearer, so one sleep less is enough for the other rounds
      obtain ⟨hshort, hlong⟩ :=
        le_refillDelay ((n.toNat : ℚ) - (b.found key round.now).tokens) b.plan.refillRate
      obtain ⟨k, rfl, hless⟩ :=
        (henough round rfl).after_sleep (available_lt_iff.mp h) hshort hlong
      have hnext := fun next hnext =>
        secondsAway_next h hn (hmark round rfl) hround (hsleep next hnext)
      have hplan : (run step (b.made key n round.now).after round.others).1.plan = b.plan :=
        (plan_run _ round.others).trans plan_take
      obtain ⟨hlength, hending⟩ := ih (by rw [hplan]; exact hn) (fun next h => (hnext next h).1)
        (fun next h => (hless.max_zero).mono (hnext next h).2) hothers hslept
      exact ⟨Nat.succ_le_succ hlength, fun hmore => hending (Nat.lt_of_succ_lt_succ hmore)⟩

end Buckets

theorem Span.ceilMillis_le {s : Span} (h : s ≤ Buckets.longestSleep) : s.ceilMillis ≤ 3600000 := by
  have hnanos : s.nanos ≤ 3600000000000 := h
  unfold ceilMillis
  omega

/-- A wait on a timeline gets its tokens if it is allowed an hour for each sleep it may need. -/
theorem Wait.granted_of_long_timeout {w w' : Wait ℚ} {key : String} {n : Count} {timeout : Nat}
    {ending : WaitEnd} {now : Instant} (h : start key n timeout w = .ok (w', ending))
    (hn : n ≤ w.buckets.buckets.plan.capacity) (hnow : w.timeline.reading = .ok now)
    (hmark : ∀ l, w.buckets.buckets.levels[key]? = some l → l.refilled ≤ now)
    (htimeout : (⌈w.buckets.buckets.secondsAway key n now / 3600⌉₊ + 1) * 3600000 ≤ timeout) :
    ending = .granted := by
  unfold start at h
  rw [if_neg (UInt32.not_lt.mpr hn)] at h
  obtain ⟨first, rest, hfirst, hsweeps, hslept, hending, htime, _⟩ := exists_rounds h true
  obtain rfl : first.now = now := Except.ok.inj (hfirst.symm.trans hnow)
  have hothers : ∀ round ∈ first :: rest, ∀ e ∈ round.others, e.2.key? ≠ some key := by
    intro round hround e he
    obtain ⟨readings, hreadings⟩ := hsweeps round hround
    rw [hreadings] at he
    obtain ⟨t, _, rfl⟩ := List.mem_map.mp he
    exact nofun
  obtain ⟨hlength, _⟩ := Buckets.retry_of_enough hn
    (fun r hr => by obtain rfl := Option.some.inj hr; exact hmark)
    (fun r hr => by obtain rfl := Option.some.inj hr; exact EnoughSleeps.ceil _) hothers hslept
  -- all sleeps together last no longer than an hour each
  have hsum : ((w.buckets.buckets.retry key n true (first :: rest)).sleeps.map
      Span.ceilMillis).sum ≤
        (w.buckets.buckets.retry key n true (first :: rest)).sleeps.length * 3600000 := by
    rw [← smul_eq_mul, ← List.length_map Span.ceilMillis]
    apply List.sum_le_card_nsmul
    intro s hs
    obtain ⟨sleep, hsleep, rfl⟩ := List.mem_map.mp hs
    exact Span.ceilMillis_le (Buckets.sleeps_retry _ _ _ _ _ sleep hsleep).2
  rcases Buckets.ending_retry w.buckets.buckets key n true (first :: rest) with
    ⟨hgranted, _⟩ | ⟨hup, _⟩
  · exact hending.symm.trans hgranted
  · have hmore := htime (hending.symm.trans hup)
    have hbound := Nat.mul_le_mul_right 3600000 hlength
    omega

/-- **A wait ends.** Token amounts are exact, and whatever the capacity, the refill rate and the
level of the key, as long as its mark is not after the first reading.  If no bucket is asked for
more than it can hold, nobody else uses the key, and every sleep is slept out, then a wait for
tokens that are `T` seconds away at the first attempt answers `n` after `⌈T / 3600⌉ + 1` sleeps at
most, and without any if they are there. -/
theorem waiting_ends {b : Buckets ℚ} {key : String} {n : Count} {first : Round}
    {rest : List Round} (hn : n ≤ b.plan.capacity)
    (hmark : ∀ l, b.levels[key]? = some l → l.refilled ≤ first.now)
    (hothers : ∀ round ∈ first :: rest, ∀ e ∈ round.others, e.2.key? ≠ some key)
    (hslept : SleptOut (first :: rest) (b.wait key n (first :: rest)).sleeps) :
    let available := (b.take key n false first.now).answer.found
    let T := ((n.toNat : ℚ) - available) / b.plan.refillRate
    let w := b.wait key n (first :: rest)
    let answer := w.ending.outcome n b.plan.capacity
    (⌈T / 3600⌉₊ + 1 < (first :: rest).length → answer = some (.ok n)) ∧
      w.sleeps.length ≤ ⌈T / 3600⌉₊ + 1 ∧ w.attempts.length ≤ ⌈T / 3600⌉₊ + 2 ∧
      (T ≤ 0 → answer = some (.ok n) ∧ w.sleeps = []) := by
  intro available T w answer
  have hw : w = b.retry key n true (first :: rest) := Buckets.wait_of_within hn _
  have hT : b.secondsAway key n first.now = T := by
    show _ = ((n.toNat : ℚ) - (b.take key n false first.now).answer.found) / b.plan.refillRate
    rw [Buckets.answer_take]
    rfl
  have hanswer : w.ending = .granted → answer = some (.ok n) := by
    intro hgranted
    show w.ending.outcome n b.plan.capacity = _
    rw [hgranted]
    rfl
  have hslept : SleptOut (first :: rest) (b.retry key n true (first :: rest)).sleeps := by
    rw [← hw]
    exact hslept
  have hends : ∀ k, EnoughSleeps k T → w.sleeps.length ≤ k ∧
      (k < (first :: rest).length → w.ending = .granted) := by
    intro k henough
    rw [← hT] at henough
    rw [hw]
    exact Buckets.retry_of_enough hn (fun r hr => by obtain rfl := Option.some.inj hr; exact hmark)
      (fun r hr => by obtain rfl := Option.some.inj hr; exact henough) hothers hslept
  obtain ⟨hsleeps, hgranted⟩ := hends _ (EnoughSleeps.ceil T)
  refine ⟨fun hmore => hanswer (hgranted hmore), hsleeps, ?_, fun hthere => ?_⟩
  · have hattempts := Buckets.length_attempts_retry b key n true (first :: rest)
    rw [← hw] at hattempts
    exact hattempts.trans (Nat.succ_le_succ hsleeps)
  · obtain ⟨hnone, hgranted⟩ := hends 0 (Or.inl hthere)
    exact ⟨hanswer (hgranted (Nat.succ_pos _)), List.length_eq_zero_iff.mp (Nat.le_zero.mp hnone)⟩

/-- An empty bucket for seven tokens, and six of them in `13999` seconds. -/
def slowest : Buckets ℚ :=
  .restore ⟨7, 6 / 13999, none, by decide, decide_eq_true (by norm_num)⟩ [("edge", ⟨0, ⟨0⟩⟩)]

/-- The caller sleeps as long as it is told to, while others use another key. -/
def hoursAndAMilli : List Round :=
  [⟨⟨0⟩, [(⟨1000000000⟩, .request "core" 1 true), (⟨2000000000⟩, .sweep true)]⟩,
    ⟨⟨3600000000000⟩, []⟩, ⟨⟨4666333333333⟩, []⟩, ⟨⟨4666334333333⟩, []⟩]

/-- Two tokens are an hour and more away.  The second sleep is rounded down, a third of a nanosecond
short of the goal, so there is a third one. -/
theorem waiting_ends_roundedDown :
    let w := slowest.wait "edge" 2 hoursAndAMilli
    2 ≤ slowest.plan.capacity ∧
      (∀ l, slowest.levels["edge"]? = some l → l.refilled ≤ ⟨0⟩) ∧
      (∀ round ∈ hoursAndAMilli, ∀ e ∈ round.others, e.2.key? ≠ some "edge") ∧
      SleptOut hoursAndAMilli w.sleeps ∧
      w.sleeps = [.seconds 3600, ⟨1066333333333⟩, .millis 1] ∧
      w.ending.outcome 2 slowest.plan.capacity = some (.ok 2) := by
  intro w
  have hn : 2 ≤ slowest.plan.capacity := by decide
  have hmark : ∀ l, slowest.levels["edge"]? = some l → l.refilled ≤ ⟨0⟩ := by
    have hstored : slowest.levels["edge"]? = some ⟨0, ⟨0⟩⟩ := rfl
    intro l hl
    rw [hstored] at hl
    obtain rfl := Option.some.inj hl
    exact Int.le_refl 0
  have hothers : ∀ round ∈ hoursAndAMilli, ∀ e ∈ round.others, e.2.key? ≠ some "edge" := by decide
  have hsleeps : w.sleeps = [.seconds 3600, ⟨1066333333333⟩, .millis 1] := by decide +kernel
  have hslept : SleptOut hoursAndAMilli w.sleeps := by
    rw [hsleeps]
    refine ⟨?_, ?_, ?_, trivial⟩
    · rintro _ ⟨⟩
      decide
    · rintro _ ⟨⟩
      decide
    · rintro _ ⟨⟩
      decide
  have hrate : slowest.plan.refillRate = 6 / 13999 := rfl
  have hfound : (slowest.take "edge" 2 false ⟨0⟩).answer.found = 0 := by decide +kernel
  have hceil : ⌈(((2 : ℕ) : ℚ) - 0) / (6 / 13999) / 3600⌉₊ = 2 := by
    rw [Nat.ceil_eq_iff (by decide)]
    norm_num
  obtain ⟨hanswer, -, -, -⟩ := waiting_ends hn hmark hothers hslept
  rw [hfound, hrate] at hanswer
  refine ⟨hn, hmark, hothers, hslept, hsleeps, hanswer ?_⟩
  show ⌈(((2 : ℕ) : ℚ) - 0) / (6 / 13999) / 3600⌉₊ + 1 < 4
  rw [hceil]
  decide

end Admission
