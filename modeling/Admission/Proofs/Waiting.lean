import Admission.Bucket.Waiting
import Admission.Fault
import Admission.Proofs.Restoring
import Admission.Proofs.Traversal

/-!
# What a wait takes

While a caller waits for tokens others use the same buckets.  A wait is described by its rounds: the
reading of each attempt, and what others do during the sleep after it.  There are as many rounds as
the caller has patience for, so a wait that runs out of them was given up during a sleep.

* `Buckets.linked_retry` — each attempt finds what others have left of the buckets since the one
  before it.
* `Buckets.ending_retry` — only the attempt that succeeds takes tokens, and how the buckets are
  left.
* `Buckets.sleeps_retry`, `Buckets.told_retry` — how long the sleeps are, and when the caller is
  told to wait.
* `Wait.exists_rounds`, `Wait.exists_rounds_start` — a wait on a timeline is one of these, with
  rounds in which others only sweep.
* `waiting_takes_once` — a wait takes all its tokens in one attempt or none at all.
-/

namespace Admission

open Amount LawfulAmount

/-- A stretch of a wait: the reading of an attempt, and what others do during the sleep after it,
should it fail. -/
structure Round where
  now : Instant
  others : List (Instant × BucketCall)
deriving DecidableEq

/-- An attempt of a wait: its reading, and the buckets before and after it. -/
structure Attempt (α : Type) [Amount α] where
  now : Instant
  before : Buckets α
  after : Buckets α

/-- All that happened during a wait. -/
structure Waited (α : Type) [Amount α] where
  buckets : Buckets α
  attempts : List (Attempt α)
  sleeps : List Span
  /-- How often the caller was told to wait. -/
  told : Nat
  ending : WaitEnd

/-- What the caller of a wait for `n` tokens is answered, unless the wait was given up. -/
def WaitEnd.outcome (n capacity : Count) : WaitEnd → Option (Except Fault Count)
  | granted => some (.ok n)
  | timedOut => none
  | beyondCapacity => some (.error (.argument (.beyondCapacity n capacity)))

variable {α : Type} [Amount α]

/-- An attempt takes `m` tokens of a key: whole tokens are missing afterwards, and nothing else. -/
structure Attempt.Takes [LawfulAmount α] (key : String) (m : Count) (a : Attempt α) : Prop where
  whole : (a.after.available key a.now).toNat + m.toNat = (a.before.available key a.now).toNat
  /-- The fraction that was found is still there. -/
  fraction (p : ℚ) : worth (a.before.found key a.now).tokens = some (.ofRat p) →
    worth (a.after.found key a.now).tokens = some (.ofRat (p - m.toNat))
  others : ∀ k ≠ key, a.after.levels[k]? = a.before.levels[k]?
  plan : a.after.plan = a.before.plan

/-- An attempt at `n` tokens of a key fails: there are fewer, and it takes none. -/
def Attempt.Fails [LawfulAmount α] (key : String) (n : Count) (a : Attempt α) : Prop :=
  a.before.available key a.now < n ∧ a.Takes key 0

/-- Attempts made one after another in rounds, the first of them on buckets `b`: each is made at the
reading of its round, and the next finds what others make of the buckets that it leaves. -/
inductive Linked : Buckets α → List Round → List (Attempt α) → Prop where
  | done (b : Buckets α) (rounds : List Round) : Linked b rounds []
  | next {b : Buckets α} {round : Round} {rest : List Round} {a : Attempt α}
      {later : List (Attempt α)} (hnow : a.now = round.now) (hbefore : a.before = b)
      (h : Linked (run Buckets.step a.after round.others).1 rest later) :
      Linked b (round :: rest) (a :: later)

/-- The buckets after attempts in as many rounds, and after what others do in the last of them;
without any round, the buckets that there were. -/
def leftAfter (b : Buckets α) (rounds : List Round) (attempts : List (Attempt α)) : Buckets α :=
  match rounds.getLast?, attempts.getLast? with
  | some round, some last => (run Buckets.step last.after round.others).1
  | _, _ => b

/-- What is left after all rounds is what is left after those that follow the first. -/
theorem leftAfter_cons {b : Buckets α} {a : Attempt α} {attempts : List (Attempt α)}
    {round : Round} {rest : List Round} (h : attempts.length = rest.length) :
    leftAfter b (round :: rest) (a :: attempts) =
      leftAfter (run Buckets.step a.after round.others).1 rest attempts := by
  unfold leftAfter
  cases rest with
  | nil =>
    obtain rfl := List.length_eq_zero_iff.mp h
    rfl
  | cons round' rest =>
    cases attempts with
    | nil => cases h
    | cons a' attempts => simp only [List.getLast?_cons, Option.getD_some]

namespace Buckets

/-- The attempt of a waiting caller at a reading. -/
def made (b : Buckets α) (key : String) (n : Count) (now : Instant) : Attempt α :=
  ⟨now, b, (b.attempt key n now).after⟩

/-- Tries and sleeps as long as there are rounds.  The caller is told to wait after the first
failure, as long as it has not heard of one. -/
def retry (key : String) (n : Count) : (unheard : Bool) → Buckets α → List Round → Waited α
  | _, b, [] => ⟨b, [], [], 0, .timedOut⟩
  | unheard, b, round :: rest =>
    let made := b.made key n round.now
    match (b.attempt key n round.now).answer with
    | none => ⟨made.after, [made], [], 0, .granted⟩
    | some delay =>
      let later := retry key n false (run step made.after round.others).1 rest
      { later with
        attempts := made :: later.attempts
        sleeps := delay :: later.sleeps
        told := unheard.toNat + later.told }

/-- Waits for `n` tokens of a key during some rounds.  Nothing happens if no bucket can hold as
many. -/
def wait (b : Buckets α) (key : String) (n : Count) (rounds : List Round) : Waited α :=
  if b.plan.capacity < n then ⟨b, [], [], 0, .beyondCapacity⟩ else b.retry key n true rounds

theorem wait_of_beyond {b : Buckets α} {key : String} {n : Count} (h : b.plan.capacity < n)
    (rounds : List Round) : b.wait key n rounds = ⟨b, [], [], 0, .beyondCapacity⟩ := if_pos h

theorem wait_of_within {b : Buckets α} {key : String} {n : Count} (h : n ≤ b.plan.capacity)
    (rounds : List Round) : b.wait key n rounds = b.retry key n true rounds :=
  if_neg (UInt32.not_lt.mpr h)

section Rounds

variable {b : Buckets α} {key : String} {n : Count} {unheard : Bool} {now : Instant}
  {others : List (Instant × BucketCall)} {rest : List Round}

theorem retry_of_none (h : (b.attempt key n now).answer = none) :
    b.retry key n unheard (⟨now, others⟩ :: rest) =
      ⟨(b.made key n now).after, [b.made key n now], [], 0, .granted⟩ := by
  unfold retry
  dsimp only
  rw [h]

theorem retry_of_some {delay : Span} (h : (b.attempt key n now).answer = some delay) :
    let made := b.made key n now
    let later := retry key n false (run step made.after others).1 rest
    b.retry key n unheard (⟨now, others⟩ :: rest) =
      ⟨later.buckets, made :: later.attempts, delay :: later.sleeps,
        unheard.toNat + later.told, later.ending⟩ := by
  intro made later
  rw [retry, h]

end Rounds

theorem refillDelay_bounds (missing refillRate : α) :
    shortestSleep ≤ refillDelay missing refillRate ∧
      refillDelay missing refillRate ≤ longestSleep := by
  have hle : shortestSleep ≤ longestSleep := by decide
  unfold refillDelay Span.clamp
  split
  · exact ⟨Nat.le_refl _, hle⟩
  · next hlow =>
    split
    · exact ⟨hle, Nat.le_refl _⟩
    · next hhigh => exact ⟨Nat.not_lt.mp hlow, Nat.not_lt.mp hhigh⟩

variable [LawfulAmount α] {b : Buckets α} {key : String} {n : Count} {unheard : Bool}
  {round : Round} {rest : List Round} {now : Instant}

/-! ## One attempt -/

theorem granted_eq_iff : b.granted key n false now = n ↔ n ≤ b.available key now := by
  rw [granted_eq_grantable, grantable]
  split
  · next hle => exact iff_of_true rfl hle
  · next hless =>
    refine iff_of_false (fun h => hless ?_) hless
    -- nothing is what it wants then
    obtain rfl : 0 = n := h
    exact UInt32.zero_le

theorem granted_of_lt (h : b.available key now < n) : b.granted key n false now = 0 := by
  rw [granted_eq_grantable, grantable, if_neg (UInt32.not_le.mpr h), if_neg Bool.false_ne_true]

/-- An attempt fails if the bucket shows fewer tokens than it wants. -/
theorem answer_attempt (b : Buckets α) (key : String) (n : Count) (now : Instant) :
    (b.attempt key n now).answer =
      if n ≤ b.available key now then none
      else some (refillDelay (ofCount n - (b.found key now).tokens) b.plan.refillRate) := by
  unfold attempt
  dsimp only
  rw [answer_take]
  simp only [granted_eq_iff]

/-- A request takes what it is granted. -/
theorem takes_take (b : Buckets α) (key : String) (n : Count) (partly : Bool) (now : Instant) :
    (⟨now, b, (b.take key n partly now).after⟩ : Attempt α).Takes key
      (b.granted key n partly now) := by
  refine ⟨available_take_add_granted b key n partly now, ?_, ?_, plan_take⟩
  · intro p hp
    show worth ((b.take key n partly now).after.found key now).tokens = _
    rw [worth_found_take]
    rcases b.worth_left key n partly now with ⟨hnone, _⟩ | ⟨q, hq, _, _, hleft⟩
    · rw [hp] at hnone
      cases hnone
    · obtain rfl := Extent.ofRat_inj.mp (Option.some.inj (hq.symm.trans hp))
      exact hleft
  · intro k hk
    show (b.take key n partly now).after.levels[k]? = _
    rw [getElem?_take, if_neg fun h => hk h.1]

theorem takes_made_of_le (h : n ≤ b.available key now) : (b.made key n now).Takes key n := by
  have htakes := takes_take b key n false now
  rw [granted_eq_iff.mpr h] at htakes
  exact htakes

theorem takes_made_of_lt (h : b.available key now < n) : (b.made key n now).Takes key 0 := by
  have htakes := takes_take b key n false now
  rw [granted_of_lt h] at htakes
  exact htakes

/-! ## All rounds -/

/-- With enough tokens the wait is over. -/
theorem retry_of_le (h : n ≤ b.available key round.now) :
    b.retry key n unheard (round :: rest) =
      ⟨(b.made key n round.now).after, [b.made key n round.now], [], 0, .granted⟩ :=
  retry_of_none (by rw [answer_attempt, if_pos h])

/-- With too few tokens the caller sleeps, others do what they do, and it goes on from there. -/
theorem retry_of_lt (h : b.available key round.now < n) :
    let made := b.made key n round.now
    let later := retry key n false (run step made.after round.others).1 rest
    b.retry key n unheard (round :: rest) =
      ⟨later.buckets, made :: later.attempts,
        refillDelay (ofCount n - (b.found key round.now).tokens) b.plan.refillRate :: later.sleeps,
        unheard.toNat + later.told, later.ending⟩ :=
  retry_of_some (by rw [answer_attempt, if_neg (UInt32.not_le.mpr h)])

theorem linked_retry (b : Buckets α) (key : String) (n : Count) (unheard : Bool)
    (rounds : List Round) : Linked b rounds (b.retry key n unheard rounds).attempts := by
  induction rounds generalizing b unheard with
  | nil => exact .done b []
  | cons round rest ih =>
    by_cases h : n ≤ b.available key round.now
    · rw [retry_of_le h]
      exact .next rfl rfl (.done _ rest)
    · rw [retry_of_lt (UInt32.not_le.mp h)]
      exact .next rfl rfl (ih _ _)

/-- There is a sleep after every attempt that fails.  Only the attempt that ends a wait takes
tokens, and only if it succeeds; the buckets then stay as it left them. -/
theorem ending_retry (b : Buckets α) (key : String) (n : Count) (unheard : Bool)
    (rounds : List Round) :
    let w := b.retry key n unheard rounds
    (w.ending = .granted ∧ ∃ failed last, w.attempts = failed ++ [last] ∧
      failed.length = w.sleeps.length ∧ (∀ a ∈ failed, a.Fails key n) ∧ last.Takes key n ∧
      w.buckets = last.after) ∨
    (w.ending = .timedOut ∧ w.attempts.length = rounds.length ∧
      w.attempts.length = w.sleeps.length ∧ (∀ a ∈ w.attempts, a.Fails key n) ∧
      w.buckets = leftAfter b rounds w.attempts) := by
  induction rounds generalizing b unheard with
  | nil => exact Or.inr ⟨rfl, rfl, rfl, fun a ha => absurd ha List.not_mem_nil, rfl⟩
  | cons round rest ih =>
    by_cases h : n ≤ b.available key round.now
    · rw [retry_of_le h]
      exact Or.inl ⟨rfl, [], _, rfl, rfl, fun a ha => absurd ha List.not_mem_nil,
        takes_made_of_le h, rfl⟩
    · rw [UInt32.not_le] at h
      have hfirst : (b.made key n round.now).Fails key n := ⟨h, takes_made_of_lt h⟩
      rw [retry_of_lt h]
      rcases ih (run step (b.made key n round.now).after round.others).1 false with
        ⟨hending, failed, last, hattempts, hsleeps, hfailed, hlast, hbuckets⟩ |
        ⟨hending, hrounds, hsleeps, hfailed, hbuckets⟩
      · refine Or.inl ⟨hending, b.made key n round.now :: failed, last, ?_, ?_, ?_, hlast, hbuckets⟩
        · exact congrArg (List.cons _) hattempts
        · exact congrArg Nat.succ hsleeps
        · exact List.forall_mem_cons.mpr ⟨hfirst, hfailed⟩
      · refine Or.inr ⟨hending, congrArg Nat.succ hrounds, congrArg Nat.succ hsleeps,
          List.forall_mem_cons.mpr ⟨hfirst, hfailed⟩, ?_⟩
        exact hbuckets.trans (leftAfter_cons hrounds).symm

theorem sleeps_retry (b : Buckets α) (key : String) (n : Count) (unheard : Bool)
    (rounds : List Round) :
    ∀ s ∈ (b.retry key n unheard rounds).sleeps, shortestSleep ≤ s ∧ s ≤ longestSleep := by
  induction rounds generalizing b unheard with
  | nil => exact fun s hs => absurd hs List.not_mem_nil
  | cons round rest ih =>
    by_cases h : n ≤ b.available key round.now
    · rw [retry_of_le h]
      exact fun s hs => absurd hs List.not_mem_nil
    · rw [retry_of_lt (UInt32.not_le.mp h)]
      exact List.forall_mem_cons.mpr ⟨refillDelay_bounds _ _, ih _ _⟩

/-- There is an attempt before every sleep, and at most one after the last. -/
theorem length_attempts_retry (b : Buckets α) (key : String) (n : Count) (unheard : Bool)
    (rounds : List Round) :
    (b.retry key n unheard rounds).attempts.length ≤
      (b.retry key n unheard rounds).sleeps.length + 1 := by
  rcases b.ending_retry key n unheard rounds with
    ⟨_, failed, last, hattempts, hsleeps, _⟩ | ⟨_, _, hsleeps, _⟩
  · rw [hattempts, List.length_append, hsleeps]
    exact Nat.le_refl _
  · rw [hsleeps]
    exact Nat.le_succ _

/-- A caller that sleeps is told once, unless it has heard of a failure. -/
theorem told_retry (b : Buckets α) (key : String) (n : Count) (unheard : Bool)
    (rounds : List Round) :
    (b.retry key n unheard rounds).told =
      if (b.retry key n unheard rounds).sleeps = [] then 0 else unheard.toNat := by
  induction rounds generalizing b unheard with
  | nil => rfl
  | cons round rest ih =>
    by_cases h : n ≤ b.available key round.now
    · rw [retry_of_le h]
      rfl
    · rw [retry_of_lt (UInt32.not_le.mp h), if_neg (List.cons_ne_nil _ _)]
      -- whatever follows, the caller has heard of this failure
      have hlater := ih (run step (b.made key n round.now).after round.others).1 false
      rw [Bool.toNat_false, ite_self] at hlater
      exact congrArg (unheard.toNat + ·) hlater

/-- There is a sleep if the first attempt fails. -/
theorem sleeps_retry_ne_nil_iff (b : Buckets α) (key : String) (n : Count) (unheard : Bool)
    (rounds : List Round) :
    (b.retry key n unheard rounds).sleeps ≠ [] ↔
      ∃ first ∈ rounds.head?, b.available key first.now < n := by
  cases rounds with
  | nil => exact iff_of_false (fun h => h rfl) (by simp)
  | cons round rest =>
    by_cases h : n ≤ b.available key round.now
    · rw [retry_of_le h]
      exact iff_of_false (fun h => h rfl) (by simpa using h)
    · rw [UInt32.not_le] at h
      rw [retry_of_lt h]
      exact iff_of_true (List.cons_ne_nil _ _) ⟨round, rfl, h⟩

end Buckets

/-! ## A wait on a timeline -/

/-- No attempt is made before the sleep in front of it was slept out. -/
def SleptOut : List Round → List Span → Prop
  | round :: rest, sleep :: sleeps =>
    (∀ next ∈ rest.head?, round.now.plus sleep ≤ next.now) ∧ SleptOut rest sleeps
  | _, _ => True

/-- Sweeps that fall due at some readings. -/
def sweeps (readings : List Instant) : List (Instant × BucketCall) :=
  readings.map fun now => (now, .sweep false)

namespace Wait

theorem buckets_sweepAt (w : Wait α) (readings : List Instant) :
    (w.sweepAt readings).buckets.buckets =
      (Admission.run Buckets.step w.buckets.buckets (sweeps readings)).1 := by
  show (readings.foldl (fun b now => (b.after (b.buckets.sweep false now)).1) w.buckets).buckets = _
  induction readings generalizing w with
  | nil => rfl
  | cons now rest ih =>
    exact ih { w with buckets := (w.buckets.after (w.buckets.buckets.sweep false now)).1 }

/-- During a sleep nothing happens but sweeps. -/
theorem of_sleepUntil {w w' : Wait α} {target : Nat} (h : w.sleepUntil target = .ok w') :
    w'.timeline.clock = w.timeline.clock ∧ w'.timeline.slept = target ∧ w'.told = w.told ∧
      ∃ readings : List Instant, w'.buckets.buckets =
        (Admission.run Buckets.step w.buckets.buckets (sweeps readings)).1 := by
  obtain ⟨⟨readings, timeline⟩, hslept, hend⟩ := bind_eq_ok_iff.mp h
  obtain rfl := Except.ok.inj hend
  unfold Timeline.sleepUntil at hslept
  have htimeline : timeline.clock = w.timeline.clock ∧ timeline.slept = target := by
    split at hslept
    · cases hslept
      exact ⟨rfl, rfl⟩
    · obtain ⟨_, _, hlater⟩ := bind_eq_ok_iff.mp hslept
      cases hlater
      exact ⟨rfl, rfl⟩
  exact ⟨htimeline.1, htimeline.2, rfl, readings, buckets_sweepAt w readings⟩

theorem eq_of_reading {t : Timeline} {now : Instant} (h : t.reading = .ok now) :
    now = t.clock.plus (.millis t.slept) := by
  unfold Timeline.reading at h
  dsimp only at h
  split at h
  · exact (Except.ok.inj h).symm
  · cases h

/-- A wait after a failed attempt, of which the caller is told. -/
def tried (w : Wait α) (key : String) (n : Count) (now : Instant) : Wait α :=
  { w with buckets := (w.buckets.after (w.buckets.buckets.attempt key n now)).1, told := 1 }

/-- A wait succeeds at once, or sleeps and goes on, or sleeps until its time is up. -/
theorem run_cases {key : String} {n : Count} {left : Nat} {w w' : Wait α} {ending : WaitEnd}
    (h : run key n left w = .ok (w', ending)) :
    ∃ now, w.timeline.reading = .ok now ∧
      (((w.buckets.buckets.attempt key n now).answer = none ∧
          w'.buckets.buckets = (w.buckets.buckets.attempt key n now).after ∧ w'.told = w.told ∧
          ending = .granted) ∨
        ∃ delay awake, (w.buckets.buckets.attempt key n now).answer = some delay ∧
          ((delay.ceilMillis ≤ left ∧
              (w.tried key n now).sleepUntil (w.timeline.slept + delay.ceilMillis) = .ok awake ∧
              run key n (left - delay.ceilMillis) awake = .ok (w', ending)) ∨
            left < delay.ceilMillis ∧
              (w.tried key n now).sleepUntil (w.timeline.slept + left) = .ok awake ∧
              w' = awake ∧ ending = .timedOut)) := by
  rw [run] at h
  obtain ⟨now, hnow, h⟩ := bind_eq_ok_iff.mp h
  dsimp only at h
  refine ⟨now, hnow, ?_⟩
  split at h
  · next hanswer =>
    obtain ⟨rfl, rfl⟩ := Prod.mk.inj (Except.ok.inj h)
    exact Or.inl ⟨hanswer, rfl, rfl, rfl⟩
  · next delay hanswer =>
    split at h
    · next hpause =>
      obtain ⟨awake, hawake, h⟩ := bind_eq_ok_iff.mp h
      exact Or.inr ⟨delay, awake, hanswer, Or.inl ⟨hpause, hawake, h⟩⟩
    · next hpause =>
      obtain ⟨awake, hawake, h⟩ := bind_eq_ok_iff.mp h
      obtain ⟨rfl, rfl⟩ := Prod.mk.inj (Except.ok.inj h)
      exact Or.inr ⟨delay, _, hanswer, Or.inr ⟨Nat.not_le.mp hpause, hawake, rfl, rfl⟩⟩

/-- A reading after a sleep is not before its end. -/
theorem plus_le_of_slept {t t' : Timeline} {now next : Instant} {delay : Span}
    (hnow : t.reading = .ok now) (hnext : t'.reading = .ok next) (hclock : t'.clock = t.clock)
    (hslept : t'.slept = t.slept + delay.ceilMillis) : now.plus delay ≤ next := by
  rw [eq_of_reading hnow, eq_of_reading hnext, hclock, hslept]
  show t.clock.nanos + ((t.slept * 1000000 : ℕ) : ℤ) + (delay.nanos : ℤ) ≤
    t.clock.nanos + (((t.slept + delay.ceilMillis) * 1000000 : ℕ) : ℤ)
  unfold Span.ceilMillis
  omega

/-- A wait goes through rounds in which others only sweep, and sleeps each of them out.  Nobody is
told anything but that the first attempt failed, and the time is up only if the sleeps take
longer. -/
theorem exists_rounds {key : String} {n : Count} {left : Nat} {w w' : Wait α} {ending : WaitEnd}
    (h : run key n left w = .ok (w', ending)) (unheard : Bool) :
    ∃ first rest, w.timeline.reading = .ok first.now ∧
      (∀ round ∈ first :: rest, ∃ readings, round.others = sweeps readings) ∧
      let waited := w.buckets.buckets.retry key n unheard (first :: rest)
      SleptOut (first :: rest) waited.sleeps ∧ waited.ending = ending ∧
        (ending = .timedOut → left < (waited.sleeps.map Span.ceilMillis).sum) ∧
        waited.buckets = w'.buckets.buckets ∧
        w'.told = if waited.sleeps = [] then w.told else 1 := by
  induction left using Nat.strong_induction_on generalizing w unheard with
  | _ left ih =>
    -- the last round, in which there is no next attempt
    have hlast : ∀ (now : Instant) (readings : List Instant),
        ∀ round ∈ [(⟨now, sweeps readings⟩ : Round)],
          ∃ readings, round.others = sweeps readings := by
      intro now readings round hround
      obtain rfl := List.mem_singleton.mp hround
      exact ⟨readings, rfl⟩
    obtain ⟨now, hnow, ⟨hanswer, hbuckets, htold, rfl⟩ | ⟨delay, awake, hanswer, hsleep⟩⟩ :=
      run_cases h
    · refine ⟨⟨now, sweeps []⟩, [], hnow, hlast now [], ?_⟩
      rw [Buckets.retry_of_none hanswer]
      exact ⟨trivial, rfl, nofun, hbuckets.symm, htold⟩
    · rcases hsleep with ⟨hpause, hawake, hlater⟩ | ⟨hpause, hawake, rfl, rfl⟩
      · obtain ⟨hclock, hslept, htold, readings, hbuckets⟩ := of_sleepUntil hawake
        have hless : left - delay.ceilMillis < left := by
          have := Buckets.one_le_ceilMillis_attempt hanswer
          omega
        obtain ⟨next, rest, hnext, hrest, hsleeps, hending, htime, hend, htold'⟩ :=
          ih _ hless hlater false
        rw [hbuckets] at hsleeps hending htime hend htold'
        refine ⟨⟨now, sweeps readings⟩, next :: rest, hnow,
          List.forall_mem_cons.mpr ⟨⟨readings, rfl⟩, hrest⟩, ?_⟩
        rw [Buckets.retry_of_some hanswer]
        refine ⟨⟨?_, hsleeps⟩, hending, fun hup => ?_, hend, ?_⟩
        · rintro _ ⟨⟩
          exact plus_le_of_slept hnow hnext hclock hslept
        · rw [List.map_cons, List.sum_cons]
          exact (Nat.sub_lt_iff_lt_add' hpause).mp (htime hup)
        · have hone : awake.told = 1 := htold
          rw [hone, ite_self] at htold'
          rw [if_neg (List.cons_ne_nil _ _)]
          exact htold'
      · obtain ⟨hclock, hslept, htold, readings, hbuckets⟩ := of_sleepUntil hawake
        refine ⟨⟨now, sweeps readings⟩, [], hnow, hlast now readings, ?_⟩
        rw [Buckets.retry_of_some hanswer]
        refine ⟨⟨nofun, trivial⟩, rfl, fun _ => ?_, hbuckets.symm, htold⟩
        rw [List.map_cons, List.sum_cons]
        exact Nat.lt_add_right _ hpause

variable [LawfulAmount α]

/-- All that a wait with a timeout does is what `Buckets.wait` says, with rounds in which others
only sweep and every sleep is slept out. -/
theorem exists_rounds_start {key : String} {n : Count} {timeout : Nat} {w w' : Wait α}
    {ending : WaitEnd} (h : start key n timeout w = .ok (w', ending)) (htold : w.told = 0) :
    ∃ rounds, (∀ round ∈ rounds, ∃ readings, round.others = sweeps readings) ∧
      let waited := w.buckets.buckets.wait key n rounds
      SleptOut rounds waited.sleeps ∧ waited.ending = ending ∧
        waited.buckets = w'.buckets.buckets ∧ waited.told = w'.told := by
  unfold start at h
  split at h
  · next hbeyond =>
    obtain ⟨rfl, rfl⟩ := Prod.mk.inj (Except.ok.inj h)
    refine ⟨[], fun round hround => absurd hround List.not_mem_nil, ?_⟩
    rw [Buckets.wait_of_beyond hbeyond]
    exact ⟨trivial, rfl, rfl, htold.symm⟩
  · next hwithin =>
    obtain ⟨first, rest, _, hothers, hsleeps, hending, _, hend, htold'⟩ := exists_rounds h true
    refine ⟨first :: rest, hothers, ?_⟩
    rw [Buckets.wait_of_within (UInt32.not_lt.mp hwithin)]
    refine ⟨hsleeps, hending, hend, ?_⟩
    rw [Buckets.told_retry, htold', htold]
    rfl

end Wait

/-- **A wait takes all its tokens at once or none.** Whatever the buckets hold, at whatever readings
the attempts are made, and whatever others do with the buckets between them: a wait for more tokens
than a bucket can hold is refused as a bad argument and touches nothing.  Any other wait makes its
attempts on the buckets as others left them after the attempt before, and all but the last fail and
take nothing.  If it answers, it answers `n`, its last attempt took exactly `n` tokens and the
buckets stay as that attempt left them; if it was given up during a sleep, every attempt failed,
nothing at all was taken, and the buckets are what others made of them last.  Every sleep lasts from
a millisecond to an hour, there is one after each attempt that fails, and the caller is told to wait
once if the first attempt finds too few tokens and never otherwise.

A wait with a timeout, on a clock and beside a task that sweeps, is such a wait. -/
theorem waiting_takes_once (b : Buckets Float) (key : String) (n : Count) :
    (∀ rounds,
      let w := b.wait key n rounds
      let answer := w.ending.outcome n b.plan.capacity
      (b.plan.capacity < n →
        (∃ fault, answer = some (.error fault) ∧ fault.kind = .invalidArgument) ∧
        w.buckets = b ∧ w.attempts = [] ∧ w.sleeps = [] ∧ w.told = 0) ∧
      (n ≤ b.plan.capacity →
        Linked b rounds w.attempts ∧
        (answer = some (.ok n) ∧ (∃ failed last, w.attempts = failed ++ [last] ∧
            failed.length = w.sleeps.length ∧ (∀ a ∈ failed, a.Fails key n) ∧
            last.Takes key n ∧ w.buckets = last.after) ∨
          answer = none ∧ w.attempts.length = rounds.length ∧
            w.attempts.length = w.sleeps.length ∧ (∀ a ∈ w.attempts, a.Fails key n) ∧
            w.buckets = leftAfter b rounds w.attempts) ∧
        (∀ s ∈ w.sleeps, Span.millis 1 ≤ s ∧ s ≤ Span.seconds 3600) ∧
        ((∃ first ∈ rounds.head?, b.available key first.now < n) → w.told = 1) ∧
        ((∀ first ∈ rounds.head?, n ≤ b.available key first.now) → w.told = 0))) ∧
    ∀ (running after : Wait Float) timeout ending, running.buckets.buckets = b →
      running.told = 0 → Wait.start key n timeout running = .ok (after, ending) →
      ∃ rounds, (∀ round ∈ rounds, ∃ readings, round.others = sweeps readings) ∧
        let w := b.wait key n rounds
        SleptOut rounds w.sleeps ∧ w.ending = ending ∧ w.buckets = after.buckets.buckets ∧
          w.told = after.told := by
  refine ⟨fun rounds => ⟨fun hbeyond => ?_, fun hwithin => ?_⟩, ?_⟩
  · rw [Buckets.wait_of_beyond hbeyond]
    exact ⟨⟨_, rfl, rfl⟩, rfl, rfl, rfl, rfl⟩
  · have hsleeps := Buckets.sleeps_retry_ne_nil_iff b key n true rounds
    rw [Buckets.wait_of_within hwithin, Buckets.told_retry]
    refine ⟨b.linked_retry key n true rounds, ?_, Buckets.sleeps_retry b key n true rounds, ?_, ?_⟩
    · rcases b.ending_retry key n true rounds with ⟨hending, hgranted⟩ | ⟨hending, hgivenUp⟩
      · rw [hending]
        exact Or.inl ⟨rfl, hgranted⟩
      · rw [hending]
        exact Or.inr ⟨rfl, hgivenUp⟩
    · intro hfails
      rw [if_neg (hsleeps.mpr hfails)]
      rfl
    · intro hsucceeds
      rw [if_pos]
      by_contra hne
      obtain ⟨first, hfirst, hless⟩ := hsleeps.mp hne
      exact UInt32.not_le.mpr hless (hsucceeds first hfirst)
  · rintro running after timeout ending rfl htold hstart
    exact Wait.exists_rounds_start hstart htold

/-- One and a quarter of four tokens, and half a token more every second. -/
def contended : Buckets Float :=
  .restore restoredPlan [("edge", ⟨1.25, ⟨0⟩⟩)]

/-- While the caller sleeps for the first time, somebody else gets the next token. -/
def contendedRounds : List Round :=
  [⟨⟨0⟩, [(⟨1000000000⟩, .request "edge" 1 false), (⟨1000000000⟩, .sweep false)]⟩,
    ⟨⟨1500000000⟩, [(⟨2000000000⟩, .request "core" 5 true)]⟩, ⟨⟨3500000000⟩, []⟩]

/-- The same buckets on a clock, beside a task that sweeps them every second. -/
def contendedAlone : Wait Float :=
  ⟨⟨contended, []⟩, (Timeline.start ⟨0⟩).startSweeps 1000, 0⟩

/-- Two attempts fail, and only the third takes two tokens.  Whoever gives up before it takes none,
and five tokens do not fit. -/
theorem waiting_takes_once_contended :
    let w := contended.wait "edge" 2 contendedRounds
    let givenUp := contended.wait "edge" 2 (contendedRounds.take 2)
    let refused := contended.wait "edge" 5 contendedRounds
    contended.plan.capacity < 5 ∧ refused.attempts = [] ∧ 2 ≤ contended.plan.capacity ∧
      w.ending = .granted ∧ w.sleeps = [.millis 1500, .seconds 2] ∧
      (∃ first ∈ contendedRounds.head?, contended.available "edge" first.now < 2) ∧ w.told = 1 ∧
      Linked contended contendedRounds w.attempts ∧
      (∃ failed last, w.attempts = failed ++ [last] ∧ failed.length = 2 ∧
        (∀ a ∈ failed, a.Fails "edge" 2) ∧ last.Takes "edge" 2 ∧ w.buckets = last.after) ∧
      givenUp.ending = .timedOut ∧ givenUp.attempts.length = 2 ∧
      givenUp.buckets = leftAfter contended (contendedRounds.take 2) givenUp.attempts ∧
      ∃ after, Wait.start "edge" 2 1500 contendedAlone = .ok (after, .granted) ∧
        ∃ rounds, (contended.wait "edge" 2 rounds).ending = .granted ∧
          (contended.wait "edge" 2 rounds).buckets = after.buckets.buckets := by
  intro w givenUp refused
  have hbeyond : contended.plan.capacity < 5 := by decide
  have hwithin : 2 ≤ contended.plan.capacity := by decide
  have hending : w.ending = .granted := by decide +kernel
  have hgivenUp : givenUp.ending = .timedOut := by decide +kernel
  have hsleeps : w.sleeps = [.millis 1500, .seconds 2] := by decide +kernel
  have hfails : ∃ first ∈ contendedRounds.head?, contended.available "edge" first.now < 2 :=
    ⟨_, rfl, by decide +kernel⟩
  have hstart : (Wait.start "edge" 2 1500 contendedAlone).toOption.map (·.2) = some .granted := by
    decide +kernel
  obtain ⟨-, -, hattempts, -, -⟩ :=
    ((waiting_takes_once contended "edge" 5).1 contendedRounds).1 hbeyond
  obtain ⟨hlinked, hanswer, -, htold, -⟩ :=
    ((waiting_takes_once contended "edge" 2).1 contendedRounds).2 hwithin
  obtain ⟨-, hleft, -⟩ :=
    ((waiting_takes_once contended "edge" 2).1 (contendedRounds.take 2)).2 hwithin
  refine ⟨hbeyond, hattempts, hwithin, hending, hsleeps, hfails, htold hfails, hlinked, ?_,
    hgivenUp, ?_⟩
  · rcases hanswer with ⟨_, hgranted⟩ | ⟨hnone, _⟩
    · rw [hsleeps] at hgranted
      exact hgranted
    · have hgranted : w.ending.outcome 2 contended.plan.capacity = some (.ok 2) := by
        rw [hending]
        rfl
      rw [hgranted] at hnone
      cases hnone
  · rcases hleft with ⟨hsome, _⟩ | ⟨_, hlength, _, _, hbuckets⟩
    · have hnone : givenUp.ending.outcome 2 contended.plan.capacity = none := by
        rw [hgivenUp]
        rfl
      rw [hnone] at hsome
      cases hsome
    · refine ⟨hlength, hbuckets, ?_⟩
      cases hrun : Wait.start "edge" 2 1500 contendedAlone with
      | error overflow =>
        rw [hrun] at hstart
        cases hstart
      | ok result =>
        obtain ⟨after, ending⟩ := result
        rw [hrun] at hstart
        obtain rfl := Option.some.inj hstart
        obtain ⟨rounds, _, _, hended, hkept, _⟩ :=
          (waiting_takes_once contended "edge" 2).2 contendedAlone after 1500 _ rfl rfl hrun
        exact ⟨after, rfl, rounds, hended, hkept⟩

end Admission
