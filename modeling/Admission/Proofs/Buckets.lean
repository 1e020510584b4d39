import Admission.Bucket
import Admission.Proofs.Amounts
import Admission.Proofs.Store

/-!
# The levels of buckets

`b.found key now` is the level that a call about a key finds at a reading: what is stored, or a full
bucket, with the tokens that came in since.  Every operation is read off from it by one equation on
the look-up (`getElem?_take`, `getElem?_giveBack`, `getElem?_sweep`), and every answer is one about
what was found (`answer_take`, `available_eq`).

* `Level.worth_reached_of_refilled` — a level that was refilled at a reading is not refilled at it
  again, whether the clock stands still or went back.
* `Level.isFull_refill_iff` — a refilled level is full if what came in reached the capacity, rounded
  or not.
* `Buckets.available_take`, `Buckets.available_giveBack_take` — what a request is granted is missing
  afterwards, and is there again once it is given back.
-/

namespace Admission

open Amount LawfulAmount

variable {α : Type} [Amount α]

/-! ## One level -/

namespace Level

variable {plan : BucketPlan α} {l : Level α} {now t : Instant}

/-- The tokens of a level with what came in up to `now`, before it is cut off at both ends. -/
def reached (plan : BucketPlan α) (now : Instant) (l : Level α) : α :=
  l.tokens + ofSpan (elapsed l.refilled now) * plan.refillRate

@[simp] theorem tokens_refill :
    (l.refill plan now).tokens = clamp (l.reached plan now) (ofCount plan.capacity) := rfl

/-- A level is marked with the latest reading at which it was refilled. -/
theorem refilled_refill : (l.refill plan now).refilled = if l.refilled < now then now else
    l.refilled := rfl

theorem refilled_refill_of_le (h : l.refilled ≤ now) : (l.refill plan now).refilled = now := by
  rw [refilled_refill]
  split
  · rfl
  · next hlt =>
    have hle : now.nanos ≤ l.refilled.nanos := Int.not_lt.mp hlt
    exact congrArg Instant.mk (Int.le_antisymm h hle)

/-- A level that was refilled at a reading keeps its mark when it is refilled at it again. -/
theorem refilled_refill_refill {x : α} :
    (refill plan now { l.refill plan now with tokens := x }).refilled =
      (l.refill plan now).refilled := by
  rw [refilled_refill]
  split
  · next hlt =>
    -- only a mark of the future could be moved
    rw [refilled_refill] at hlt ⊢
    split at hlt
    · next hpast => rw [if_pos hpast]
    · next hnot => exact absurd hlt hnot
  · rfl

/-- No time passes between the mark of a refilled level and the reading of its refill. -/
theorem elapsed_refill : elapsed (l.refill plan now).refilled now = .zero := by
  rw [refilled_refill]
  split
  · exact elapsed_self now
  · next h =>
    have hle : now.nanos ≤ l.refilled.nanos := Int.not_lt.mp h
    show Span.mk _ = Span.mk 0
    congr 1
    omega

variable [LawfulAmount α]

/-- Whatever a refilled level is changed to, nothing more comes in at the same reading. -/
theorem worth_reached_of_refilled {x : α} :
    worth (reached plan now { l.refill plan now with tokens := x }) = worth x := by
  unfold reached
  rw [elapsed_refill]
  exact worth_add_no_time plan.rate_valid

/-- A refilled level is no number or holds between nothing and the capacity. -/
theorem worth_tokens_refill (plan : BucketPlan α) (now : Instant) (l : Level α) :
    worth (l.refill plan now).tokens = none ∨
      ∃ p : ℚ, worth (l.refill plan now).tokens = some (.ofRat p) ∧ 0 ≤ p ∧
        p ≤ plan.capacity.toNat :=
  worth_clamp_cases _ _

theorem isFull_refill_iff :
    (l.refill plan now).isFull plan = true ↔ ofCount plan.capacity ≤ l.reached plan now := by
  unfold isFull
  rw [decide_eq_true_iff]
  constructor
  · intro h
    exact le_of_le_clamp plan.capacity_pos h
  · intro h
    rw [tokens_refill, clamp_of_le plan.capacity_pos h, le_iff]
    exact ⟨_, _, worth_ofCount _, worth_ofCount _, le_rfl⟩

/-- A level that has reached the capacity is a full bucket of the reading. -/
theorem refill_of_reached (h : ofCount plan.capacity ≤ l.reached plan now)
    (hle : l.refilled ≤ now) : l.refill plan now = full plan now := by
  have hmark : (l.refill plan now).refilled = now := refilled_refill_of_le hle
  have htokens : (l.refill plan now).tokens = ofCount plan.capacity := by
    rw [tokens_refill, clamp_of_le plan.capacity_pos h]
  calc l.refill plan now = ⟨(l.refill plan now).tokens, (l.refill plan now).refilled⟩ := rfl
    _ = full plan now := by rw [htokens, hmark]; rfl

theorem reached_full (plan : BucketPlan α) (now : Instant) :
    ofCount plan.capacity ≤ (full plan now).reached plan now := by
  unfold reached full
  rw [elapsed_self, le_iff]
  exact ⟨_, _, worth_ofCount _, (worth_add_no_time plan.rate_valid).trans (worth_ofCount _), le_rfl⟩

@[simp] theorem refill_full (plan : BucketPlan α) (now : Instant) :
    (full plan now).refill plan now = full plan now :=
  refill_of_reached (reached_full plan now) (Int.le_refl _)

theorem whole_full (plan : BucketPlan α) (now : Instant) :
    (full plan now).whole = plan.capacity := whole_ofCount _

/-- What reached the capacity stays there as time goes on. -/
theorem reached_mono (h : ofCount plan.capacity ≤ l.reached plan now) (hle : now ≤ t) :
    ofCount plan.capacity ≤ l.reached plan t := by
  refine le_add_longer plan.rate_valid ?_ h
  have hnanos : now.nanos ≤ t.nanos := hle
  show (now.nanos - l.refilled.nanos).toNat ≤ (t.nanos - l.refilled.nanos).toNat
  omega

end Level

/-! ## All levels -/

namespace Buckets

private theorem getElem?_insert {β : Type} (m : Std.ExtTreeMap String β) (key k : String)
    (x : β) : (m.insert key x)[k]? = if k = key then some x else m[k]? := by
  rw [Std.ExtTreeMap.getElem?_insert]
  simp only [Std.compare_eq_iff_eq, @eq_comm _ k key]

variable {b : Buckets α} {key k : String} {n : Count} {partly : Bool} {now : Instant}

/-- Buckets of one plan that have the same levels are the same. -/
theorem eq_of_levels {c : Buckets α} (hplan : b.plan = c.plan)
    (hlevels : ∀ k : String, b.levels[k]? = c.levels[k]?) : b = c := by
  obtain ⟨plan, levels⟩ := b
  obtain ⟨plan', levels'⟩ := c
  obtain rfl : plan = plan' := hplan
  obtain rfl : levels = levels' := Std.ExtTreeMap.ext_getElem? fun k => hlevels k
  rfl

/-- The level that a call about a key finds at a reading. -/
def found (b : Buckets α) (key : String) (now : Instant) : Level α :=
  (b.levels[key]?.getD (.full b.plan now)).refill b.plan now

theorem found_of_some {l : Level α} (h : b.levels[key]? = some l) :
    b.found key now = l.refill b.plan now := by
  unfold found
  rw [h]
  rfl

theorem found_of_none (h : b.levels[key]? = none) :
    b.found key now = (Level.full b.plan now).refill b.plan now := by
  unfold found
  rw [h]
  rfl

theorem found_congr {c : Buckets α} (hplan : b.plan = c.plan)
    (h : b.levels[key]? = c.levels[key]?) : b.found key now = c.found key now := by
  unfold found
  rw [hplan, h]

/-- What a request for tokens is granted. -/
def granted (b : Buckets α) (key : String) (n : Count) (partly : Bool) (now : Instant) : Count :=
  grantable (b.found key now).whole n partly

/-- What is left of the level that was found when `g` tokens are taken. -/
def left (b : Buckets α) (key : String) (g : Count) (now : Instant) : Level α :=
  { b.found key now with tokens := (b.found key now).tokens - ofCount g }

theorem answer_take (b : Buckets α) (key : String) (n : Count) (partly : Bool) (now : Instant) :
    (b.take key n partly now).answer =
      ⟨b.granted key n partly now, (b.found key now).tokens⟩ := by
  unfold take granted
  cases h : b.levels[key]? with
  | some l =>
    rw [found_of_some h]
    rfl
  | none =>
    rw [found_of_none h]
    dsimp only
    split
    · rfl
    · next hzero =>
      -- nothing is granted then, which is what the answer says
      rw [Count.pos_iff, Nat.not_lt, Nat.le_zero] at hzero
      have hgranted := UInt32.toNat_inj.mp (hzero.trans UInt32.toNat_zero.symm)
      rw [hgranted]
      rfl

@[simp] theorem plan_take : (b.take key n partly now).after.plan = b.plan := by
  unfold take
  split
  · rfl
  · dsimp only
    split <;> rfl

/-- A request changes the level of its key, and makes one only if it is granted something. -/
theorem levels_take (b : Buckets α) (key : String) (n : Count) (partly : Bool) (now : Instant) :
    (b.take key n partly now).after.levels =
      if b.levels[key]?.isSome ∨ 0 < b.granted key n partly now then
        b.levels.insert key (b.left key (b.granted key n partly now) now)
      else b.levels := by
  unfold take left granted
  cases h : b.levels[key]? with
  | some l =>
    rw [found_of_some h, if_pos (Or.inl Option.isSome_some)]
    rfl
  | none =>
    rw [found_of_none h]
    dsimp only
    split
    · next hpos =>
      rw [if_pos (Or.inr hpos)]
      rfl
    · next hzero =>
      rw [if_neg (by simp [hzero])]
      rfl

theorem getElem?_take (b : Buckets α) (key : String) (n : Count) (partly : Bool) (now : Instant)
    (k : String) :
    (b.take key n partly now).after.levels[k]? =
      if k = key ∧ (b.levels[key]?.isSome ∨ 0 < b.granted key n partly now) then
        some (b.left key (b.granted key n partly now) now)
      else b.levels[k]? := by
  rw [levels_take]
  split
  · next h =>
    rw [getElem?_insert]
    simp only [h, and_true]
  · next h => rw [if_neg fun hk => h hk.2]

/-- A key has a level after a request if it had one or was granted something. -/
theorem isSome_getElem?_take :
    (b.take key n partly now).after.levels[key]?.isSome = true ↔
      b.levels[key]?.isSome = true ∨ 0 < b.granted key n partly now := by
  rw [getElem?_take]
  by_cases hchanged : b.levels[key]?.isSome = true ∨ 0 < b.granted key n partly now
  · rw [if_pos ⟨rfl, hchanged⟩]
    exact iff_of_true rfl hchanged
  · rw [if_neg fun h => hchanged h.2]
    exact iff_of_false (fun h => hchanged (Or.inl h)) hchanged

@[simp] theorem plan_giveBack : (b.giveBack key n now).after.plan = b.plan := by
  unfold giveBack
  split
  · rfl
  · split <;> rfl

/-- Tokens that come back are put in at once, up to the capacity. -/
def filled (b : Buckets α) (key : String) (n : Count) (now : Instant) : Level α :=
  { b.found key now with
    tokens := atMost ((b.found key now).tokens + ofCount n) (ofCount b.plan.capacity) }

theorem levels_giveBack (b : Buckets α) (key : String) (n : Count) (now : Instant) :
    (b.giveBack key n now).after.levels =
      if b.levels[key]?.isSome ∧ n ≠ 0 then b.levels.insert key (b.filled key n now)
      else b.levels := by
  unfold giveBack filled
  cases h : b.levels[key]? with
  | some l =>
    rw [found_of_some h]
    dsimp only
    split
    · next hn =>
      rw [if_neg fun hk => hk.2 hn]
      rfl
    · next hn =>
      rw [if_pos ⟨Option.isSome_some, hn⟩]
      rfl
  | none =>
    rw [if_neg fun hk => Bool.false_ne_true hk.1]
    rfl

theorem getElem?_giveBack (b : Buckets α) (key : String) (n : Count) (now : Instant) (k : String) :
    (b.giveBack key n now).after.levels[k]? =
      if k = key ∧ b.levels[key]?.isSome ∧ n ≠ 0 then some (b.filled key n now)
      else b.levels[k]? := by
  rw [levels_giveBack]
  split
  · next h =>
    rw [getElem?_insert]
    simp only [h, and_true, ne_eq, not_false_eq_true]
  · next h => rw [if_neg fun hk => h hk.2]

theorem getElem?_sweep (b : Buckets α) (force : Bool) (now : Instant) (k : String) :
    (b.sweep force now).after.levels[k]? =
      b.levels[k]?.filter fun l => !b.isSpent force now l :=
  Std.ExtTreeMap.getElem?_filter'

variable [LawfulAmount α]

/-- Whether a key has a level or none decides no answer. -/
theorem available_eq (b : Buckets α) (key : String) (now : Instant) :
    b.available key now = (b.found key now).whole := by
  unfold available
  cases h : b.levels[key]? with
  | some l => rw [found_of_some h]
  | none => rw [found_of_none h, Level.refill_full, Level.whole_full]

theorem available_congr {c : Buckets α} (hplan : b.plan = c.plan)
    (h : b.levels[key]? = c.levels[key]?) (now : Instant) :
    b.available key now = c.available key now := by
  rw [available_eq, available_eq, found_congr hplan h]

/-- What a sweep drops has reached the capacity. -/
theorem reached_of_isSpent {force : Bool} {l : Level α} (h : b.isSpent force now l = true) :
    ofCount b.plan.capacity ≤ l.reached b.plan now :=
  Level.isFull_refill_iff.mp ((Bool.and_eq_true _ _).mp h).2

/-- A sweep drops nothing but levels that have reached the capacity. -/
theorem levels_sweep (b : Buckets α) (force : Bool) (now : Instant) (k : String) :
    (b.sweep force now).after.levels[k]? = b.levels[k]? ∨
      (b.sweep force now).after.levels[k]? = none ∧
        ∃ l, b.levels[k]? = some l ∧ ofCount b.plan.capacity ≤ l.reached b.plan now := by
  rw [getElem?_sweep]
  cases hl : b.levels[k]? with
  | none => exact Or.inl rfl
  | some l =>
    cases hspent : b.isSpent force now l with
    | false => exact Or.inl (by simp [hspent])
    | true => exact Or.inr ⟨by simp [hspent], l, rfl, reached_of_isSpent hspent⟩

/-- Tokens between nothing and the capacity, or no number at all. -/
def Held (plan : BucketPlan α) (x : α) : Prop :=
  worth x = none ∨ ∃ p : ℚ, worth x = some (.ofRat p) ∧ 0 ≤ p ∧ p ≤ plan.capacity.toNat

theorem held_found (b : Buckets α) (key : String) (now : Instant) :
    Held b.plan (b.found key now).tokens := Level.worth_tokens_refill _ _ _

/-- A level that is left at a reading is found at that reading as it was left. -/
theorem worth_found_of_left {c : Buckets α} {x : α} (hplan : c.plan = b.plan)
    (h : c.levels[key]? = some { b.found key now with tokens := x }) (hx : Held b.plan x) :
    worth (c.found key now).tokens = worth x := by
  have hreached : worth (Level.reached b.plan now { b.found key now with tokens := x }) = worth x :=
    Level.worth_reached_of_refilled
  rw [found_of_some h, hplan, Level.tokens_refill, worth_clamp_congr hreached]
  rcases hx with hnone | ⟨p, hp, h0, hcap⟩
  · rw [clamp_of_none hnone]
  · rw [clamp_of_within hp h0 hcap]

/-- What is left after a request, as a number: the tokens found less those granted. -/
theorem worth_left (b : Buckets α) (key : String) (n : Count) (partly : Bool) (now : Instant) :
    (worth (b.found key now).tokens = none ∧ b.granted key n partly now = 0 ∧
      worth (b.left key (b.granted key n partly now) now).tokens = none) ∨
      ∃ p : ℚ, worth (b.found key now).tokens = some (.ofRat p) ∧ p ≤ b.plan.capacity.toNat ∧
        ((b.granted key n partly now).toNat : ℚ) ≤ p ∧
        worth (b.left key (b.granted key n partly now) now).tokens =
          some (.ofRat (p - (b.granted key n partly now).toNat)) := by
  have hle : b.granted key n partly now ≤ (b.found key now).whole := grantable_le_available _ _ _
  rcases b.held_found key now with hnone | ⟨p, hp, h0, hcap⟩
  · left
    have hwhole : (b.found key now).whole = 0 := whole_of_none hnone
    rw [hwhole, UInt32.le_iff_toNat_le] at hle
    exact ⟨hnone, UInt32.toNat_inj.mp (Nat.le_zero.mp hle), worth_sub_of_none hnone⟩
  · right
    have hgranted := (le_whole_iff hp h0).mp hle
    have hmost : p ≤ 4294967295 :=
      hcap.trans (by exact_mod_cast b.plan.capacity.toNat_le_most)
    exact ⟨p, hp, hcap, hgranted, worth_sub_ofCount hp hgranted hmost⟩

theorem held_left (b : Buckets α) (key : String) (n : Count) (partly : Bool) (now : Instant) :
    Held b.plan (b.left key (b.granted key n partly now) now).tokens := by
  rcases b.worth_left key n partly now with ⟨_, _, hnone⟩ | ⟨p, _, hcap, hle, hleft⟩
  · exact Or.inl hnone
  · have hg : (0 : ℚ) ≤ (b.granted key n partly now).toNat := Nat.cast_nonneg _
    exact Or.inr ⟨_, hleft, by linarith, by linarith⟩

/-- A request leaves what it says, whether or not a level is stored for it. -/
theorem worth_found_take (b : Buckets α) (key : String) (n : Count) (partly : Bool)
    (now : Instant) :
    worth ((b.take key n partly now).after.found key now).tokens =
      worth (b.left key (b.granted key n partly now) now).tokens := by
  by_cases hchanged : b.levels[key]?.isSome ∨ 0 < b.granted key n partly now
  · refine worth_found_of_left plan_take ?_ (b.held_left key n partly now)
    rw [getElem?_take, if_pos ⟨rfl, hchanged⟩]
    rfl
  · have hsame : (b.take key n partly now).after.found key now = b.found key now :=
      found_congr plan_take (by rw [getElem?_take, if_neg fun hk => hchanged hk.2])
    have hzero : b.granted key n partly now = 0 := by
      by_contra hne
      refine hchanged (Or.inr (Count.pos_iff.mpr (Nat.pos_of_ne_zero fun h => hne ?_)))
      exact UInt32.toNat_inj.mp h
    rw [hsame]
    rcases b.worth_left key n partly now with ⟨hnone, _, hleft⟩ | ⟨p, hp, _, _, hleft⟩
    · rw [hnone, hleft]
    · rw [hp, hleft, hzero, UInt32.toNat_zero, Nat.cast_zero, sub_zero]

/-- After a request the whole tokens that were granted are missing. -/
theorem available_take (b : Buckets α) (key : String) (n : Count) (partly : Bool)
    (now : Instant) :
    ((b.take key n partly now).after.available key now).toNat =
      (b.available key now).toNat - (b.granted key n partly now).toNat := by
  have hfound := b.worth_found_take key n partly now
  rw [available_eq, available_eq]
  unfold Level.whole
  rcases b.worth_left key n partly now with ⟨hnone, _, hleft⟩ | ⟨p, hp, hcap, hle, hleft⟩
  · rw [whole_of_none (hfound.trans hleft), whole_of_none hnone]
    exact (Nat.zero_sub _).symm
  · have hfloor : ⌊p⌋ ≤ 4294967295 := by
      refine Int.floor_le_iff.mpr ?_
      have hmost : (b.plan.capacity.toNat : ℚ) ≤ 4294967295 := by
        exact_mod_cast b.plan.capacity.toNat_le_most
      push_cast
      linarith
    rw [toNat_whole (hfound.trans hleft), toNat_whole hp, Int.floor_sub_natCast]
    omega

/-- What a request is granted is decided by what is seen of the bucket. -/
theorem granted_eq_grantable (b : Buckets α) (key : String) (n : Count) (partly : Bool)
    (now : Instant) : b.granted key n partly now = grantable (b.available key now) n partly := by
  rw [available_eq]
  rfl

theorem available_take_add_granted (b : Buckets α) (key : String) (n : Count) (partly : Bool)
    (now : Instant) :
    ((b.take key n partly now).after.available key now).toNat +
        (b.granted key n partly now).toNat =
      (b.available key now).toNat := by
  have hle := grantable_le_available (b.available key now) n partly
  rw [← granted_eq_grantable, UInt32.le_iff_toNat_le] at hle
  rw [available_take]
  exact Nat.sub_add_cancel hle

/-- A request leaves the other keys alone. -/
theorem available_take_of_ne (h : k ≠ key) (b : Buckets α) (n : Count) (partly : Bool)
    (now t : Instant) : (b.take key n partly now).after.available k t = b.available k t :=
  available_congr plan_take (by rw [getElem?_take, if_neg fun hk => h hk.1]) t

/-- What a request took fills the level up to what it was. -/
theorem worth_filled_take (hgranted : b.granted key n partly now = n) (hn : 0 < n) :
    ∃ p : ℚ, worth (b.found key now).tokens = some (.ofRat p) ∧ 0 ≤ p ∧
      p ≤ b.plan.capacity.toNat ∧
      worth ((b.take key n partly now).after.filled key n now).tokens = some (.ofRat p) := by
  have hfound := b.worth_found_take key n partly now
  have hleft := b.worth_left key n partly now
  rw [hgranted] at hfound hleft
  rcases hleft with ⟨_, hzero, _⟩ | ⟨p, hp, hcap, hle, hleft⟩
  · rw [hzero] at hn
    exact absurd hn (by decide)
  · have hn0 : (0 : ℚ) ≤ n.toNat := Nat.cast_nonneg _
    have hsum : p - n.toNat + n.toNat = p := sub_add_cancel p _
    refine ⟨p, hp, hn0.trans hle, hcap, ?_⟩
    rw [← hp]
    refine worth_atMost_add (hfound.trans hleft) ?_ ?_
    · rw [hsum]
      exact hp
    · rw [hsum, plan_take]
      exact hcap

/-- What a request took and gives back at once is there again. -/
theorem available_giveBack_take (hgranted : b.granted key n partly now = n) (hn : 0 < n)
    (k : String) :
    ((b.take key n partly now).after.giveBack key n now).after.available k now =
      b.available k now := by
  by_cases hk : k = key
  · subst hk
    obtain ⟨p, hp, h0, hcap, hfilled⟩ := worth_filled_take hgranted hn
    have hstored : (b.take k n partly now).after.levels[k]? = some (b.left k n now) := by
      rw [getElem?_take, hgranted, if_pos ⟨rfl, Or.inr hn⟩]
    have hne : n ≠ 0 := by
      rintro rfl
      exact absurd hn (by decide)
    have hback : ((b.take k n partly now).after.giveBack k n now).after.levels[k]? =
        some ((b.take k n partly now).after.filled k n now) := by
      rw [getElem?_giveBack, if_pos ⟨rfl, by rw [hstored]; rfl, hne⟩]
    have hheld : Held (b.take k n partly now).after.plan
        ((b.take k n partly now).after.filled k n now).tokens := by
      rw [plan_take]
      exact Or.inr ⟨p, hfilled, h0, hcap⟩
    have hagain := (worth_found_of_left plan_giveBack hback hheld).trans hfilled
    rw [available_eq, available_eq]
    unfold Level.whole
    rw [whole_eq hagain, whole_eq hp]
  · rw [available_congr plan_giveBack (by rw [getElem?_giveBack, if_neg fun hs => hk hs.1])]
    exact available_take_of_ne hk b n partly now now

end Buckets

end Admission
