import Mathlib
import Admission.Bucket.Exact

/-!
# What buckets rely on of an amount

A bucket adds, subtracts and compares amounts of tokens.  `LawfulAmount` collects what it relies on:
every amount that can be compared has a place on the line of rationals with two infinities, its
`worth`, and where a bucket takes a whole number of tokens out or puts them back, no rounding is
seen.  All that is proved of buckets for every lawful amount holds of exact rationals and of floats.

* `clamp_of_le`, `le_of_le_clamp` — an amount that reaches the capacity is cut off to the capacity
  itself, and nothing else is.
* `worth_clamp_cases` — what is cut off at both ends lies between them, or is no number.
* `worth_atMost_add` — what there is room for is put back in full.
* `le_whole_iff` — as many whole tokens can be taken out as an amount is not smaller than.
-/

namespace Admission

/-- A rational number or one of two infinities. -/
abbrev Extent := WithBot (WithTop ℚ)

abbrev Extent.ofRat (q : ℚ) : Extent := ((q : WithTop ℚ) : WithBot (WithTop ℚ))

theorem Extent.ofRat_le {p q : ℚ} : Extent.ofRat p ≤ .ofRat q ↔ p ≤ q := by
  rw [WithBot.coe_le_coe, WithTop.coe_le_coe]

theorem Extent.ofRat_lt {p q : ℚ} : Extent.ofRat p < .ofRat q ↔ p < q := by
  rw [WithBot.coe_lt_coe, WithTop.coe_lt_coe]

theorem Extent.ofRat_inj {p q : ℚ} : Extent.ofRat p = .ofRat q ↔ p = q := by
  rw [WithBot.coe_inj, WithTop.coe_inj]

theorem Extent.cmp_ofRat (p q : ℚ) : cmp (Extent.ofRat p) (.ofRat q) = cmp p q :=
  (WithBot.coe_strictMono.comp WithTop.coe_strictMono).cmp_map_eq p q

/-- What lies between two rationals is one. -/
theorem Extent.exists_rat {u : Extent} {p q : ℚ} (hp : .ofRat p ≤ u) (hq : u ≤ .ofRat q) :
    ∃ r, u = .ofRat r ∧ p ≤ r ∧ r ≤ q := by
  match u with
  | ⊥ => exact absurd hp (by simp)
  | (⊤ : WithTop ℚ) => exact absurd hq (by simp)
  | ((r : ℚ) : WithTop ℚ) => exact ⟨r, rfl, Extent.ofRat_le.mp hp, Extent.ofRat_le.mp hq⟩

/-- What is not less than a rational is one or infinite. -/
theorem Extent.eq_top_or_exists_rat {u : Extent} {p : ℚ} (h : .ofRat p ≤ u) :
    u = ⊤ ∨ ∃ q, u = .ofRat q ∧ p ≤ q := by
  match u with
  | ⊥ => exact absurd h (by simp)
  | (⊤ : WithTop ℚ) => exact Or.inl rfl
  | ((r : ℚ) : WithTop ℚ) => exact Or.inr ⟨r, rfl, Extent.ofRat_le.mp h⟩

/-- An amount type on whose numbers a bucket can rely. -/
class LawfulAmount (α : Type) [Amount α] where
  /-- The number that an amount stands for, if it is one. -/
  worth : α → Option Extent
  le_iff {x y : α} : x ≤ y ↔ ∃ u v, worth x = some u ∧ worth y = some v ∧ u ≤ v
  lt_iff {x y : α} : x < y ↔ ∃ u v, worth x = some u ∧ worth y = some v ∧ u < v
  /-- Amounts that stand for the same are the same, but there may be several zeros. -/
  eq_of_worth {x y : α} {u : Extent} :
    worth x = some u → worth y = some u → u ≠ .ofRat 0 → x = y
  worth_ofCount (n : Count) : worth (Amount.ofCount n : α) = some (.ofRat n.toNat)
  whole_eq {x : α} {p : ℚ} :
    worth x = some (.ofRat p) → Amount.whole x = .ofNat (min ⌊p⌋.toNat 4294967295)
  whole_of_none {x : α} : worth x = none → Amount.whole x = 0
  /-- Whole tokens are taken out without rounding. -/
  worth_sub_ofCount {x : α} {p : ℚ} {n : Count} :
    worth x = some (.ofRat p) → (n.toNat : ℚ) ≤ p → p ≤ 4294967295 →
      worth (x - Amount.ofCount n) = some (.ofRat (p - n.toNat))
  worth_sub_of_none {x y : α} : worth x = none → worth (x - y) = none
  /-- Whole tokens are put back without rounding, where an amount shows that there is room. -/
  worth_add_ofCount {x y : α} {p : ℚ} {n : Count} :
    worth x = some (.ofRat p) → worth y = some (.ofRat (p + n.toNat)) →
      worth (x + Amount.ofCount n) = worth y
  worth_ofCount_add (c n : Count) :
    worth (Amount.ofCount c + Amount.ofCount n : α) = some (.ofRat (c.toNat + n.toNat))
  /-- Nothing comes in during no time. -/
  worth_add_no_time {x rate : α} :
    Amount.isRate rate = true → worth (x + Amount.ofSpan .zero * rate) = worth x
  /-- What fills up in a span fills up in a longer one. -/
  le_add_longer {x rate : α} {c : Count} {a b : Span} :
    Amount.isRate rate = true → a ≤ b → Amount.ofCount c ≤ x + Amount.ofSpan a * rate →
      Amount.ofCount c ≤ x + Amount.ofSpan b * rate

namespace Amount

open LawfulAmount

variable {α : Type} [Amount α] [LawfulAmount α] {x y rate : α} {p : ℚ} {c n : Count}

theorem worth_zero : worth (zero : α) = some (.ofRat 0) := by
  rw [zero, worth_ofCount]
  simp

theorem lt_iff_of_worth {u v : Extent} (hx : worth x = some u) (hy : worth y = some v) :
    x < y ↔ u < v := by
  rw [lt_iff, hx, hy]
  simp

theorem le_iff_of_worth {u v : Extent} (hx : worth x = some u) (hy : worth y = some v) :
    x ≤ y ↔ u ≤ v := by
  rw [le_iff, hx, hy]
  simp

theorem not_lt_of_none (hx : worth x = none) : ¬ x < y := by
  rw [lt_iff, hx]
  simp

theorem not_gt_of_none (hx : worth x = none) : ¬ y < x := by
  rw [lt_iff, hx]
  simp

theorem ofCount_ne_zero (hc : 0 < c) : Extent.ofRat c.toNat ≠ .ofRat 0 := by
  have hpos := Count.pos_iff.mp hc
  rw [Ne, Extent.ofRat_inj, Nat.cast_eq_zero]
  omega

/-! ## Cutting off -/

/-- An amount that reaches the capacity is cut off to the capacity. -/
theorem clamp_of_le (hc : 0 < c) (h : ofCount c ≤ x) : clamp x (ofCount c) = ofCount c := by
  obtain ⟨u, v, hu, hv, hle⟩ := le_iff.mp h
  rw [worth_ofCount] at hu
  obtain rfl := Option.some.inj hu
  have hzero : (.ofRat 0 : Extent) ≤ .ofRat c.toNat := Extent.ofRat_le.mpr (Nat.cast_nonneg _)
  unfold clamp
  rw [if_neg (by rw [lt_iff_of_worth hv worth_zero, not_lt]; exact hzero.trans hle)]
  split
  · rfl
  · next hlt =>
    rw [lt_iff_of_worth (worth_ofCount c) hv, not_lt] at hlt
    obtain rfl := le_antisymm hle hlt
    exact eq_of_worth hv (worth_ofCount c) (ofCount_ne_zero hc)

/-- Nothing but an amount that reaches the capacity is cut off to it. -/
theorem le_of_le_clamp (hc : 0 < c) (h : ofCount c ≤ clamp x (ofCount c)) : ofCount c ≤ x := by
  unfold clamp at h
  split at h
  · rw [le_iff_of_worth (worth_ofCount c) worth_zero, Extent.ofRat_le] at h
    have hpos : (0 : ℚ) < c.toNat := by exact_mod_cast Count.pos_iff.mp hc
    exact absurd h (not_le.mpr hpos)
  · split at h
    · next hlt =>
      obtain ⟨u, v, hu, hv, huv⟩ := lt_iff.mp hlt
      exact le_iff.mpr ⟨u, v, hu, hv, huv.le⟩
    · exact h

theorem clamp_of_none (hx : worth x = none) : clamp x (ofCount c) = x := by
  unfold clamp
  rw [if_neg (not_lt_of_none hx), if_neg (not_gt_of_none hx)]

theorem clamp_of_within (hx : worth x = some (.ofRat p)) (h0 : 0 ≤ p) (hp : p ≤ c.toNat) :
    clamp x (ofCount c) = x := by
  unfold clamp
  rw [if_neg, if_neg]
  · rw [lt_iff_of_worth (worth_ofCount c) hx, not_lt, Extent.ofRat_le]
    exact hp
  · rw [lt_iff_of_worth hx worth_zero, not_lt, Extent.ofRat_le]
    exact h0

/-- What is cut off at both ends lies between them, or is no number. -/
theorem worth_clamp_cases (x : α) (c : Count) :
    worth (clamp x (ofCount c)) = none ∨
      ∃ p : ℚ, worth (clamp x (ofCount c)) = some (.ofRat p) ∧ 0 ≤ p ∧ p ≤ c.toNat := by
  have hcount : (0 : ℚ) ≤ c.toNat := Nat.cast_nonneg _
  cases hx : worth x with
  | none =>
    left
    rw [clamp_of_none hx, hx]
  | some u =>
    right
    unfold clamp
    split
    · exact ⟨0, worth_zero, le_rfl, hcount⟩
    · next hlow =>
      split
      · exact ⟨c.toNat, worth_ofCount c, hcount, le_rfl⟩
      · next hhigh =>
        rw [lt_iff_of_worth hx worth_zero, not_lt] at hlow
        rw [lt_iff_of_worth (worth_ofCount c) hx, not_lt] at hhigh
        obtain ⟨r, rfl, h0, hr⟩ := Extent.exists_rat hlow hhigh
        exact ⟨r, hx, h0, hr⟩

/-- Amounts that stand for the same are cut off to what stands for the same. -/
theorem worth_clamp_congr (h : worth x = worth y) :
    worth (clamp x (ofCount c)) = worth (clamp y (ofCount c)) := by
  have hlow : x < zero ↔ y < zero := by rw [lt_iff, lt_iff, h]
  have hhigh : ofCount c < x ↔ ofCount c < y := by rw [lt_iff, lt_iff, h]
  unfold clamp
  simp only [hlow, hhigh]
  split
  · rfl
  · split
    · rfl
    · exact h

/-- What an amount shows to be within the capacity is put back in full. -/
theorem worth_atMost_add (hx : worth x = some (.ofRat p))
    (hy : worth y = some (.ofRat (p + n.toNat))) (hc : p + n.toNat ≤ c.toNat) :
    worth (atMost (x + ofCount n) (ofCount c)) = worth y := by
  have hsum := worth_add_ofCount hx hy
  unfold atMost
  split
  · exact hsum
  · next hge =>
    rw [lt_iff_of_worth (hsum.trans hy) (worth_ofCount c), not_lt, Extent.ofRat_le] at hge
    rw [worth_ofCount, hy, le_antisymm hc hge]

/-- A full bucket takes nothing more in. -/
theorem atMost_add_of_full (c n : Count) :
    atMost (ofCount c + ofCount n : α) (ofCount c) = ofCount c := by
  have hsum : (c.toNat : ℚ) ≤ c.toNat + n.toNat := le_add_of_nonneg_right (Nat.cast_nonneg _)
  unfold atMost
  rw [if_neg]
  rw [lt_iff_of_worth (worth_ofCount_add c n) (worth_ofCount c), not_lt, Extent.ofRat_le]
  exact hsum

/-! ## Whole tokens -/

theorem toNat_whole (hx : worth x = some (.ofRat p)) :
    (whole x).toNat = min ⌊p⌋.toNat 4294967295 := by
  rw [whole_eq hx, UInt32.toNat_ofNat']
  omega

theorem whole_ofCount (c : Count) : whole (ofCount c : α) = c := by
  have hle := c.toNat_le_most
  rw [← UInt32.toNat_inj, toNat_whole (worth_ofCount c), Int.floor_natCast]
  omega

/-- As many whole tokens can be taken out as the amount is not smaller than. -/
theorem le_whole_iff (hx : worth x = some (.ofRat p)) (h0 : 0 ≤ p) :
    n ≤ whole x ↔ (n.toNat : ℚ) ≤ p := by
  have hn := n.toNat_le_most
  have hfloor : 0 ≤ ⌊p⌋ := Int.floor_nonneg.mpr h0
  rw [UInt32.le_iff_toNat_le, toNat_whole hx]
  constructor
  · intro h
    have hle : (n.toNat : ℤ) ≤ ⌊p⌋ := by omega
    exact_mod_cast Int.le_floor.mp hle
  · intro h
    have hle : (n.toNat : ℤ) ≤ ⌊p⌋ := Int.le_floor.mpr (by exact_mod_cast h)
    omega

end Amount

/-! ## Exact amounts -/

/-- The seconds of a span. -/
def Span.inSeconds (s : Span) : ℚ := mkRat s.nanos perSecond

theorem Span.inSeconds_eq (s : Span) : s.inSeconds = (s.nanos : ℚ) / 1000000000 := by
  unfold inSeconds
  rw [Rat.mkRat_eq_div]
  rfl

/-- Exact amounts stand for themselves. -/
instance : LawfulAmount ℚ where
  worth q := some (.ofRat q)
  le_iff {x y} := by
    constructor
    · intro h
      exact ⟨_, _, rfl, rfl, Extent.ofRat_le.mpr h⟩
    · rintro ⟨u, v, hu, hv, h⟩
      obtain rfl := Option.some.inj hu
      obtain rfl := Option.some.inj hv
      exact Extent.ofRat_le.mp h
  lt_iff {x y} := by
    constructor
    · intro h
      exact ⟨_, _, rfl, rfl, Extent.ofRat_lt.mpr h⟩
    · rintro ⟨u, v, hu, hv, h⟩
      obtain rfl := Option.some.inj hu
      obtain rfl := Option.some.inj hv
      exact Extent.ofRat_lt.mp h
  eq_of_worth {x y u} hx hy _ := by
    rw [← hy, Option.some.injEq, Extent.ofRat_inj] at hx
    exact hx
  worth_ofCount _ := rfl
  whole_eq {x p} hx := by
    rw [Option.some.injEq, Extent.ofRat_inj] at hx
    rw [← hx]
    rfl
  whole_of_none hx := by cases hx
  worth_sub_ofCount {x p n} hx _ _ := by
    rw [Option.some.injEq, Extent.ofRat_inj] at hx ⊢
    rw [← hx]
    rfl
  worth_sub_of_none hx := by cases hx
  worth_add_ofCount {x y p n} hx hy := by
    rw [Option.some.injEq, Extent.ofRat_inj] at hx hy ⊢
    rw [hy, hx]
    rfl
  worth_ofCount_add _ _ := rfl
  worth_add_no_time {x rate} _ := by
    rw [Option.some.injEq, Extent.ofRat_inj]
    have hzero : (Amount.ofSpan Span.zero : ℚ) = 0 := rfl
    rw [hzero, zero_mul, add_zero]
  le_add_longer {x rate c a b} hrate hab h := by
    have hpos : 0 < rate := of_decide_eq_true hrate
    have hspan : (Amount.ofSpan a : ℚ) ≤ Amount.ofSpan b := by
      show a.inSeconds ≤ b.inSeconds
      have hnanos : (a.nanos : ℚ) ≤ b.nanos := by exact_mod_cast hab
      rw [Span.inSeconds_eq, Span.inSeconds_eq]
      linarith
    exact h.trans (add_le_add_right (mul_le_mul_of_nonneg_right hspan hpos.le) x)

namespace Amount

theorem clamp_nonneg (x : ℚ) (c : Count) : 0 ≤ clamp x (ofCount c) := by
  rcases worth_clamp_cases x c with hx | ⟨p, hx, h0, _⟩
  · cases hx
  · obtain rfl := Extent.ofRat_inj.mp (Option.some.inj hx)
    exact h0

theorem clamp_le {x : ℚ} (h : 0 ≤ x) (c : Count) : clamp x (ofCount c) ≤ x := by
  unfold clamp
  split
  · exact h
  · split
    · next hlt => exact le_of_lt hlt
    · exact le_refl x

theorem atMost_le (x high : ℚ) : atMost x high ≤ x := by
  unfold atMost
  split
  · exact le_refl x
  · next h => exact not_lt.mp h

theorem atMost_nonneg {x high : ℚ} (hx : 0 ≤ x) (hhigh : 0 ≤ high) : 0 ≤ atMost x high := by
  unfold atMost
  split
  · exact hx
  · exact hhigh

end Amount

end Admission
