import Admission.Proofs.Zeros

/-!
# Amounts that stay numbers

A bucket starts from amounts that are numbers and not negative, and adds to them what comes in and
what is given back.  `NumericAmount` says that this never arrives at what is no number, though it
may arrive at infinity, and that the comparison by which a bucket notices a change looks at what
amounts stand for.

* `Amount.Within` — an amount that is shown to lie between nothing and a count is a number there.
* `Amount.within_clamp`, `Amount.within_atMost` — whatever number is cut off at both ends lies
  within, and at the upper end what is not negative.
-/

open Float.Model Float.Model.UnpackedFloat

namespace Admission

open Amount LawfulAmount

/-- An amount type in which what is not negative adds up to a number. -/
class NumericAmount (α : Type) [Amount α] [LawfulAmount α] : Prop where
  /-- Numbers are equal if they stand for the same, and what is no number equals nothing. -/
  beq_iff {x y : α} : (x == y) = true ↔ ∃ u, worth x = some u ∧ worth y = some u
  exists_worth_add {x y : α} {u v : Extent} :
    worth x = some u → worth y = some v → .ofRat 0 ≤ u → .ofRat 0 ≤ v →
      ∃ w, worth (x + y) = some w ∧ .ofRat 0 ≤ w
  exists_worth_income {rate : α} (s : Span) :
    isRate rate = true → ∃ u, worth (ofSpan s * rate) = some u ∧ .ofRat 0 ≤ u

namespace Amount

variable {α : Type} [Amount α] {x y : α} {c n : Count}

/-- An amount between nothing and a count of tokens. -/
def Within (c : Count) (x : α) : Prop := zero ≤ x ∧ x ≤ ofCount c

variable [LawfulAmount α]

theorem within_iff :
    Within c x ↔ ∃ p : ℚ, worth x = some (.ofRat p) ∧ 0 ≤ p ∧ p ≤ c.toNat := by
  constructor
  · rintro ⟨hlow, hhigh⟩
    obtain ⟨u, v, hu, hv, h0⟩ := le_iff.mp hlow
    rw [worth_zero] at hu
    obtain rfl := Option.some.inj hu
    rw [le_iff_of_worth hv (worth_ofCount c)] at hhigh
    obtain ⟨p, rfl, hp, hpc⟩ := Extent.exists_rat h0 hhigh
    exact ⟨p, hv, hp, hpc⟩
  · rintro ⟨p, hp, h0, hpc⟩
    exact ⟨(le_iff_of_worth worth_zero hp).mpr (Extent.ofRat_le.mpr h0),
      (le_iff_of_worth hp (worth_ofCount c)).mpr (Extent.ofRat_le.mpr hpc)⟩

theorem within_ofCount (c : Count) : Within c (ofCount c : α) :=
  within_iff.mpr ⟨c.toNat, worth_ofCount c, Nat.cast_nonneg _, le_rfl⟩

/-- What is within bounds is a number that is not negative. -/
theorem Within.exists_worth (h : Within c x) : ∃ u, worth x = some u ∧ .ofRat 0 ≤ u := by
  obtain ⟨p, hp, h0, _⟩ := within_iff.mp h
  exact ⟨_, hp, Extent.ofRat_le.mpr h0⟩

theorem Within.clamp_eq (h : Within c x) : clamp x (ofCount c) = x := by
  obtain ⟨p, hp, h0, hpc⟩ := within_iff.mp h
  exact clamp_of_within hp h0 hpc

/-- A number that is cut off at both ends lies between them. -/
theorem within_clamp {u : Extent} (hx : worth x = some u) (c : Count) :
    Within c (clamp x (ofCount c)) := by
  unfold clamp
  split
  · exact within_iff.mpr ⟨0, worth_zero, le_rfl, Nat.cast_nonneg _⟩
  · next hlow =>
    split
    · exact within_ofCount c
    · next hhigh =>
      rw [lt_iff_of_worth hx worth_zero, not_lt] at hlow
      rw [lt_iff_of_worth (worth_ofCount c) hx, not_lt] at hhigh
      exact ⟨(le_iff_of_worth worth_zero hx).mpr hlow,
        (le_iff_of_worth hx (worth_ofCount c)).mpr hhigh⟩

/-- What is not negative lies within once it is cut off at the upper end. -/
theorem within_atMost {u : Extent} (hx : worth x = some u) (h0 : .ofRat 0 ≤ u) (c : Count) :
    Within c (atMost x (ofCount c)) := by
  unfold atMost
  split
  · next hlt =>
    rw [lt_iff_of_worth hx (worth_ofCount c)] at hlt
    exact ⟨(le_iff_of_worth worth_zero hx).mpr h0, (le_iff_of_worth hx (worth_ofCount c)).mpr hlt.le⟩
  · exact within_ofCount c

/-! ## Equality -/

variable [NumericAmount α]

theorem beq_refl {u : Extent} (hx : worth x = some u) : (x == x) = true :=
  NumericAmount.beq_iff.mpr ⟨u, hx, hx⟩

theorem beq_trans {z : α} (hxy : (x == y) = true) (hyz : (y == z) = true) : (x == z) = true := by
  obtain ⟨u, hx, hy⟩ := NumericAmount.beq_iff.mp hxy
  obtain ⟨v, hy', hz⟩ := NumericAmount.beq_iff.mp hyz
  obtain rfl := Option.some.inj (hy.symm.trans hy')
  exact NumericAmount.beq_iff.mpr ⟨u, hx, hz⟩

end Amount

/-- All rationals are numbers. -/
instance : NumericAmount ℚ where
  beq_iff {x y} := by
    rw [beq_iff_eq]
    constructor
    · rintro rfl
      exact ⟨_, rfl, rfl⟩
    · rintro ⟨u, hx, hy⟩
      exact Extent.ofRat_inj.mp (Option.some.inj (hx.trans hy.symm))
  exists_worth_add {x y u v} hx hy hu hv := by
    obtain rfl := Option.some.inj hx
    obtain rfl := Option.some.inj hy
    exact ⟨_, rfl, Extent.ofRat_le.mpr (add_nonneg (Extent.ofRat_le.mp hu) (Extent.ofRat_le.mp hv))⟩
  exists_worth_income {rate} s hrate := by
    have hpos : 0 < rate := of_decide_eq_true hrate
    have hspan : 0 ≤ s.inSeconds := by
      rw [Span.inSeconds_eq]
      positivity
    exact ⟨_, rfl, Extent.ofRat_le.mpr (mul_nonneg hspan hpos.le)⟩

/-! ## Floats -/

namespace Double

variable {x y : Float}

theorem beq_iff : (x == y) = true ↔ ∃ u, worth x = some u ∧ worth y = some u := by
  have hbeq : (x == y) = true ↔ x.toModel.unpack.compare y.toModel.unpack = some .eq := by
    show (x.toModel.unpack.compare y.toModel.unpack == some .eq) = true ↔ _
    exact beq_iff_eq
  rw [hbeq, compare_eq (canonical_unpack _) (canonical_unpack _)]
  unfold worth
  cases extent x.toModel.unpack with
  | none => simp
  | some u =>
    cases extent y.toModel.unpack with
    | none => simp
    | some v =>
      show some (cmp u v) = some .eq ↔ _
      rw [Option.some.injEq, cmp_eq_eq_iff]
      constructor
      · rintro rfl
        exact ⟨u, rfl, rfl⟩
      · rintro ⟨w, hu, hv⟩
        exact Option.some.inj (hu.trans hv.symm)

/-- A float stands for a number unless it is none. -/
theorem exists_worth_of_isNaN (h : x.isNaN = false) : ∃ u, worth x = some u := by
  cases hx : worth x with
  | some u => exact ⟨u, rfl⟩
  | none =>
    have hnan : x.toModel.unpack.isNaN = false := h
    rw [eq_notANumber hx] at hnan
    cases hnan

/-- What is not negative adds up to a number, though it may be too large for a finite one. -/
theorem exists_worth_add {u v : Extent} (hx : worth x = some u) (hy : worth y = some v)
    (hu : .ofRat 0 ≤ u) (hv : .ofRat 0 ≤ v) : ∃ w, worth (x + y) = some w ∧ .ofRat 0 ≤ w := by
  rcases Extent.eq_top_or_exists_rat hv with rfl | ⟨q, rfl, hq⟩
  · have hbot : u ≠ ⊥ := by
      rintro rfl
      exact absurd hu (by simp)
    exact ⟨⊤, worth_add_top hx hbot hy, le_top⟩
  · rcases Extent.eq_top_or_exists_rat hu with rfl | ⟨p, rfl, hp⟩
    · have hnot : ∀ p, worth x ≠ some (.ofRat p) := fun p hp => by
        rw [hx, Option.some.injEq] at hp
        exact absurd hp (by simp)
      exact ⟨⊤, (worth_add_of_not_rat hnot hy).trans hx, le_top⟩
    · exact ⟨_, worth_add hx hy, ofRat_zero_le_saturate (add_nonneg hp hq)⟩

/-- What a bucket adds to a float leaves it a number. -/
instance : NumericAmount Float where
  beq_iff := beq_iff
  exists_worth_add := exists_worth_add
  exists_worth_income {rate} s hrate := by
    obtain ⟨u, _, hu, _, h0, _⟩ := worth_income (le_refl s.nanos) hrate
    exact ⟨u, hu, h0⟩

end Double

end Admission
