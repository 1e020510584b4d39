import Admission.Proofs.Doubles

/-!
# Arithmetic of doubles

Sums, differences, products and quotients of canonical parts are the nearest doubles of the exact
results, in canonical parts again (`PartsOf.add`, `PartsOf.sub`, `PartsOf.mul`, `PartsOf.div`).  A
sum is formed at the smaller exponent and rounded once; a quotient is formed with so many places
that what the division leaves decides the rounding.
-/

open Float.Model Float.Model.UnpackedFloat

namespace Admission

namespace Double

/-- Shifting a mantissa up and its exponent down changes no number. -/
theorem decreaseExponent_eq (m : ℕ) (e t : ℤ) :
    ((decreaseExponent m e t).1 : ℚ) * 2 ^ (decreaseExponent m e t).2 = m * 2 ^ e := by
  simp only [decreaseExponent, Nat.shiftLeft_eq]
  push_cast
  rw [mul_assoc, two_pow_mul_zpow]
  congr 2
  omega

theorem decreaseExponent_snd {m : ℕ} {e t : ℤ} (h : t ≤ e) : (decreaseExponent m e t).2 = t := by
  simp only [decreaseExponent]
  omega

theorem stands_exact (m : ℕ) :
    Stands (ExtendedMantissa.ofMantissaAndAccuracy m .exact) m := rfl

theorem partsOf_round (s : Sign) {m : ℕ} (hm : 0 < m) (e : ℤ) :
    PartsOf (round Format.binary64 s m e) (signed s (nearest (m * 2 ^ e))) := by
  obtain ⟨t, ht⟩ : ∃ t, t = Format.binary64.targetExponent (Float.Model.totalExponent m e) :=
    ⟨_, rfl⟩
  have hvalue := decreaseExponent_eq m e t
  have hpos : 0 < (decreaseExponent m e t).1 := Nat.shiftLeft_pos_iff.mpr hm
  have hplace := lastPlace_eq_targetExponent hpos (Int.floor_natCast _)
    (decreaseExponent m e t).2
  have hsame := lastPlace_eq_targetExponent hm (Int.floor_natCast m) e
  have hle : (decreaseExponent m e t).2 ≤ t := by
    simp only [decreaseExponent]
    omega
  have hround := partsOf_roundWithAccuracy s (stands_exact (decreaseExponent m e t).1)
    (by exact_mod_cast hpos) hplace (by rw [hvalue, hsame, ← ht]; exact hle)
  rw [hvalue] at hround
  unfold Float.Model.UnpackedFloat.round
  rw [← ht]
  exact hround

theorem partsOf_normalize (m e : ℤ) :
    PartsOf (normalize Format.binary64 m e .positive) (nearest (m * 2 ^ e)) := by
  unfold Float.Model.UnpackedFloat.normalize
  rcases lt_trichotomy m 0 with hm | rfl | hm
  · rw [Int.compare_eq_lt.mpr hm]
    have hround := partsOf_round .negative (m := (-m).toNat) (by omega) e
    have hcast : (((-m).toNat : ℕ) : ℚ) = -m := by
      exact_mod_cast congrArg (Int.cast (R := ℚ)) (Int.toNat_of_nonneg (by omega : 0 ≤ -m))
    rw [hcast, neg_mul, nearest_neg] at hround
    simpa only [signed, neg_neg] using hround
  · refine ⟨trivial, ?_⟩
    simp [extent]
  · rw [Int.compare_eq_gt.mpr hm]
    have hround := partsOf_round .positive (m := m.toNat) (by omega) e
    have hcast : ((m.toNat : ℕ) : ℚ) = m := by
      exact_mod_cast congrArg (Int.cast (R := ℚ)) (Int.toNat_of_nonneg hm.le)
    rw [hcast] at hround
    exact hround

/-- Every double is a number of 53 binary places at most. -/
theorem PartsOf.representable {u : Float.Model.UnpackedFloat} {q : ℚ} (h : PartsOf u q) :
    Representable q := by
  obtain ⟨h, hq⟩ := h
  rcases exists_parts hq with ⟨s, rfl, rfl⟩ | ⟨s, m, e, hm, rfl, rfl⟩
  · exact representable_zero
  · have habs : |(m : ℤ)| < 2 ^ 53 := by
      rw [abs_of_nonneg (Int.natCast_nonneg m)]
      exact_mod_cast h.1
    cases s with
    | negative => exact ⟨-m, e, by rw [abs_neg]; exact habs, h.2.1, by simp [signed]⟩
    | positive => exact ⟨m, e, habs, h.2.1, by simp [signed]⟩

/-! ## Parts -/

private theorem signed_natCast (s : Sign) (m : ℕ) (e : ℤ) :
    signed s (m * 2 ^ e) = (s.apply m : ℤ) * 2 ^ e := by
  cases s <;> simp [signed, Sign.apply]

/-- A mantissa at the smaller of two exponents, with its sign. -/
private theorem signed_decreaseExponent (s : Sign) (m : ℕ) {e t : ℤ} (h : t ≤ e) :
    ((s.apply (decreaseExponent m e t).1 : ℤ) : ℚ) * 2 ^ t = signed s (m * 2 ^ e) := by
  rw [← decreaseExponent_eq m e t, signed_natCast, decreaseExponent_snd h]

variable {u v : Float.Model.UnpackedFloat} {p q : ℚ}

theorem PartsOf.add (hu : PartsOf u p) (hv : PartsOf v q) :
    PartsOf (u.add Format.binary64 v) (nearest (p + q)) := by
  rcases exists_parts hu.extent_eq with ⟨s, rfl, rfl⟩ | ⟨s, m, e, hm, rfl, rfl⟩ <;>
    rcases exists_parts hv.extent_eq with ⟨t, rfl, rfl⟩ | ⟨t, n, f, hn, rfl, rfl⟩
  · rw [add_zero, nearest_zero]
    cases s <;> cases t <;> exact ⟨trivial, rfl⟩
  · rw [zero_add, nearest_of_representable hv.representable]
    exact hv
  · rw [add_zero, nearest_of_representable hu.representable]
    exact hu
  · rw [← signed_decreaseExponent s m (min_le_left e f),
      ← signed_decreaseExponent t n (min_le_right e f), ← add_mul, ← Int.cast_add]
    exact partsOf_normalize _ _

theorem PartsOf.sub (hu : PartsOf u p) (hv : PartsOf v q) :
    PartsOf (u.sub Format.binary64 v) (nearest (p - q)) := by
  rcases exists_parts hu.extent_eq with ⟨s, rfl, rfl⟩ | ⟨s, m, e, hm, rfl, rfl⟩ <;>
    rcases exists_parts hv.extent_eq with ⟨t, rfl, rfl⟩ | ⟨t, n, f, hn, rfl, rfl⟩
  · rw [sub_zero, nearest_zero]
    cases s <;> cases t <;> exact ⟨trivial, rfl⟩
  · rw [zero_sub, nearest_neg, nearest_of_representable hv.representable]
    refine ⟨hv.canonical, ?_⟩
    cases t with
    | negative => exact congrArg (fun x => some (Extent.ofRat x)) (neg_neg _).symm
    | positive => rfl
  · rw [sub_zero, nearest_of_representable hu.representable]
    exact hu
  · rw [← signed_decreaseExponent s m (min_le_left e f),
      ← signed_decreaseExponent t n (min_le_right e f), ← sub_mul, ← Int.cast_sub]
    exact partsOf_normalize _ _

/-- The product of two mantissas is long enough to be rounded, or its exponent is small enough. -/
private theorem exponent_le_targetExponent_mul {s t : Sign} {m n : ℕ} {e f : ℤ} {hm : 0 < m}
    {hn : 0 < n} (hu : Canonical (.finite s m e hm)) (hv : Canonical (.finite t n f hn)) :
    e + f ≤ Format.binary64.targetExponent (Float.Model.totalExponent (m * n) (e + f)) := by
  have hmn : 0 < m * n := Nat.mul_pos hm hn
  have hlong : 2 ^ 52 ≤ m * n → 52 ≤ (m * n).log2 := (Nat.le_log2 hmn.ne').mpr
  rw [targetExponent_eq]
  rcases hu.2.2 with h | he
  · have := hlong (le_trans h (Nat.le_mul_of_pos_right m hn))
    omega
  · rcases hv.2.2 with h | hf
    · have := hlong (le_trans h (Nat.le_mul_of_pos_left n hm))
      omega
    · omega

private theorem signed_mul_nearest (s t : Sign) (a b : ℚ) :
    signed (s * t) (nearest (a * b)) = nearest (signed s a * signed t b) := by
  cases s <;> cases t
  · show nearest (a * b) = nearest (-a * -b)
    rw [neg_mul_neg]
  · show -nearest (a * b) = nearest (-a * b)
    rw [neg_mul, nearest_neg]
  · show -nearest (a * b) = nearest (a * -b)
    rw [mul_neg, nearest_neg]
  · rfl

theorem PartsOf.mul (hu : PartsOf u p) (hv : PartsOf v q) :
    PartsOf (u.mul Format.binary64 v) (nearest (p * q)) := by
  rcases exists_parts hu.extent_eq with ⟨s, rfl, rfl⟩ | ⟨s, m, e, hm, rfl, rfl⟩ <;>
    rcases exists_parts hv.extent_eq with ⟨t, rfl, rfl⟩ | ⟨t, n, f, hn, rfl, rfl⟩
  · rw [zero_mul, nearest_zero]
    exact ⟨trivial, rfl⟩
  · rw [zero_mul, nearest_zero]
    exact ⟨trivial, rfl⟩
  · rw [mul_zero, nearest_zero]
    exact ⟨trivial, rfl⟩
  · have hmn : 0 < m * n := Nat.mul_pos hm hn
    have hplace := lastPlace_eq_targetExponent hmn (Int.floor_natCast _) (e + f)
    have hround := partsOf_roundWithAccuracy (s * t) (stands_exact (m * n)) (by exact_mod_cast hmn)
      hplace (by rw [hplace]; exact exponent_le_targetExponent_mul hu.canonical hv.canonical)
    have hvalue : ((m * n : ℕ) : ℚ) * 2 ^ (e + f) = m * 2 ^ e * (n * 2 ^ f) := by
      rw [zpow_add₀ (by norm_num)]
      push_cast
      ring
    rw [hvalue, signed_mul_nearest] at hround
    exact hround

/-- A whole number with the bits for a fraction stands for their sum. -/
private theorem stands_accuracyOfFraction (k : ℕ) {r b : ℕ} (hr : r < b) :
    Stands (ExtendedMantissa.ofMantissaAndAccuracy k (accuracyOfFraction r b))
      ((k : ℚ) + r / b) := by
  have hb : (0 : ℚ) < b := by exact_mod_cast Nat.zero_lt_of_lt hr
  unfold accuracyOfFraction
  split
  · next hzero =>
    subst hzero
    simp only [Stands, ExtendedMantissa.ofMantissaAndAccuracy, Nat.cast_zero, zero_div, add_zero]
  · next hzero =>
    have hpos : 0 < (r : ℚ) / b := div_pos (by exact_mod_cast Nat.pos_of_ne_zero hzero) hb
    rcases lt_trichotomy (2 * r) b with h | h | h
    · have hhalf : (r : ℚ) / b < 1 / 2 := by
        rw [div_lt_div_iff₀ hb (by norm_num)]
        exact_mod_cast (by omega : r * 2 < 1 * b)
      rw [Nat.compare_eq_lt.mpr h]
      simp only [Stands, ExtendedMantissa.ofMantissaAndAccuracy]
      constructor <;> linarith
    · have hhalf : (r : ℚ) / b = 1 / 2 := by
        rw [div_eq_div_iff hb.ne' (by norm_num)]
        exact_mod_cast (by omega : r * 2 = 1 * b)
      rw [Nat.compare_eq_eq.mpr h, hhalf]
      simp only [Stands, ExtendedMantissa.ofMantissaAndAccuracy]
    · have hhalf : 1 / 2 < (r : ℚ) / b := by
        rw [div_lt_div_iff₀ (by norm_num) hb]
        exact_mod_cast (by omega : 1 * b < r * 2)
      have hone : (r : ℚ) / b < 1 := by
        rw [div_lt_one hb]
        exact_mod_cast hr
      rw [Nat.compare_eq_gt.mpr h]
      simp only [Stands, ExtendedMantissa.ofMantissaAndAccuracy]
      constructor <;> linarith

/-- A quotient with its remainder stands for the fraction. -/
theorem stands_fraction (a : ℕ) {b : ℕ} (hb : 0 < b) :
    Stands (ExtendedMantissa.ofMantissaAndAccuracy (a / b) (accuracyOfFraction (a % b) b))
      ((a : ℚ) / b) := by
  have hsplit : (a : ℚ) / b = ((a / b : ℕ) : ℚ) + ((a % b : ℕ) : ℚ) / b := by
    have hb' : (b : ℚ) ≠ 0 := by exact_mod_cast hb.ne'
    rw [div_eq_iff hb', add_mul, div_mul_cancel₀ _ hb', mul_comm _ (b : ℚ)]
    exact_mod_cast (Nat.div_add_mod a b).symm
  rw [hsplit]
  exact stands_accuracyOfFraction _ (Nat.mod_lt a hb)

/-- A quotient of mantissas has as many places as their lengths say, or one less. -/
private theorem le_log_quotient {m n : ℕ} (hm : 0 < m) (hn : 0 < n) (e f : ℤ) :
    (m.log2 : ℤ) + e - n.log2 - f - 1 ≤ Int.log 2 (m * 2 ^ e / (n * 2 ^ f) : ℚ) := by
  have hn' := mantissa_pos hn f
  refine le_log_of_le (div_pos (mantissa_pos hm e) hn') ?_
  rw [le_div_iff₀ hn']
  calc (2 : ℚ) ^ ((m.log2 : ℤ) + e - n.log2 - f - 1) * (n * 2 ^ f)
      ≤ 2 ^ ((m.log2 : ℤ) + e - n.log2 - f - 1) * 2 ^ (((n.log2 + 1 : ℕ) : ℤ) + f) :=
        mul_le_mul_of_nonneg_left (mantissa_lt Nat.lt_log2_self f).le (two_zpow_pos _).le
    _ = 2 ^ ((m.log2 : ℤ) + e) := by
        rw [← zpow_add₀ (by norm_num)]
        congr 1
        omega
    _ ≤ m * 2 ^ e := le_mantissa (Nat.log2_self_le hm.ne') e

/-- The last place of a quotient is the one that its whole part has. -/
private theorem lastPlace_quotient {a n : ℕ} (ha : 0 < a) (hn : 0 < n) {t : ℤ}
    (hle : t ≤ lastPlace ((a : ℚ) / n * 2 ^ t)) :
    lastPlace ((a : ℚ) / n * 2 ^ t) =
      Format.binary64.targetExponent (Float.Model.totalExponent (a / n) t) := by
  have hn' : (0 : ℚ) < n := by exact_mod_cast hn
  rcases Nat.eq_zero_or_pos (a / n) with hzero | hwhole
  · -- a quotient below one is among the smallest doubles
    have hpos : 0 < (a : ℚ) / n * 2 ^ t :=
      mul_pos (div_pos (by exact_mod_cast ha) hn') (two_zpow_pos t)
    have hone : (a : ℚ) / n < 1 := by
      rw [div_lt_one hn']
      exact_mod_cast (Nat.div_eq_zero_iff_lt hn).mp hzero
    have hlog := log_lt_of_lt hpos (mul_lt_of_lt_one_left (two_zpow_pos t) hone)
    rw [hzero, targetExponent_eq]
    unfold lastPlace at hle ⊢
    rw [abs_of_pos hpos] at hle ⊢
    simp only [Nat.log2_zero]
    omega
  · exact lastPlace_eq_targetExponent hwhole (Rat.floor_natCast_div_natCast a n) t

/-- The whole part of a quotient is long enough to be rounded, or its exponent is small enough. -/
private theorem divCore_places {m n : ℕ} (hm : 0 < m) (hn : 0 < n) (e f : ℤ) :
    ∃ k t acc, divCore Format.binary64 m e n f = (k, t, acc) ∧
      ∃ x : ℚ, Stands (ExtendedMantissa.ofMantissaAndAccuracy k acc) x ∧ 0 < x ∧
        x * 2 ^ t = (m * 2 ^ e) / (n * 2 ^ f) ∧
        lastPlace (x * 2 ^ t) =
          Format.binary64.targetExponent (Float.Model.totalExponent k t) ∧
        t ≤ lastPlace (x * 2 ^ t) := by
  have hn' : (0 : ℚ) < n := by exact_mod_cast hn
  obtain ⟨t, ht⟩ : ∃ t, t = min (e - f) (Format.binary64.targetExponent
      (Float.Model.totalExponent m e - Float.Model.totalExponent n f)) := ⟨_, rfl⟩
  obtain ⟨a, ha⟩ : ∃ a, a = m <<< (e - f - t).toNat := ⟨_, rfl⟩
  have hplace : t ≤ max ((m.log2 : ℤ) + e - n.log2 - f - 53) (-1074) := by
    rw [ht]
    refine le_trans (min_le_right _ _) ?_
    simp only [Format.targetExponent, Float.Model.totalExponent, Format.mantissaBits,
      Format.minExponent]
    norm_num
    omega
  have hpos : 0 < a := by
    rw [ha]
    exact Nat.shiftLeft_pos_iff.mpr hm
  have hvalue : (a : ℚ) / n * 2 ^ t = (m * 2 ^ e) / (n * 2 ^ f) := by
    have hshift : (a : ℚ) * 2 ^ t = m * 2 ^ (e - f) := by
      rw [ha, Nat.shiftLeft_eq]
      push_cast
      rw [mul_assoc, two_pow_mul_zpow]
      congr 2
      omega
    rw [div_mul_eq_mul_div, hshift, zpow_sub₀ (by norm_num)]
    have := two_zpow_pos f
    field_simp
  have hx : 0 < (a : ℚ) / n := div_pos (by exact_mod_cast hpos) hn'
  have hle : t ≤ lastPlace ((a : ℚ) / n * 2 ^ t) := by
    have hlog := le_log_quotient hm hn e f
    rw [← hvalue] at hlog
    unfold lastPlace
    rw [abs_of_pos (mul_pos hx (two_zpow_pos t))]
    omega
  refine ⟨a / n, t, accuracyOfFraction (a % n) n, ?_, (a : ℚ) / n, stands_fraction a hn, hx,
    hvalue, lastPlace_quotient hpos hn hle, hle⟩
  unfold divCore
  dsimp only
  rw [← ht, ← ha]

private theorem signed_div_nearest (s t : Sign) (a b : ℚ) :
    signed (s / t) (nearest (a / b)) = nearest (signed s a / signed t b) := by
  cases s <;> cases t
  · show nearest (a / b) = nearest (-a / -b)
    rw [neg_div_neg_eq]
  · show -nearest (a / b) = nearest (-a / b)
    rw [neg_div, nearest_neg]
  · show -nearest (a / b) = nearest (a / -b)
    rw [div_neg, nearest_neg]
  · rfl

theorem PartsOf.div (hu : PartsOf u p) (hv : PartsOf v q) (h0 : q ≠ 0) :
    PartsOf (u.div Format.binary64 v) (nearest (p / q)) := by
  rcases exists_parts hv.extent_eq with ⟨t, rfl, rfl⟩ | ⟨t, n, f, hn, rfl, rfl⟩
  · exact absurd rfl h0
  rcases exists_parts hu.extent_eq with ⟨s, rfl, rfl⟩ | ⟨s, m, e, hm, rfl, rfl⟩
  · rw [zero_div, nearest_zero]
    exact ⟨trivial, rfl⟩
  · obtain ⟨k, g, acc, hcore, x, hx, hpos, hvalue, hplace, hle⟩ := divCore_places hm hn e f
    have hround := partsOf_roundWithAccuracy (s / t) hx hpos hplace hle
    rw [hvalue, signed_div_nearest] at hround
    have hdiv : (UnpackedFloat.finite s m e hm).div Format.binary64 (.finite t n f hn) =
        roundWithAccuracy Format.binary64 (s / t) k g acc := by
      show (match divCore Format.binary64 m e n f with
        | (m, e, acc) => roundWithAccuracy Format.binary64 (s / t) m e acc) = _
      rw [hcore]
    rw [hdiv]
    exact hround

/-- Without its binary places a double is the whole number below its size, with its sign. -/
theorem roundToInt_eq (s : Sign) (m : ℕ) (e : ℤ) :
    roundToInt s m e = s.apply ⌊(m : ℚ) * 2 ^ e⌋ := by
  have hvalue := decreaseExponent_eq m e 0
  have hle : (decreaseExponent m e 0).2 ≤ 0 := by
    simp only [decreaseExponent]
    omega
  have hstands := (stands_exact (decreaseExponent m e 0).1).shiftRight
    (0 - (decreaseExponent m e 0).2).toNat
  have hshift : ((decreaseExponent m e 0).1 : ℚ) / 2 ^ (0 - (decreaseExponent m e 0).2).toNat =
      m * 2 ^ e := by
    rw [← hvalue, ← zpow_natCast, div_eq_mul_inv, ← zpow_neg]
    congr 2
    omega
  rw [hshift] at hstands
  rw [hstands.floor_eq]
  rfl

theorem toNat_toInt (low high : ℤ) (hu : extent u = some (.ofRat q)) :
    (u.toInt low high).toNat = ⌊q⌋.toNat := by
  rcases exists_parts hu with ⟨s, rfl, rfl⟩ | ⟨s, m, e, hm, rfl, rfl⟩
  · rw [Int.floor_zero]
    rfl
  · have hpos := mantissa_pos hm e
    show (roundToInt s m e).toNat = _
    rw [roundToInt_eq]
    cases s with
    | negative =>
      have hsize : 0 ≤ ⌊(m : ℚ) * 2 ^ e⌋ := Int.floor_nonneg.mpr hpos.le
      have hfloor : ⌊-((m : ℚ) * 2 ^ e)⌋ < 0 := Int.floor_lt.mpr (by push_cast; linarith)
      show (-⌊(m : ℚ) * 2 ^ e⌋).toNat = ⌊-((m : ℚ) * 2 ^ e)⌋.toNat
      omega
    | positive => rfl

/-! ## Beyond the doubles -/

theorem eq_notANumber (hu : extent u = none) : u = .notANumber := by
  match u with
  | .notANumber => rfl
  | .infinity .negative => cases hu
  | .infinity .positive => cases hu
  | .zero s => cases hu
  | .finite s m e hm => cases hu

theorem eq_infinity (hu : extent u = some ⊤) : u = .infinity .positive := by
  match u with
  | .notANumber => cases hu
  | .infinity .negative => cases hu
  | .infinity .positive => rfl
  | .zero s => cases hu
  | .finite s m e hm => cases hu

/-- What is beyond the doubles, or no number, stays so when a number is added. -/
theorem add_of_not_rat (hu : ∀ p, extent u ≠ some (.ofRat p)) (hv : extent v = some (.ofRat q)) :
    u.add Format.binary64 v = u := by
  match u, v with
  | .notANumber, _ => rfl
  | .infinity s, .notANumber => cases hv
  | .infinity s, .infinity .negative => cases hv
  | .infinity s, .infinity .positive => cases hv
  | .infinity s, .zero t => rfl
  | .infinity s, .finite t n f hn => rfl
  | .zero s, _ => exact absurd rfl (hu 0)
  | .finite s m e hm, _ => exact absurd rfl (hu _)

theorem add_infinity {p : Extent} (hu : extent u = some p) (hp : p ≠ ⊥) (hv : extent v = some ⊤) :
    u.add Format.binary64 v = .infinity .positive := by
  rw [eq_infinity hv]
  match u with
  | .notANumber => cases hu
  | .infinity .negative => exact absurd (Option.some.inj hu).symm hp
  | .infinity .positive => rfl
  | .zero s => rfl
  | .finite s m e hm => rfl

theorem add_infinity_of_not (hu : ∀ p, extent u = some p → p = ⊥) (hv : extent v = some ⊤) :
    u.add Format.binary64 v = .notANumber := by
  rw [eq_infinity hv]
  match u with
  | .notANumber => rfl
  | .infinity .negative => rfl
  | .infinity .positive => exact absurd (hu _ rfl) WithBot.coe_ne_bot
  | .zero s => exact absurd (hu _ rfl) WithBot.coe_ne_bot
  | .finite s m e hm => exact absurd (hu _ rfl) WithBot.coe_ne_bot

theorem notANumber_sub (v : UnpackedFloat) :
    UnpackedFloat.sub Format.binary64 .notANumber v = .notANumber := by
  cases v <;> rfl

theorem infinity_mul (hu : extent u = some ⊤) (hv : extent v = some (.ofRat q)) (hq : 0 < q) :
    u.mul Format.binary64 v = .infinity .positive := by
  rw [eq_infinity hu]
  rcases exists_parts hv with ⟨s, rfl, rfl⟩ | ⟨s, m, e, hm, rfl, rfl⟩
  · exact absurd hq (lt_irrefl _)
  · cases s with
    | negative => exact absurd hq (neg_neg_of_pos (mantissa_pos hm e)).not_gt
    | positive => rfl

end Double

end Admission
