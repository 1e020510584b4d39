import Admission.Proofs.Amounts
import Admission.Proofs.Nearest

/-!
# Doubles as parts

A double is unpacked into a sign, a mantissa and an exponent, computed with, and packed again.
Rounding shifts the mantissa to its last place and keeps two bits of what is shifted out; these two
bits say enough of the number the mantissa was cut off from (`Stands`) to round it as `nearest`
does.

* `partsOf_roundWithAccuracy` — what is rounded is the nearest double, in canonical parts.
* `PartsOf.extent_unpack_pack` — canonical parts survive packing, up to the largest double.
* `compare_eq` — doubles compare as what they stand for.
-/

open Float.Model Float.Model.UnpackedFloat

namespace Admission

namespace Double

/-! ## Rounding a mantissa -/

/-- A mantissa with its two extra bits stands for a number that it is cut off from. -/
def Stands (em : ExtendedMantissa) (x : ℚ) : Prop :=
  match em.roundBit, em.stickyBit with
  | false, false => x = em.mantissa
  | false, true => (em.mantissa : ℚ) < x ∧ x < em.mantissa + 1 / 2
  | true, false => x = em.mantissa + 1 / 2
  | true, true => (em.mantissa : ℚ) + 1 / 2 < x ∧ x < em.mantissa + 1

theorem Stands.floor_eq {em : ExtendedMantissa} {x : ℚ} (h : Stands em x) :
    ⌊x⌋ = em.mantissa := by
  obtain ⟨m, r, s⟩ := em
  rw [Int.floor_eq_iff]
  push_cast
  cases r <;> cases s <;> simp only [Stands] at h <;> constructor <;> linarith

theorem Stands.roundedMantissa_eq {em : ExtendedMantissa} {x : ℚ} (h : Stands em x) :
    (em.roundedMantissa : ℤ) = roundEven x := by
  have hfloor := h.floor_eq
  obtain ⟨m, r, s⟩ := em
  dsimp only at hfloor
  unfold roundEven
  rw [hfloor]
  push_cast
  cases r <;> cases s <;> simp only [Stands] at h <;>
    simp only [ExtendedMantissa.roundedMantissa, ExtendedMantissa.accuracy,
      Accuracy.roundToNearestEven] <;>
    split_ifs <;> first | (push_cast; omega) | (exfalso; linarith)

theorem Stands.shiftRightOne {em : ExtendedMantissa} {x : ℚ} (h : Stands em x) :
    Stands em.shiftRightOne (x / 2) := by
  obtain ⟨m, r, s⟩ := em
  have hm : (m : ℚ) = ((m % 2 : ℕ) : ℚ) + 2 * ((m / 2 : ℕ) : ℚ) := by
    exact_mod_cast (Nat.mod_add_div m 2).symm
  -- the last bit of the mantissa becomes the bit for one half
  rcases Nat.mod_two_eq_zero_or_one m with hbit | hbit
  · rw [hbit] at hm
    cases r <;> cases s <;>
      simp only [Stands, ExtendedMantissa.shiftRightOne, hbit, bne_self_eq_false, Bool.or_self,
        Bool.or_true, Bool.true_or, Nat.cast_zero, zero_add] at h hm ⊢ <;>
      first | linarith | (constructor <;> linarith)
  · rw [hbit] at hm
    have hone : ((1 : ℕ) != 0) = true := rfl
    cases r <;> cases s <;>
      simp only [Stands, ExtendedMantissa.shiftRightOne, hbit, hone, Bool.or_self, Bool.or_true,
        Bool.true_or, Nat.cast_one] at h hm ⊢ <;>
      first | linarith | (constructor <;> linarith)

theorem Stands.shiftRight {em : ExtendedMantissa} {x : ℚ} (h : Stands em x) (n : ℕ) :
    Stands (em >>> n) (x / 2 ^ n) := by
  induction n with
  | zero => simpa [HShiftRight.hShiftRight, Nat.repeat] using h
  | succ n ih =>
    have hstep := ih.shiftRightOne
    rw [div_div, ← pow_succ] at hstep
    exact hstep

theorem targetExponent_eq (m : ℕ) (e : ℤ) :
    Format.binary64.targetExponent (Float.Model.totalExponent m e) =
      max ((m.log2 : ℤ) + e - 52) (-1074) := by
  simp only [Format.targetExponent, Float.Model.totalExponent, Format.mantissaBits,
    Format.minExponent]
  norm_num
  omega

theorem mantissa_pos {m : ℕ} (hm : 0 < m) (e : ℤ) : 0 < (m : ℚ) * 2 ^ e :=
  mul_pos (by exact_mod_cast hm) (two_zpow_pos e)

theorem mantissa_lt {m k : ℕ} (h : m < 2 ^ k) (e : ℤ) : (m : ℚ) * 2 ^ e < 2 ^ (k + e) := by
  rw [← two_pow_mul_zpow]
  exact mul_lt_mul_of_pos_right (by exact_mod_cast h) (two_zpow_pos e)

theorem le_mantissa {m k : ℕ} (h : 2 ^ k ≤ m) (e : ℤ) : 2 ^ (k + e) ≤ (m : ℚ) * 2 ^ e := by
  rw [← two_pow_mul_zpow]
  exact mul_le_mul_of_nonneg_right (by exact_mod_cast h) (two_zpow_pos e).le

theorem lastPlace_eq_targetExponent {x : ℚ} {m : ℕ} (hm : 0 < m) (hx : ⌊x⌋ = m) (e : ℤ) :
    lastPlace (x * 2 ^ e) = Format.binary64.targetExponent (Float.Model.totalExponent m e) := by
  obtain ⟨hlow, hhigh⟩ := Int.floor_eq_iff.mp hx
  have hm' : (0 : ℚ) < m := by exact_mod_cast hm
  have hpos : 0 < x := lt_of_lt_of_le hm' (by exact_mod_cast hlow)
  have hpos' : 0 < x * 2 ^ e := mul_pos hpos (two_zpow_pos e)
  have hge : (m.log2 : ℤ) + e ≤ Int.log 2 (x * 2 ^ e) :=
    le_log_of_le hpos' ((le_mantissa (Nat.log2_self_le hm.ne') e).trans
      (mul_le_mul_of_nonneg_right hlow (two_zpow_pos e).le))
  have hlt : Int.log 2 (x * 2 ^ e) < (m.log2 + 1 : ℕ) + e := by
    refine log_lt_of_lt hpos' ?_
    rw [← two_pow_mul_zpow]
    refine mul_lt_mul_of_pos_right (lt_of_lt_of_le hhigh ?_) (two_zpow_pos e)
    exact_mod_cast Nat.lt_log2_self (n := m)
  rw [targetExponent_eq]
  unfold lastPlace
  rw [abs_of_pos hpos']
  omega

/-! ## Parts of doubles -/

/-- The parts that a double can have. -/
def Canonical : Float.Model.UnpackedFloat → Prop
  | .finite _ m e _ => m < 2 ^ 53 ∧ -1074 ≤ e ∧ (2 ^ 52 ≤ m ∨ e = -1074)
  | _ => True

/-- A number with the sign of a double. -/
def signed : Sign → ℚ → ℚ
  | .negative, q => -q
  | .positive, q => q

/-- What a double stands for: a rational number or, beyond the largest, infinity, and nothing if
it is no number. -/
def extent : Float.Model.UnpackedFloat → Option Extent
  | .notANumber => none
  | .infinity .positive => some ⊤
  | .infinity .negative => some ⊥
  | .zero _ => some (.ofRat 0)
  | .finite s m e _ => some (.ofRat (signed s (m * 2 ^ e)))

/-- A double that stands for a rational is a zero or finite. -/
theorem exists_parts {u : Float.Model.UnpackedFloat} {q : ℚ} (h : extent u = some (.ofRat q)) :
    (∃ s, u = .zero s ∧ q = 0) ∨
      ∃ s m e hm, u = .finite s m e hm ∧ q = signed s (m * 2 ^ e) := by
  match u with
  | .notANumber => cases h
  | .infinity .negative => cases h
  | .infinity .positive => cases h
  | .zero s => exact Or.inl ⟨s, rfl, (Extent.ofRat_inj.mp (Option.some.inj h)).symm⟩
  | .finite s m e hm =>
    exact Or.inr ⟨s, m, e, hm, rfl, (Extent.ofRat_inj.mp (Option.some.inj h)).symm⟩

/-- Canonical parts of a double that stands for a rational. -/
structure PartsOf (u : Float.Model.UnpackedFloat) (q : ℚ) : Prop where
  canonical : Canonical u
  extent_eq : extent u = some (.ofRat q)

/-! ## Rounding -/

/-- A mantissa of 53 bits at most is left as it is; the next one carries. -/
theorem shiftToTargetExponent_exact {r : ℕ} {t : ℤ} (hr : r ≤ 2 ^ 53) (ht : -1074 ≤ t) :
    shiftToTargetExponent Format.binary64 r t .exact =
      if r < 2 ^ 53 then (⟨r, false, false⟩, t) else (⟨2 ^ 52, false, false⟩, t + 1) := by
  unfold shiftToTargetExponent shiftToExponent
  rw [targetExponent_eq]
  dsimp only
  split
  · next hlt =>
    have hlog : r.log2 ≤ 52 := by
      rcases Nat.eq_zero_or_pos r with rfl | hpos
      · simp
      · exact Nat.le_of_lt_succ ((Nat.log2_lt hpos.ne').mpr hlt)
    have hstay : (max ((r.log2 : ℤ) + t - 52) (-1074) - t).toNat = 0 := by omega
    rw [hstay]
    simp [HShiftRight.hShiftRight, Nat.repeat, ExtendedMantissa.ofMantissaAndAccuracy]
  · next hlt =>
    obtain rfl : r = 2 ^ 53 := by omega
    have hcarry : (max (((2 ^ 53 : ℕ).log2 : ℤ) + t - 52) (-1074) - t).toNat = 1 := by
      rw [Nat.log2_two_pow]
      omega
    rw [hcarry]
    simp [HShiftRight.hShiftRight, Nat.repeat, ExtendedMantissa.ofMantissaAndAccuracy,
      ExtendedMantissa.shiftRightOne]

/-- The first shift goes to the last place of the number, and the mantissa that is rounded there
counts the units of the nearest double. -/
private theorem shiftToTargetExponent_eq {m : ℕ} {e : ℤ} {acc : Accuracy} {x : ℚ}
    (hx : Stands (ExtendedMantissa.ofMantissaAndAccuracy m acc) x)
    (hplace : lastPlace (x * 2 ^ e) =
      Format.binary64.targetExponent (Float.Model.totalExponent m e))
    (he : e ≤ lastPlace (x * 2 ^ e)) :
    ∃ em, shiftToTargetExponent Format.binary64 m e acc = (em, lastPlace (x * 2 ^ e)) ∧
      (em.roundedMantissa : ℤ) = roundEven (x * 2 ^ e / 2 ^ lastPlace (x * 2 ^ e)) := by
  generalize lastPlace (x * 2 ^ e) = t at *
  refine ⟨ExtendedMantissa.ofMantissaAndAccuracy m acc >>> (t - e).toNat, ?_, ?_⟩
  · unfold shiftToTargetExponent shiftToExponent
    rw [← hplace]
    exact Prod.ext rfl (by dsimp only; omega)
  · have hscale : x / 2 ^ (t - e).toNat = x * 2 ^ e / 2 ^ t := by
      rw [← zpow_natCast, Int.toNat_of_nonneg (by omega), zpow_sub₀ (by norm_num)]
      field_simp
    rw [← hscale]
    exact (hx.shiftRight (t - e).toNat).roundedMantissa_eq

/-- Rounding gives the nearest double of the number that a mantissa stands for. -/
theorem partsOf_roundWithAccuracy (s : Sign) {m : ℕ} {e : ℤ} {acc : Accuracy} {x : ℚ}
    (hx : Stands (ExtendedMantissa.ofMantissaAndAccuracy m acc) x) (hpos : 0 < x)
    (hplace : lastPlace (x * 2 ^ e) =
      Format.binary64.targetExponent (Float.Model.totalExponent m e))
    (he : e ≤ lastPlace (x * 2 ^ e)) :
    PartsOf (roundWithAccuracy Format.binary64 s m e acc)
      (signed s (nearest (x * 2 ^ e))) := by
  have hpos' : 0 < x * 2 ^ e := mul_pos hpos (two_zpow_pos e)
  obtain ⟨em, hfirst, hround⟩ := shiftToTargetExponent_eq hx hplace he
  obtain ⟨t, ht⟩ : ∃ t, t = lastPlace (x * 2 ^ e) := ⟨_, rfl⟩
  obtain ⟨r, hr⟩ : ∃ r, r = em.roundedMantissa := ⟨_, rfl⟩
  rw [← hr, ← ht] at hround
  rw [← ht] at hfirst
  have hlow : -1074 ≤ t := by rw [ht]; exact le_max_right _ _
  have hnearest : nearest (x * 2 ^ e) = r * 2 ^ t := by
    unfold nearest
    rw [← ht, ← hround]
    push_cast
    rfl
  have hbound : r ≤ 2 ^ 53 := by
    have hle := roundEven_units_le hpos'
    rw [← ht, ← hround] at hle
    exact_mod_cast hle
  have hnormal : 2 ^ 52 ≤ r ∨ t = -1074 := by
    rcases hlow.lt_or_eq with hlt | heq
    · left
      have hle := le_roundEven_units hpos' (by rw [← ht]; exact hlt)
      rw [← ht, ← hround] at hle
      exact_mod_cast hle
    · exact Or.inr heq.symm
  unfold roundWithAccuracy
  rw [hfirst]
  dsimp only
  rw [← hr, shiftToTargetExponent_exact hbound hlow, hnearest]
  split
  · next hlt =>
    dsimp only
    split
    · next hzero =>
      refine ⟨trivial, ?_⟩
      cases s <;> simp [extent, signed, hzero]
    · exact ⟨⟨hlt, hlow, hnormal⟩, rfl⟩
  · next hlt =>
    -- the mantissa is one too long and is shifted once more
    obtain rfl : r = 2 ^ 53 := by omega
    refine ⟨⟨by norm_num, by omega, Or.inl le_rfl⟩, ?_⟩
    have hcarry : ((2 ^ 52 : ℕ) : ℚ) * 2 ^ (t + 1) = ((2 ^ 53 : ℕ) : ℚ) * 2 ^ t := by
      rw [Nat.cast_pow, Nat.cast_pow, Nat.cast_ofNat, two_pow_mul_zpow, two_pow_mul_zpow]
      congr 1
      omega
    simp only [extent, show ¬ (2 ^ 52 : ℕ) = 0 by norm_num, ↓reduceDIte]
    rw [hcarry]

/-! ## Parts and bits -/

theorem unpack_pack_infinity (s : Sign) :
    (Float.Model.pack (.infinity s)).unpack = .infinity s := by
  cases s <;> rfl

theorem unpack_pack_zero (s : Sign) : (Float.Model.pack (.zero s)).unpack = .zero s := by
  cases s <;> rfl

theorem toNat_append_one (m : BitVec 52) : (1#1 ++ m).toNat = 2 ^ 52 + m.toNat := by
  rw [BitVec.toNat_append, ← Nat.shiftLeft_add_eq_or_of_lt m.isLt]
  rfl

private theorem toNat_ofNat_of_lt {w k : ℕ} (hk : k < 2 ^ w) : (BitVec.ofNat w k).toNat = k := by
  rw [BitVec.toNat_ofNat, Nat.mod_eq_of_lt hk]

private theorem ofNat_ne {w k : ℕ} {c : BitVec w} (hk : k < 2 ^ w) (hne : k ≠ c.toNat) :
    BitVec.ofNat w k ≠ c := by
  rintro rfl
  exact hne (toNat_ofNat_of_lt hk).symm

/-- A normal double: the exponent is stored, and the first bit of the mantissa is not. -/
private theorem unpack_pack_normal {s : Sign} {m : ℕ} {e : ℤ} (hm : 0 < m) (hlt : m < 2 ^ 53)
    (hn : 2 ^ 52 ≤ m) (hlow : -1074 ≤ e) (he : e ≤ 971) :
    unpack Format.binary64 (pack Format.binary64 (.finite s m e hm)) = .finite s m e hm := by
  obtain ⟨b, hb⟩ : ∃ b : ℕ, (b : ℤ) = e + 1075 := ⟨(e + 1075).toNat, by omega⟩
  have hbias : (e + (Format.binary64.exponentBias : ℤ) + (52 : ℕ)).toNat = b := by
    norm_num [Format.exponentBias]
    omega
  have hlog : m.log2 + 1 = Format.binary64.mantissaBits := by
    have hle := (Nat.le_log2 hm.ne').mpr hn
    have hlt := (Nat.log2_lt hm.ne').mpr hlt
    simp only [Format.mantissaBits]
    omega
  have hexp : (BitVec.ofNat 11 b).toNat = b := toNat_ofNat_of_lt (by omega)
  have hexp0 : BitVec.ofNat 11 b ≠ 0#11 := ofNat_ne (by omega) (by simp; omega)
  have hexp1 : BitVec.ofNat 11 b ≠ -1#11 := ofNat_ne (by omega) (by simp; omega)
  have hmant : (1#1 ++ BitVec.ofNat 52 m).toNat = m := by
    rw [toNat_append_one, BitVec.toNat_ofNat]
    omega
  unfold Float.Model.UnpackedFloat.pack
  dsimp only
  rw [hbias, if_neg (by norm_num; omega), if_pos hlog]
  unfold Float.Model.UnpackedFloat.unpack
  simp only [unpackMantissa_packComponents, unpackExponent_packComponents,
    unpackSign_packComponents, Sign.ofBitVec_toBitVec, hexp0, hexp1, hexp, hmant, ↓reduceIte]
  congr 1
  norm_num [Format.exponentBias]
  omega

/-- A subnormal double: the stored exponent is zero, and all of the mantissa is stored. -/
private theorem unpack_pack_subnormal {s : Sign} {m : ℕ} (hm : 0 < m) (hn : m < 2 ^ 52) :
    unpack Format.binary64 (pack Format.binary64 (.finite s m (-1074) hm)) =
      .finite s m (-1074) hm := by
  have hbias : (-1074 + (Format.binary64.exponentBias : ℤ) + (52 : ℕ)).toNat = 1 := by
    norm_num [Format.exponentBias]
  have hlog : ¬ m.log2 + 1 = Format.binary64.mantissaBits := by
    have hlt := (Nat.log2_lt hm.ne').mpr hn
    simp only [Format.mantissaBits]
    omega
  have hmant : (BitVec.ofNat 52 m).toNat = m := toNat_ofNat_of_lt hn
  have hmant0 : BitVec.ofNat 52 m ≠ 0#52 := ofNat_ne hn hm.ne'
  have hexp1 : (0#11) ≠ -1#11 := by decide
  unfold Float.Model.UnpackedFloat.pack
  dsimp only
  rw [hbias, if_neg (by norm_num), if_neg hlog]
  unfold Float.Model.UnpackedFloat.unpack
  simp only [unpackMantissa_packComponents, unpackExponent_packComponents,
    unpackSign_packComponents, Sign.ofBitVec_toBitVec, hexp1, hmant0, hmant, ↓reduceIte,
    ↓reduceDIte]
  congr 1

/-- Canonical parts whose exponent has room in the bits are read back. -/
theorem unpack_pack_finite {s : Sign} {m : ℕ} {e : ℤ} (hm : 0 < m)
    (h : Canonical (.finite s m e hm)) (he : e ≤ 971) :
    (Float.Model.pack (.finite s m e hm)).unpack = .finite s m e hm := by
  obtain ⟨hlt, hlow, hnormal⟩ := h
  by_cases hn : 2 ^ 52 ≤ m
  · exact unpack_pack_normal hm hlt hn hlow he
  · obtain rfl : e = -1074 := hnormal.resolve_left hn
    exact unpack_pack_subnormal hm (not_le.mp hn)

theorem unpack_pack_finite_of_large {s : Sign} {m : ℕ} {e : ℤ} (hm : 0 < m) (he : 972 ≤ e) :
    (Float.Model.pack (.finite s m e hm)).unpack = .infinity s := by
  rw [← unpack_pack_infinity s]
  congr 1
  show Float.Model.mk _ _ = Float.Model.mk _ _
  congr 2
  show pack Format.binary64 _ = pack Format.binary64 _
  unfold Float.Model.UnpackedFloat.pack
  dsimp only
  rw [if_pos]
  norm_num [Format.exponentBias]
  omega

/-- The parts of a double are canonical. -/
theorem canonical_unpack (x : Float.Model) : Canonical x.unpack := by
  unfold Float.Model.unpack Float.Model.UnpackedFloat.unpack
  dsimp only
  have hmant : (@unpackMantissa Format.binary64 x.toBits.toBitVec).toNat < 2 ^ 52 :=
    (@unpackMantissa Format.binary64 x.toBits.toBitVec).isLt
  split
  · split <;> trivial
  · split
    · next hzero =>
      split
      · trivial
      · -- a subnormal double
        rw [hzero]
        refine ⟨by omega, ?_, Or.inr ?_⟩ <;> norm_num [Format.exponentBias]
    · next hexp =>
      have hpos : (@unpackExponent Format.binary64 x.toBits.toBitVec).toNat ≠ 0 :=
        fun h => hexp (BitVec.eq_of_toNat_eq h)
      refine ⟨?_, ?_, Or.inl ?_⟩
      · rw [toNat_append_one]
        omega
      · norm_num [Format.exponentBias]
        omega
      · rw [toNat_append_one]
        omega

/-- The parts that were read from a double make it up again. -/
theorem pack_unpack (m : Float.Model) : Float.Model.pack m.unpack = m := by
  obtain ⟨⟨b⟩, hb⟩ := m
  have hbits : UnpackedFloat.pack Format.binary64 (UnpackedFloat.unpack Format.binary64 b) = b :=
    pack_unpack_of_valid hb
  show Float.Model.mk ⟨UnpackedFloat.pack Format.binary64
    (UnpackedFloat.unpack Format.binary64 b)⟩ _ = Float.Model.mk ⟨b⟩ _
  congr 2

/-! ## The largest double -/

/-- The first power of two beyond the doubles. -/
def limit : ℚ := 2 ^ (1024 : ℤ)

theorem limit_pos : 0 < limit := two_zpow_pos _

/-- A number as the doubles show it: beyond the largest of them it is infinity. -/
def saturate (q : ℚ) : Extent :=
  if limit ≤ q then ⊤ else if q ≤ -limit then ⊥ else .ofRat q

theorem limit_representable : Representable limit :=
  ⟨1, 1024, by norm_num, by norm_num, by rw [limit]; norm_num⟩

theorem two_zpow_lt_limit {e : ℤ} (h : e < 1024) : (2 : ℚ) ^ e < limit :=
  zpow_lt_zpow_right₀ (by norm_num) h

theorem saturate_of_abs_lt {q : ℚ} (h : |q| < limit) : saturate q = .ofRat q := by
  rw [abs_lt] at h
  unfold saturate
  rw [if_neg (not_le.mpr h.2), if_neg (not_le.mpr h.1)]

theorem saturate_of_limit_le {q : ℚ} (h : limit ≤ q) : saturate q = ⊤ := if_pos h

theorem saturate_of_le_neg_limit {q : ℚ} (h : q ≤ -limit) : saturate q = ⊥ := by
  have hpos := limit_pos
  unfold saturate
  rw [if_neg (by linarith), if_pos h]

/-- Numbers that doubles can be are not beyond the doubles when they are small. -/
theorem saturate_of_le {p b : ℚ} (h0 : 0 ≤ p) (hp : p ≤ b) (hb : b < limit) :
    saturate p = .ofRat p :=
  saturate_of_abs_lt (by rw [abs_of_nonneg h0]; exact lt_of_le_of_lt hp hb)

theorem saturate_zero : saturate 0 = .ofRat 0 :=
  saturate_of_abs_lt (by rw [abs_zero]; exact limit_pos)

theorem saturate_mono {p q : ℚ} (h : p ≤ q) : saturate p ≤ saturate q := by
  have hpos := limit_pos
  unfold saturate
  split_ifs <;>
    first
      | exact le_rfl
      | exact le_top
      | exact bot_le
      | (exfalso; linarith)
      | exact_mod_cast h

theorem ofRat_zero_le_saturate {p : ℚ} (h : 0 ≤ p) : .ofRat 0 ≤ saturate (nearest p) := by
  rw [← saturate_zero]
  exact saturate_mono (nearest_nonneg h)

/-- What is left of canonical parts after they were stored: the same number, or infinity. -/
theorem PartsOf.extent_unpack_pack {u : Float.Model.UnpackedFloat} {q : ℚ} (h : PartsOf u q) :
    extent (Float.Model.pack u).unpack = some (saturate q) := by
  obtain ⟨h, hq⟩ := h
  rcases exists_parts hq with ⟨s, rfl, rfl⟩ | ⟨s, m, e, hm, rfl, rfl⟩
  · rw [unpack_pack_zero, saturate_zero]
    rfl
  · have hpos := mantissa_pos hm e
    have habs : |signed s ((m : ℚ) * 2 ^ e)| = m * 2 ^ e := by
      cases s
      · exact (abs_neg _).trans (abs_of_pos hpos)
      · exact abs_of_pos hpos
    rcases le_or_gt e 971 with he | he
    · -- the mantissa is below 2 ^ 53, so the number is below the limit
      have hlt : (m : ℚ) * 2 ^ e < limit := by
        calc (m : ℚ) * 2 ^ e < 2 ^ (53 + e) := mantissa_lt h.1 e
          _ ≤ limit := zpow_le_zpow_right₀ (by norm_num) (by omega)
      rw [unpack_pack_finite hm h he, hq, saturate_of_abs_lt (by rw [habs]; exact hlt)]
    · have hnormal : 2 ^ 52 ≤ m := h.2.2.resolve_right (by omega)
      have hge : limit ≤ (m : ℚ) * 2 ^ e := by
        calc limit ≤ 2 ^ (52 + e) := zpow_le_zpow_right₀ (by norm_num) (by omega)
          _ ≤ (m : ℚ) * 2 ^ e := le_mantissa hnormal e
      rw [unpack_pack_finite_of_large hm (by omega)]
      cases s with
      | negative => exact congrArg some (saturate_of_le_neg_limit (neg_le_neg hge)).symm
      | positive => exact congrArg some (saturate_of_limit_le hge).symm

/-! ## Comparing -/

/-- Canonical mantissas are compared after their exponents. -/
theorem compare_canonical {s t : Sign} {m n : ℕ} {e f : ℤ} {hm : 0 < m} {hn : 0 < n}
    (hu : Canonical (.finite s m e hm)) (hv : Canonical (.finite t n f hn)) :
    (compare e f).then (compare m n) = cmp ((m : ℚ) * 2 ^ e) (n * 2 ^ f) := by
  -- the smaller exponent leaves no room for the larger number
  have hlt : ∀ {m n : ℕ} {e f : ℤ}, m < 2 ^ 53 → -1074 ≤ e → (2 ^ 52 ≤ n ∨ f = -1074) → e < f →
      (m : ℚ) * 2 ^ e < n * 2 ^ f := by
    intro m n e f hm he hn hef
    have hnormal : 2 ^ 52 ≤ n := hn.resolve_right (by omega)
    calc (m : ℚ) * 2 ^ e < 2 ^ (53 + e) := mantissa_lt hm e
      _ ≤ 2 ^ (52 + f) := zpow_le_zpow_right₀ (by norm_num) (by omega)
      _ ≤ (n : ℚ) * 2 ^ f := le_mantissa hnormal f
  obtain ⟨hm1, he1, hm2⟩ := hu
  obtain ⟨hn1, hf1, hn2⟩ := hv
  rcases lt_trichotomy e f with h | rfl | h
  · rw [Int.compare_eq_lt.mpr h, (cmp_eq_lt_iff _ _).mpr (hlt hm1 he1 hn2 h)]
    rfl
  · rw [Int.compare_eq_eq.mpr rfl]
    show compare m n = _
    rcases lt_trichotomy m n with h | rfl | h
    · rw [Nat.compare_eq_lt.mpr h, eq_comm, cmp_eq_lt_iff]
      exact mul_lt_mul_of_pos_right (by exact_mod_cast h) (two_zpow_pos e)
    · rw [Nat.compare_eq_eq.mpr rfl, cmp_self_eq_eq]
    · rw [Nat.compare_eq_gt.mpr h, eq_comm, cmp_eq_gt_iff]
      exact mul_lt_mul_of_pos_right (by exact_mod_cast h) (two_zpow_pos e)
  · rw [Int.compare_eq_gt.mpr h, (cmp_eq_gt_iff _ _).mpr (hlt hn1 hf1 hm2 h)]
    rfl

/-- Doubles are compared as what they stand for, and not at all if one is no number. -/
theorem compare_eq {u v : Float.Model.UnpackedFloat} (hu : Canonical u) (hv : Canonical v) :
    u.compare v = (extent u).bind fun p => (extent v).map fun q => cmp p q := by
  match u, v, hu, hv with
  | .notANumber, _, _, _ => rfl
  | .infinity s, .notANumber, _, _ => cases s <;> rfl
  | .zero s, .notANumber, _, _ => rfl
  | .finite s m e hm, .notANumber, _, _ => cases s <;> rfl
  | .infinity s, .infinity t, _, _ => cases s <;> cases t <;> rfl
  | .infinity s, .zero t, _, _ => cases s <;> rfl
  | .infinity s, .finite t n f hn, _, _ => cases s <;> rfl
  | .zero s, .infinity t, _, _ => cases t <;> rfl
  | .finite s m e hm, .infinity t, _, _ => cases s <;> cases t <;> rfl
  | .zero s, .zero t, _, _ =>
    show some Ordering.eq = some (cmp _ _)
    rw [cmp_self_eq_eq]
  | .zero s, .finite t n f hn, _, _ =>
    have hn' := mantissa_pos hn f
    cases t with
    | negative =>
      refine congrArg some ((cmp_eq_gt_iff _ _).mpr ?_).symm
      exact_mod_cast neg_neg_of_pos hn'
    | positive =>
      refine congrArg some ((cmp_eq_lt_iff _ _).mpr ?_).symm
      exact_mod_cast hn'
  | .finite s m e hm, .zero t, _, _ =>
    have hm' := mantissa_pos hm e
    cases s with
    | negative =>
      refine congrArg some ((cmp_eq_lt_iff _ _).mpr ?_).symm
      exact_mod_cast neg_neg_of_pos hm'
    | positive =>
      refine congrArg some ((cmp_eq_gt_iff _ _).mpr ?_).symm
      exact_mod_cast hm'
  | .finite s m e hm, .finite t n f hn, hu, hv =>
    have hm' := mantissa_pos hm e
    have hn' := mantissa_pos hn f
    have hcmp := compare_canonical hu hv
    cases s <;> cases t
    · show some ((compare e f).then (compare m n)).swap = some (cmp _ _)
      have hneg : StrictAnti fun q : ℚ => -q := fun _ _ h => neg_lt_neg h
      rw [hcmp, cmp_swap, Extent.cmp_ofRat]
      exact congrArg some (hneg.cmp_map_eq _ _).symm
    · refine congrArg some ((cmp_eq_lt_iff _ _).mpr ?_).symm
      exact_mod_cast (neg_neg_of_pos hm').trans hn'
    · refine congrArg some ((cmp_eq_gt_iff _ _).mpr ?_).symm
      exact_mod_cast (neg_neg_of_pos hn').trans hm'
    · show some ((compare e f).then (compare m n)) = some (cmp _ _)
      rw [hcmp, Extent.cmp_ofRat]
      rfl

end Double

end Admission
