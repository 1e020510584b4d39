import Mathlib

/-!
# The nearest double of a rational

Rounding to 53 binary places is described here over the rationals, apart from how doubles are
stored: a number is counted in units of its last binary place and the count is rounded to a whole
number, halves to the even one.  Exponents have no upper end; what is too large for a double is cut
off later.

* `nearest_mono` — rounding keeps the order, also where the last place changes.
* `nearest_of_representable` — numbers of 53 places are not changed.
* `nearest_add_fraction` — from 2 ^ 53 on a fraction that is added is lost.
* `Representable.sub_natCast` — below 2 ^ 32 whole numbers are subtracted without rounding.
-/

namespace Admission

/-! ## Whole numbers -/

/-- The whole number nearest to a rational; halfway between two it is the even one. -/
def roundEven (x : ℚ) : ℤ :=
  if x - ⌊x⌋ < 1 / 2 then ⌊x⌋
  else if 1 / 2 < x - ⌊x⌋ then ⌊x⌋ + 1
  else ⌊x⌋ + ⌊x⌋ % 2

theorem floor_le_roundEven (x : ℚ) : ⌊x⌋ ≤ roundEven x := by
  unfold roundEven
  split_ifs <;> omega

theorem roundEven_le_floor_add_one (x : ℚ) : roundEven x ≤ ⌊x⌋ + 1 := by
  unfold roundEven
  split_ifs <;> omega

@[simp] theorem roundEven_intCast (k : ℤ) : roundEven k = k := by
  simp [roundEven]

theorem roundEven_mono {x y : ℚ} (h : x ≤ y) : roundEven x ≤ roundEven y := by
  rcases (Int.floor_le_floor h).lt_or_eq with hlt | heq
  · have hx := roundEven_le_floor_add_one x
    have hy := floor_le_roundEven y
    omega
  · -- between the same two whole numbers only the fractions are compared
    unfold roundEven
    rw [heq]
    split_ifs <;> first | omega | (exfalso; linarith)

theorem roundEven_neg (x : ℚ) : roundEven (-x) = -roundEven x := by
  by_cases hx : x = ⌊x⌋
  · have hneg : -x = ((-⌊x⌋ : ℤ) : ℚ) := by push_cast; linarith
    rw [hneg, roundEven_intCast]
    conv_rhs => rw [hx, roundEven_intCast]
  · have hlow : (⌊x⌋ : ℚ) < x := lt_of_le_of_ne (Int.floor_le x) (Ne.symm hx)
    have hhigh := Int.lt_floor_add_one x
    have hfloor : ⌊-x⌋ = -⌊x⌋ - 1 := by
      rw [Int.floor_eq_iff]
      push_cast
      constructor <;> linarith
    unfold roundEven
    rw [hfloor]
    push_cast
    split_ifs <;> first | omega | (exfalso; linarith)

/-! ## Doubles -/

/-- The exponent of the last binary place of the doubles around a rational. -/
def lastPlace (q : ℚ) : ℤ := max (Int.log 2 |q| - 52) (-1074)

/-- The double nearest to a rational, as if exponents had no upper end. -/
def nearest (q : ℚ) : ℚ := roundEven (q / 2 ^ lastPlace q) * 2 ^ lastPlace q

theorem two_zpow_pos (e : ℤ) : (0 : ℚ) < 2 ^ e := zpow_pos (by norm_num) e

theorem two_pow_mul_zpow (k : ℕ) (e : ℤ) : (2 : ℚ) ^ k * 2 ^ e = 2 ^ (k + e) := by
  rw [zpow_add₀ (by norm_num), zpow_natCast]

theorem nearest_neg (q : ℚ) : nearest (-q) = -nearest q := by
  unfold nearest lastPlace
  rw [abs_neg, neg_div, roundEven_neg]
  push_cast
  ring

@[simp] theorem nearest_zero : nearest 0 = 0 := by
  unfold nearest
  rw [zero_div, show (0 : ℚ) = ((0 : ℤ) : ℚ) by norm_num, roundEven_intCast]
  simp

theorem nearest_nonneg {q : ℚ} (h : 0 ≤ q) : 0 ≤ nearest q := by
  have hdiv : 0 ≤ q / 2 ^ lastPlace q := div_nonneg h (two_zpow_pos _).le
  have hround : 0 ≤ roundEven (q / 2 ^ lastPlace q) :=
    le_trans (Int.floor_nonneg.mpr hdiv) (floor_le_roundEven _)
  exact mul_nonneg (by exact_mod_cast hround) (two_zpow_pos _).le

/-- A number of at most 53 binary places is a double. -/
def Representable (q : ℚ) : Prop := ∃ (m e : ℤ), |m| < 2 ^ 53 ∧ -1074 ≤ e ∧ q = m * 2 ^ e

theorem representable_zero : Representable 0 := ⟨0, 0, by norm_num, by norm_num, by norm_num⟩

theorem representable_intCast {k : ℤ} (h : |k| < 2 ^ 53) : Representable k :=
  ⟨k, 0, h, by norm_num, by simp⟩

theorem log_lt_of_lt {q : ℚ} {e : ℤ} (hq : 0 < q) (h : q < 2 ^ e) : Int.log 2 q < e := by
  rw [← Int.lt_zpow_iff_log_lt (by norm_num) hq]
  exact_mod_cast h

theorem le_log_of_le {q : ℚ} {e : ℤ} (hq : 0 < q) (h : 2 ^ e ≤ q) : e ≤ Int.log 2 q := by
  rw [← Int.zpow_le_iff_le_log (by norm_num) hq]
  exact_mod_cast h

theorem two_zpow_log_le {q : ℚ} (hq : 0 < q) : (2 : ℚ) ^ Int.log 2 q ≤ q := by
  exact_mod_cast Int.zpow_log_le_self (b := 2) (by norm_num) hq

theorem lt_two_zpow_log_add_one (q : ℚ) : q < (2 : ℚ) ^ (Int.log 2 q + 1) := by
  exact_mod_cast Int.lt_zpow_succ_log_self (b := 2) (by norm_num) q

/-! ## Units in the last place -/

/-- A number is less than 2 ^ 53 units in its last place. -/
theorem abs_lt_units (q : ℚ) : |q| < 2 ^ 53 * 2 ^ lastPlace q := by
  have hle : Int.log 2 |q| + 1 ≤ 53 + lastPlace q := by
    unfold lastPlace
    omega
  calc |q| < 2 ^ (Int.log 2 |q| + 1) := lt_two_zpow_log_add_one |q|
    _ ≤ 2 ^ (53 + lastPlace q) := zpow_le_zpow_right₀ (by norm_num) hle
    _ = 2 ^ 53 * 2 ^ lastPlace q := (two_pow_mul_zpow 53 _).symm

/-- Above the smallest doubles a number is no less than 2 ^ 52 units in its last place. -/
theorem units_le {q : ℚ} (hq : 0 < q) (h : -1074 < lastPlace q) :
    2 ^ 52 * 2 ^ lastPlace q ≤ q := by
  have hlog : 52 + lastPlace q = Int.log 2 q := by
    unfold lastPlace at h ⊢
    rw [abs_of_pos hq] at h ⊢
    omega
  calc 2 ^ 52 * 2 ^ lastPlace q = 2 ^ (52 + lastPlace q) := two_pow_mul_zpow 52 _
    _ = 2 ^ Int.log 2 q := by rw [hlog]
    _ ≤ q := two_zpow_log_le hq

/-- The last place of a number is not below one that 53 places reach down to. -/
private theorem lastPlace_le {m e : ℤ} (hm0 : m ≠ 0) (hm : |m| < 2 ^ 53) (he : -1074 ≤ e) :
    lastPlace (m * 2 ^ e) ≤ e := by
  have habs : |(m : ℚ) * 2 ^ e| = (|m| : ℤ) * 2 ^ e := by
    rw [abs_mul, abs_of_pos (two_zpow_pos e), Int.cast_abs]
  have hpos : (0 : ℚ) < (|m| : ℤ) * 2 ^ e :=
    mul_pos (by exact_mod_cast abs_pos.mpr hm0) (two_zpow_pos e)
  have hlog : Int.log 2 (((|m| : ℤ) : ℚ) * 2 ^ e) < 53 + e := by
    have hm' : ((|m| : ℤ) : ℚ) < 2 ^ 53 := by exact_mod_cast hm
    refine log_lt_of_lt hpos ?_
    exact (mul_lt_mul_of_pos_right hm' (two_zpow_pos e)).trans_eq (two_pow_mul_zpow 53 e)
  unfold lastPlace
  rw [habs]
  omega

/-- A double is a whole number of units in its own last place. -/
theorem Representable.exists_units {q : ℚ} (h : Representable q) :
    ∃ k : ℤ, |k| < 2 ^ 53 ∧ q = k * 2 ^ lastPlace q := by
  obtain ⟨k, hk⟩ : ∃ k : ℤ, q = k * 2 ^ lastPlace q := by
    obtain ⟨m, e, hm, he, rfl⟩ := h
    rcases eq_or_ne m 0 with rfl | hm0
    · exact ⟨0, by simp⟩
    · have hplace := lastPlace_le hm0 hm he
      generalize lastPlace ((m : ℚ) * 2 ^ e) = t at hplace
      refine ⟨m * 2 ^ (e - t).toNat, ?_⟩
      push_cast
      rw [mul_assoc, two_pow_mul_zpow, Int.toNat_of_nonneg (by omega), sub_add_cancel]
  refine ⟨k, ?_, hk⟩
  have habs : |q| = (|k| : ℤ) * 2 ^ lastPlace q := by
    conv_lhs => rw [hk]
    rw [abs_mul, abs_of_pos (two_zpow_pos _), Int.cast_abs]
  have hlt := abs_lt_units q
  rw [habs] at hlt
  exact_mod_cast lt_of_mul_lt_mul_right hlt (two_zpow_pos _).le

theorem nearest_of_representable {q : ℚ} (h : Representable q) : nearest q = q := by
  obtain ⟨k, _, hk⟩ := h.exists_units
  have hdiv : q / 2 ^ lastPlace q = k := by
    rw [div_eq_iff (two_zpow_pos _).ne']
    exact hk
  unfold nearest
  rw [hdiv, roundEven_intCast, ← hk]

theorem nearest_natCast {n : ℕ} (h : n < 2 ^ 53) : nearest (n : ℚ) = n := by
  refine nearest_of_representable ?_
  exact_mod_cast representable_intCast (k := (n : ℤ)) (by rw [abs_of_nonneg] <;> omega)

/-! ## Order -/

/-- Rounding does not cross the power of two above. -/
theorem roundEven_units_le {q : ℚ} (hq : 0 < q) : roundEven (q / 2 ^ lastPlace q) ≤ 2 ^ 53 := by
  have hlt := abs_lt_units q
  rw [abs_of_pos hq] at hlt
  have hdiv : q / 2 ^ lastPlace q ≤ ((2 ^ 53 : ℤ) : ℚ) := by
    rw [div_le_iff₀ (two_zpow_pos _)]
    exact_mod_cast hlt.le
  have hround := roundEven_mono hdiv
  rw [roundEven_intCast] at hround
  exact hround

/-- Above the smallest doubles rounding does not cross the power of two below. -/
theorem le_roundEven_units {q : ℚ} (hq : 0 < q) (h : -1074 < lastPlace q) :
    2 ^ 52 ≤ roundEven (q / 2 ^ lastPlace q) := by
  have hdiv : ((2 ^ 52 : ℤ) : ℚ) ≤ q / 2 ^ lastPlace q := by
    rw [le_div_iff₀ (two_zpow_pos _)]
    exact_mod_cast units_le hq h
  have hround := roundEven_mono hdiv
  rw [roundEven_intCast] at hround
  exact hround

private theorem nearest_mono_of_pos {p q : ℚ} (hp : 0 < p) (h : p ≤ q) :
    nearest p ≤ nearest q := by
  have hq : 0 < q := lt_of_lt_of_le hp h
  have hplace : lastPlace p ≤ lastPlace q := by
    have hlog := Int.log_mono_right (b := 2) hp h
    unfold lastPlace
    rw [abs_of_pos hp, abs_of_pos hq]
    omega
  rcases hplace.lt_or_eq with hlt | heq
  · -- a power of two lies between the two
    have hlow : -1074 < lastPlace q := by
      have : -1074 ≤ lastPlace p := le_max_right _ _
      omega
    calc nearest p ≤ 2 ^ 53 * 2 ^ lastPlace p :=
          mul_le_mul_of_nonneg_right (by exact_mod_cast roundEven_units_le hp) (two_zpow_pos _).le
      _ = 2 ^ (53 + lastPlace p) := two_pow_mul_zpow 53 _
      _ ≤ 2 ^ (52 + lastPlace q) := zpow_le_zpow_right₀ (by norm_num) (by omega)
      _ = 2 ^ 52 * 2 ^ lastPlace q := (two_pow_mul_zpow 52 _).symm
      _ ≤ nearest q :=
          mul_le_mul_of_nonneg_right (by exact_mod_cast le_roundEven_units hq hlow)
            (two_zpow_pos _).le
  · unfold nearest
    rw [heq]
    have hdiv : p / 2 ^ lastPlace q ≤ q / 2 ^ lastPlace q :=
      div_le_div_of_nonneg_right h (two_zpow_pos _).le
    refine mul_le_mul_of_nonneg_right ?_ (two_zpow_pos _).le
    exact_mod_cast roundEven_mono hdiv

theorem nearest_mono {p q : ℚ} (h : p ≤ q) : nearest p ≤ nearest q := by
  rcases lt_or_ge 0 p with hp | hp
  · exact nearest_mono_of_pos hp h
  · rcases lt_or_ge q 0 with hq | hq
    · have hneg := nearest_mono_of_pos (neg_pos.mpr hq) (neg_le_neg h)
      rw [nearest_neg, nearest_neg] at hneg
      exact neg_le_neg_iff.mp hneg
    · have hlow := nearest_nonneg (neg_nonneg.mpr hp)
      rw [nearest_neg] at hlow
      linarith [nearest_nonneg hq]

/-- Rounding makes nothing of no number that is as large as the smallest double. -/
theorem nearest_ne_zero {q : ℚ} (h : 2 ^ (-1074 : ℤ) ≤ |q|) : nearest q ≠ 0 := by
  have hrep : Representable (2 ^ (-1074 : ℤ)) := ⟨1, -1074, by norm_num, le_rfl, by norm_num⟩
  have hpos : ∀ r : ℚ, 2 ^ (-1074 : ℤ) ≤ r → 0 < nearest r := by
    intro r hr
    refine lt_of_lt_of_le (two_zpow_pos (-1074)) ?_
    rw [← nearest_of_representable hrep]
    exact nearest_mono hr
  rcases le_abs.mp h with h | h
  · exact (hpos q h).ne'
  · have hneg := hpos (-q) h
    rw [nearest_neg] at hneg
    exact (neg_pos.mp hneg).ne

/-! ## Sums and differences -/

/-- From 2 ^ 53 on doubles lie at least two apart, and a fraction is lost on them. -/
theorem nearest_add_fraction {q f : ℚ} (h : Representable q) (hq : 2 ^ 53 ≤ q) (hf : 0 ≤ f)
    (hf1 : f < 1) : nearest (q + f) = q := by
  have hpos : 0 < q := lt_of_lt_of_le (by norm_num) hq
  have hpos' : 0 < q + f := by linarith
  obtain ⟨k, hk53, hk⟩ := h.exists_units
  have hplace : lastPlace q = Int.log 2 q - 52 := by
    have hlog : 53 ≤ Int.log 2 q := le_log_of_le hpos (by exact_mod_cast hq)
    unfold lastPlace
    rw [abs_of_pos hpos]
    omega
  have htwo : (2 : ℚ) ≤ 2 ^ lastPlace q := by
    have hlog : 53 ≤ Int.log 2 q := le_log_of_le hpos (by exact_mod_cast hq)
    calc (2 : ℚ) = 2 ^ (1 : ℤ) := by norm_num
      _ ≤ 2 ^ lastPlace q := zpow_le_zpow_right₀ (by norm_num) (by omega)
  -- one more unit is still within the next power of two, so the sum has the same last place
  have hbelow : q + f < 2 ^ (53 + lastPlace q) := by
    have hnext : (k : ℚ) + 1 ≤ 2 ^ 53 := by
      exact_mod_cast Int.add_one_le_of_lt (lt_of_le_of_lt (le_abs_self k) hk53)
    have hmul := mul_le_mul_of_nonneg_right hnext (two_zpow_pos (lastPlace q)).le
    rw [add_mul, one_mul, ← hk, two_pow_mul_zpow] at hmul
    exact lt_of_lt_of_le (by linarith) hmul
  have hsame : lastPlace (q + f) = lastPlace q := by
    have hle := log_lt_of_lt hpos' hbelow
    have hge := Int.log_mono_right (b := 2) hpos (show q ≤ q + f by linarith)
    unfold lastPlace at hle hplace ⊢
    rw [abs_of_pos hpos] at hle hplace ⊢
    rw [abs_of_pos hpos']
    omega
  have hfloor : ⌊(q + f) / 2 ^ lastPlace q⌋ = k := by
    rw [Int.floor_eq_iff, le_div_iff₀ (two_zpow_pos _), div_lt_iff₀ (two_zpow_pos _), add_mul, ← hk]
    constructor <;> linarith
  have hround : roundEven ((q + f) / 2 ^ lastPlace q) = k := by
    have hfrac : (q + f) / 2 ^ lastPlace q - k = f / 2 ^ lastPlace q := by
      rw [sub_eq_iff_eq_add, div_eq_iff (two_zpow_pos _).ne', add_mul,
        div_mul_cancel₀ _ (two_zpow_pos _).ne', ← hk]
      ring
    unfold roundEven
    rw [hfloor, hfrac, if_pos]
    rw [div_lt_iff₀ (two_zpow_pos _)]
    linarith
  unfold nearest
  rw [hsame, hround, ← hk]

/-- A double of at most 2 ^ 32 keeps all its places when whole numbers are subtracted. -/
theorem Representable.sub_natCast {p : ℚ} {n : ℕ} (hp : Representable p) (hn : (n : ℚ) ≤ p)
    (hmost : p ≤ 4294967295) : Representable (p - n) := by
  have hn0 : (0 : ℚ) ≤ n := Nat.cast_nonneg n
  rcases eq_or_lt_of_le (hn0.trans hn) with h0 | hpos
  · have hzero : p - n = 0 := by linarith
    rw [hzero]
    exact representable_zero
  · obtain ⟨k, hk53, hk⟩ := hp.exists_units
    have hunit := two_zpow_pos (lastPlace p)
    obtain ⟨j, hj⟩ : ∃ j : ℕ, lastPlace p = -j := by
      have hlog : Int.log 2 p < 32 := log_lt_of_lt hpos (lt_of_le_of_lt hmost (by norm_num))
      refine ⟨(-lastPlace p).toNat, ?_⟩
      unfold lastPlace
      rw [abs_of_pos hpos]
      omega
    -- a whole number is a whole number of units as well, and there are no more of them
    have hwhole : (n : ℚ) = ((n * 2 ^ j : ℤ) : ℚ) * 2 ^ lastPlace p := by
      rw [hj, zpow_neg, zpow_natCast]
      push_cast
      field_simp
    have hdiff : p - n = ((k - n * 2 ^ j : ℤ) : ℚ) * 2 ^ lastPlace p := by
      rw [Int.cast_sub, sub_mul, ← hwhole, ← hk]
    have hk0 : 0 ≤ k - n * 2 ^ j := by
      have hle : (0 : ℚ) ≤ ((k - n * 2 ^ j : ℤ) : ℚ) * 2 ^ lastPlace p := by
        rw [← hdiff]
        linarith
      exact_mod_cast nonneg_of_mul_nonneg_left hle hunit
    have hj0 : 0 ≤ (n : ℤ) * 2 ^ j := by positivity
    refine ⟨k - n * 2 ^ j, lastPlace p, ?_, le_max_right _ _, hdiff⟩
    rw [abs_lt] at hk53
    rw [abs_of_nonneg hk0]
    omega

/-- The nearest double of a fraction of a second is less than a second. -/
theorem nearest_fraction_lt {k : ℕ} (hk : k < 1000000000) :
    nearest ((k : ℚ) / 1000000000) < 1 := by
  -- this double is nearer to one than any number of nanoseconds
  have hrep : Representable (((2 ^ 30 - 1 : ℤ) : ℚ) * 2 ^ (-30 : ℤ)) :=
    ⟨2 ^ 30 - 1, -30, by norm_num, by norm_num, rfl⟩
  have hbelow : (k : ℚ) / 1000000000 ≤ ((2 ^ 30 - 1 : ℤ) : ℚ) * 2 ^ (-30 : ℤ) := by
    have hk' : (k : ℚ) ≤ 999999999 := by exact_mod_cast (by omega : k ≤ 999999999)
    rw [div_le_iff₀ (by norm_num)]
    norm_num
    linarith
  calc nearest ((k : ℚ) / 1000000000) ≤ nearest (((2 ^ 30 - 1 : ℤ) : ℚ) * 2 ^ (-30 : ℤ)) :=
        nearest_mono hbelow
    _ = ((2 ^ 30 - 1 : ℤ) : ℚ) * 2 ^ (-30 : ℤ) := nearest_of_representable hrep
    _ < 1 := by norm_num

end Admission
