import Admission.Proofs.DoubleArithmetic

/-!
# Floats as amounts

`worth` is what a float stands for, and every operation on floats is one on worths: compared
exactly, rounded to the nearest double, and infinite beyond the largest.  On that a bucket can rely:

* whole numbers of tokens are counted exactly, taken out exactly and put back exactly;
* the seconds of a span, which are rounded in three places, keep the order of spans
  (`roundedSeconds_mono`), so a longer time never brings in less (`worth_income`).

Infinities arise from rates and spans that are large enough, and what is no number arises where an
infinite amount meets its opposite; the laws hold there too.
-/

open Float.Model Float.Model.UnpackedFloat

namespace Admission

namespace Double

/-- What a float stands for. -/
def worth (x : Float) : Option Extent := extent x.toModel.unpack

variable {x y z : Float} {p q : ℚ}

/-! ## Comparing -/

theorem le_iff : x ≤ y ↔ ∃ u v, worth x = some u ∧ worth y = some v ∧ u ≤ v := by
  have hle : x ≤ y ↔ (x.toModel.unpack.compare y.toModel.unpack).any (·.isLE) = true := by
    show decide (x.toModel ≤ y.toModel) = true ↔ _
    rw [decide_eq_true_iff]
    rfl
  rw [hle, compare_eq (canonical_unpack _) (canonical_unpack _)]
  unfold worth
  cases extent x.toModel.unpack <;> cases extent y.toModel.unpack <;>
    simp [Ordering.isLE_iff_ne_gt, cmp_eq_gt_iff]

theorem lt_iff : x < y ↔ ∃ u v, worth x = some u ∧ worth y = some v ∧ u < v := by
  have hlt : x < y ↔ x.toModel.unpack.compare y.toModel.unpack = some .lt := by
    show decide (x.toModel < y.toModel) = true ↔ _
    rw [decide_eq_true_iff]
    show (x.toModel.unpack.compare y.toModel.unpack == some .lt) = true ↔ _
    exact beq_iff_eq
  rw [hlt, compare_eq (canonical_unpack _) (canonical_unpack _)]
  unfold worth
  cases extent x.toModel.unpack <;> cases extent y.toModel.unpack <;> simp [cmp_eq_lt_iff]

/-- A float is made up of its parts. -/
theorem eq_of_unpack (h : x.toModel.unpack = y.toModel.unpack) : x = y := by
  obtain ⟨⟨a, ha⟩⟩ := x
  obtain ⟨⟨b, hb⟩⟩ := y
  obtain rfl : a = b := UInt64.eq_of_toBitVec_eq ((unpack_inj_of_valid ha hb).mp h)
  rfl

/-- Floats that stand for the same are equal, save that there are two zeros. -/
theorem eq_of_worth {u : Extent} (hx : worth x = some u) (hy : worth y = some u)
    (h0 : u ≠ .ofRat 0) : x = y := by
  have hcompare : x.toModel.unpack.compare y.toModel.unpack = some .eq := by
    unfold worth at hx hy
    rw [compare_eq (canonical_unpack _) (canonical_unpack _), hx, hy]
    simp [cmp_self_eq_eq]
  have hparts : x.toModel.unpack = y.toModel.unpack := by
    have hbeq : x.toModel.unpack.beq y.toModel.unpack = true := by
      show (x.toModel.unpack.compare y.toModel.unpack == some .eq) = true
      rw [hcompare]
      rfl
    obtain ⟨_, _, hsame | ⟨hzero, _⟩ | ⟨hzero, _⟩⟩ := (beq_iff_ne_notANumber_and_eq _ _).mp hbeq
    · exact hsame
    all_goals
      unfold worth at hx
      rw [hzero] at hx
      exact absurd (Option.some.inj hx).symm h0
  exact eq_of_unpack hparts

/-! ## Numbers that floats stand for -/

theorem partsOf_unpack (hx : worth x = some (.ofRat p)) : PartsOf x.toModel.unpack p :=
  ⟨canonical_unpack _, hx⟩

theorem representable_of_worth (hx : worth x = some (.ofRat p)) : Representable p :=
  (partsOf_unpack hx).representable

theorem saturate_of_worth (hx : worth x = some (.ofRat p)) : saturate p = .ofRat p := by
  have h := (partsOf_unpack hx).extent_unpack_pack
  rw [pack_unpack] at h
  exact Option.some.inj (h.symm.trans hx)

theorem partsOf_normalize_natCast (n : ℕ) :
    PartsOf (normalize Format.binary64 n 0 .positive) (nearest n) := by
  have h := partsOf_normalize n 0
  rw [zpow_zero, mul_one] at h
  exact h

theorem worth_ofCount (n : Count) : worth n.toFloat = some (.ofRat n.toNat) := by
  have hlt := n.toNat_lt
  have h := (partsOf_normalize_natCast n.toNat).extent_unpack_pack
  have hsmall : (n.toNat : ℚ) ≤ 2 ^ (32 : ℤ) := by exact_mod_cast hlt.le
  rw [nearest_natCast (by omega),
    saturate_of_le (Nat.cast_nonneg _) hsmall (two_zpow_lt_limit (by norm_num))] at h
  exact h

/-- A float becomes the whole number below it, held between none and the largest count. -/
theorem toUInt32_eq (hx : worth x = some (.ofRat p)) :
    x.toUInt32 = .ofNat (min ⌊p⌋.toNat 4294967295) := by
  show UInt32.ofNatClamp (x.toModel.unpack.toInt 0 4294967295).toNat = _
  rw [toNat_toInt 0 4294967295 hx, ← UInt32.toNat_inj]
  unfold UInt32.ofNatClamp
  split
  · next h =>
    simp only [UInt32.size] at h
    rw [UInt32.toNat_ofNatLT, UInt32.toNat_ofNat']
    omega
  · next h =>
    simp only [UInt32.size] at h
    rw [UInt32.toNat_ofNatLT, UInt32.toNat_ofNat']
    simp only [UInt32.size]
    omega

theorem toUInt32_of_none (hx : worth x = none) : x.toUInt32 = 0 := by
  have hnan : x.toModel.unpack = .notANumber := eq_notANumber hx
  show UInt32.ofNatClamp (x.toModel.unpack.toInt 0 4294967295).toNat = 0
  rw [hnan]
  rfl

/-! ## Arithmetic -/

theorem worth_add (hx : worth x = some (.ofRat p)) (hy : worth y = some (.ofRat q)) :
    worth (x + y) = some (saturate (nearest (p + q))) :=
  ((partsOf_unpack hx).add (partsOf_unpack hy)).extent_unpack_pack

theorem worth_sub (hx : worth x = some (.ofRat p)) (hy : worth y = some (.ofRat q)) :
    worth (x - y) = some (saturate (nearest (p - q))) :=
  ((partsOf_unpack hx).sub (partsOf_unpack hy)).extent_unpack_pack

theorem worth_mul (hx : worth x = some (.ofRat p)) (hy : worth y = some (.ofRat q)) :
    worth (x * y) = some (saturate (nearest (p * q))) :=
  ((partsOf_unpack hx).mul (partsOf_unpack hy)).extent_unpack_pack

theorem worth_div (hx : worth x = some (.ofRat p)) (hy : worth y = some (.ofRat q))
    (h0 : q ≠ 0) : worth (x / y) = some (saturate (nearest (p / q))) :=
  ((partsOf_unpack hx).div (partsOf_unpack hy) h0).extent_unpack_pack

/-- What is beyond the doubles, or no number, stays so when a number is added. -/
theorem worth_add_of_not_rat (hx : ∀ p, worth x ≠ some (.ofRat p))
    (hy : worth y = some (.ofRat q)) : worth (x + y) = worth x := by
  show extent (Float.Model.pack (UnpackedFloat.add Format.binary64 x.toModel.unpack
    y.toModel.unpack)).unpack = _
  rw [add_of_not_rat hx hy, pack_unpack]
  rfl

theorem worth_add_top {u : Extent} (hx : worth x = some u) (hu : u ≠ ⊥) (hy : worth y = some ⊤) :
    worth (x + y) = some ⊤ := by
  show extent (Float.Model.pack (UnpackedFloat.add Format.binary64 x.toModel.unpack
    y.toModel.unpack)).unpack = _
  rw [add_infinity hx hu hy, unpack_pack_infinity]
  rfl

theorem worth_add_top_of_not (hx : ∀ u, worth x = some u → u = ⊥) (hy : worth y = some ⊤) :
    worth (x + y) = none := by
  show extent (Float.Model.pack (UnpackedFloat.add Format.binary64 x.toModel.unpack
    y.toModel.unpack)).unpack = _
  rw [add_infinity_of_not hx hy]
  rfl

theorem worth_sub_of_none (hx : worth x = none) : worth (x - y) = none := by
  have hnan : (x - y).toModel.unpack = (Float.Model.pack .notANumber).unpack := by
    show (Float.Model.pack (UnpackedFloat.sub Format.binary64 x.toModel.unpack
      y.toModel.unpack)).unpack = _
    rw [eq_notANumber hx, notANumber_sub]
  unfold worth
  rw [hnan]
  rfl

theorem worth_mul_of_top (hx : worth x = some ⊤) (hy : worth y = some (.ofRat q)) (hq : 0 < q) :
    worth (x * y) = some ⊤ := by
  show extent (Float.Model.pack (UnpackedFloat.mul Format.binary64 x.toModel.unpack
    y.toModel.unpack)).unpack = _
  rw [infinity_mul hx hy hq, unpack_pack_infinity]
  rfl

/-! ## More on one side -/

section Monotone

variable {a b : Float} {u v w : Extent}

/-- A product with a positive number grows with its other factor. -/
theorem worth_mul_mono (ha : worth a = some u) (hb : worth b = some v) (h0 : .ofRat 0 ≤ u)
    (huv : u ≤ v) (hx : worth x = some (.ofRat q)) (hq : 0 < q) :
    ∃ s t, worth (a * x) = some s ∧ worth (b * x) = some t ∧ .ofRat 0 ≤ s ∧ s ≤ t := by
  rcases Extent.eq_top_or_exists_rat h0 with rfl | ⟨p, rfl, hp⟩
  · obtain rfl := top_le_iff.mp huv
    exact ⟨⊤, ⊤, worth_mul_of_top ha hx hq, worth_mul_of_top hb hx hq, le_top, le_rfl⟩
  · have hprod : 0 ≤ p * q := mul_nonneg hp hq.le
    refine ⟨saturate (nearest (p * q)), ?_⟩
    rcases Extent.eq_top_or_exists_rat huv with rfl | ⟨r, rfl, hr⟩
    · exact ⟨⊤, worth_mul ha hx, worth_mul_of_top hb hx hq, ofRat_zero_le_saturate hprod, le_top⟩
    · refine ⟨_, worth_mul ha hx, worth_mul hb hx, ofRat_zero_le_saturate hprod, ?_⟩
      exact saturate_mono (nearest_mono (mul_le_mul_of_nonneg_right hr hq.le))

/-- A sum that is not infinitely small has a first part that is not. -/
theorem exists_worth_of_add (hs : worth (x + a) = some w) (hw : w ≠ ⊥) (ha : worth a = some u)
    (h0 : .ofRat 0 ≤ u) : ∃ p, worth x = some p ∧ p ≠ ⊥ := by
  by_contra hnone
  have hx : ∀ p, worth x = some p → p = ⊥ := fun p hp => by_contra fun hne => hnone ⟨p, hp, hne⟩
  rcases Extent.eq_top_or_exists_rat h0 with rfl | ⟨r, rfl, _⟩
  · rw [worth_add_top_of_not hx ha] at hs
    cases hs
  · rw [worth_add_of_not_rat (fun p hp => WithBot.coe_ne_bot (hx _ hp)) ha] at hs
    exact hw (hx w hs)

/-- What a sum reaches it also reaches with a larger second part. -/
theorem le_add_of_le (hz : worth z = some w) (hw : w ≠ ⊥) (ha : worth a = some u)
    (hb : worth b = some v) (h0 : .ofRat 0 ≤ u) (huv : u ≤ v) (h : z ≤ x + a) : z ≤ x + b := by
  obtain ⟨w', s, hw', hs, hle⟩ := le_iff.mp h
  obtain rfl : w = w' := Option.some.inj (hz.symm.trans hw')
  have hbot : s ≠ ⊥ := fun hs => hw (le_bot_iff.mp (hs ▸ hle))
  obtain ⟨p, hp, hne⟩ := exists_worth_of_add hs hbot ha h0
  rcases Extent.eq_top_or_exists_rat (h0.trans huv) with rfl | ⟨r, rfl, _⟩
  · exact le_iff.mpr ⟨w, ⊤, hz, worth_add_top hp hne hb, le_top⟩
  · obtain ⟨t, rfl, _, htr⟩ := Extent.exists_rat h0 huv
    match p, hne with
    | (⊤ : WithTop ℚ), _ =>
      have hnot : ∀ q, worth x ≠ some (.ofRat q) := fun q hq => by
        rw [hp, Option.some.injEq] at hq
        exact absurd hq (by simp)
      exact le_iff.mpr ⟨w, ⊤, hz, (worth_add_of_not_rat hnot hb).trans hp, le_top⟩
    | ((p : ℚ) : WithTop ℚ), _ =>
      rw [worth_add hp ha, Option.some.injEq] at hs
      refine le_iff.mpr ⟨w, _, hz, worth_add hp hb, hle.trans ?_⟩
      rw [← hs]
      exact saturate_mono (nearest_mono (by linarith))

end Monotone

/-! ## Spans -/

/-- Beyond the whole numbers that every float of their size can be, a whole number is rounded as a
decimal number is. -/
private theorem partsOf_ofScientific {n : ℕ} (hn : 0 < n) :
    PartsOf (UnpackedFloat.ofScientific Format.binary64 n 0) (nearest n) := by
  have hpos : 0 < n <<< 53 * 10 ^ 0 := by
    rw [pow_zero, mul_one]
    exact Nat.shiftLeft_pos_iff.mpr hn
  have hvalue : ((n <<< 53 * 10 ^ 0 : ℕ) : ℚ) * 2 ^ (-53 + 0 : ℤ) = n := by
    rw [Nat.shiftLeft_eq]
    push_cast
    rw [mul_one, mul_assoc]
    norm_num
  have hplace := lastPlace_eq_targetExponent hpos (Int.floor_natCast _) (-53 + 0)
  have hlow : (-53 + 0 : ℤ) ≤ lastPlace n := by
    have hlog : 0 ≤ Int.log 2 (n : ℚ) := le_log_of_le (by exact_mod_cast hn) (by
      rw [zpow_zero]
      exact_mod_cast hn)
    unfold lastPlace
    rw [abs_of_nonneg (Nat.cast_nonneg n)]
    omega
  have hround := partsOf_roundWithAccuracy .positive (stands_exact (n <<< 53 * 10 ^ 0))
    (by exact_mod_cast hpos) hplace (by rw [hvalue]; exact hlow)
  rw [hvalue] at hround
  have hparts : UnpackedFloat.ofScientific Format.binary64 n 0 =
      roundWithAccuracy Format.binary64 .positive (n <<< 53 * 10 ^ 0) (-53 + 0) .exact := by
    have hbits : (0 : ℤ) < 2 ^ Format.binary64.exponentBits := by positivity
    unfold UnpackedFloat.ofScientific
    rw [dif_neg hn.ne', if_neg (by omega), if_neg (by omega), if_pos le_rfl]
    rfl
  rw [hparts]
  exact hround

/-- A whole number that a double can be is made of its bits, and multiplied with one. -/
private theorem worth_ofNat_of_lt {n : ℕ} (h : n < 2 ^ 53) :
    worth (Float.ofNat n) = some (saturate (nearest n)) := by
  have hword : worth n.toUInt64.toFloat = some (saturate (nearest n)) := by
    have hsame : n.toUInt64.toNat = n := by
      rw [Nat.toUInt64_eq, UInt64.toNat_ofNat', Nat.mod_eq_of_lt (h.trans (by norm_num))]
    have hparts : worth n.toUInt64.toFloat = some (saturate (nearest n.toUInt64.toNat)) :=
      (partsOf_normalize_natCast n.toUInt64.toNat).extent_unpack_pack
    rw [hsame] at hparts
    exact hparts
  have hone : worth Float.exactlyRepresentablePowersOfTen[0] = some (.ofRat 1) := by
    show some (Extent.ofRat (signed .positive ((4503599627370496 : ℕ) * 2 ^ (-52 : ℤ)))) = _
    norm_num [signed]
  have hlimit : (n : ℚ) ≤ 2 ^ (53 : ℤ) := by exact_mod_cast h.le
  have hsaturate : saturate (n : ℚ) = .ofRat n :=
    saturate_of_le (Nat.cast_nonneg n) hlimit (two_zpow_lt_limit (by norm_num))
  rw [nearest_natCast h, hsaturate] at hword
  have hpowers :
      Float.ofNat n = n.toUInt64.toFloat * Float.exactlyRepresentablePowersOfTen[0] := by
    show Float.ofScientific n false 0 = _
    unfold Float.ofScientific
    rw [dif_pos ⟨h, by norm_num⟩]
    rfl
  rw [hpowers, worth_mul hword hone, mul_one]

/-- Whole numbers become the nearest float. -/
theorem worth_ofNat (n : ℕ) : worth (Float.ofNat n) = some (saturate (nearest n)) := by
  by_cases hsmall : n < 2 ^ 53
  · exact worth_ofNat_of_lt hsmall
  · have hscientific : (Float.ofNat n).toModel = Float.Model.ofScientific n 0 := by
      show (Float.ofScientific n false 0).toModel = _
      unfold Float.ofScientific
      rw [dif_neg fun h => hsmall h.1]
      rfl
    unfold worth
    rw [hscientific]
    exact (partsOf_ofScientific (n := n) (by omega)).extent_unpack_pack

/-- The part of a second that some nanoseconds are, as a float. -/
theorem worth_fraction {k : ℕ} (hk : k < 1000000000) :
    worth (Float.ofNat k / 1000000000.0) = some (.ofRat (nearest (k / 1000000000))) := by
  have hdivisor : worth (1000000000.0 : Float) = some (.ofRat 1000000000) := by
    show some (Extent.ofRat (signed .positive ((8388608000000000 : ℕ) * 2 ^ (-23 : ℤ)))) = _
    norm_num [signed]
  have hwhole : worth (Float.ofNat k) = some (.ofRat k) := by
    have hlimit : (k : ℚ) ≤ 2 ^ (30 : ℤ) := by exact_mod_cast (by omega : k ≤ 2 ^ 30)
    rw [worth_ofNat, nearest_natCast (by omega),
      saturate_of_le (Nat.cast_nonneg k) hlimit (two_zpow_lt_limit (by norm_num))]
  have hnonneg : 0 ≤ nearest ((k : ℚ) / 1000000000) := nearest_nonneg (by positivity)
  have hone : nearest ((k : ℚ) / 1000000000) ≤ 2 ^ (0 : ℤ) := (nearest_fraction_lt hk).le
  rw [worth_div hwhole hdivisor (by norm_num),
    saturate_of_le hnonneg hone (two_zpow_lt_limit (by norm_num))]

/-- The seconds of a span as they are computed with doubles. -/
def roundedSeconds (s : Span) : ℚ :=
  nearest (nearest s.secs + nearest ((s.subsec : ℚ) / 1000000000))

theorem subsec_lt (s : Span) : s.subsec < 1000000000 := Nat.mod_lt _ (by decide)

theorem representable_nearest_natCast (n : ℕ) : Representable (nearest (n : ℚ)) :=
  (partsOf_normalize_natCast n).representable

theorem worth_ofSpan (s : Span) :
    worth (Amount.ofSpan s) = some (saturate (roundedSeconds s)) := by
  have hsecs := worth_ofNat s.secs
  have hfraction := worth_fraction (subsec_lt s)
  have hnonneg : 0 ≤ nearest ((s.subsec : ℚ) / 1000000000) := nearest_nonneg (by positivity)
  have hsecs0 : 0 ≤ nearest (s.secs : ℚ) := nearest_nonneg (Nat.cast_nonneg _)
  show worth (Float.ofNat s.secs + Float.ofNat s.subsec / 1000000000.0) = _
  by_cases hlarge : nearest (s.secs : ℚ) < limit
  · rw [saturate_of_abs_lt (by rw [abs_of_nonneg hsecs0]; exact hlarge)] at hsecs
    exact worth_add hsecs hfraction
  · have hge : limit ≤ nearest (s.secs : ℚ) := not_lt.mp hlarge
    have hsum : limit ≤ roundedSeconds s := by
      rw [← nearest_of_representable limit_representable]
      exact nearest_mono (by linarith)
    rw [saturate_of_limit_le hge] at hsecs
    have hnot : ∀ p, worth (Float.ofNat s.secs) ≠ some (.ofRat p) := fun p hp => by
      rw [hsecs, Option.some.injEq] at hp
      exact absurd hp (by simp)
    rw [saturate_of_limit_le hsum, worth_add_of_not_rat hnot hfraction, hsecs]

theorem seconds_nonneg (s : Span) : .ofRat 0 ≤ saturate (roundedSeconds s) := by
  unfold roundedSeconds
  exact ofRat_zero_le_saturate (add_nonneg (nearest_nonneg (Nat.cast_nonneg _))
    (nearest_nonneg (by positivity)))

theorem worth_ofSpan_zero : worth (Amount.ofSpan Span.zero) = some (.ofRat 0) := by
  have hsecs : Span.zero.secs = 0 := rfl
  have hsubsec : Span.zero.subsec = 0 := rfl
  have hzero : roundedSeconds Span.zero = 0 := by
    unfold roundedSeconds
    rw [hsecs, hsubsec, Nat.cast_zero, zero_div, nearest_zero, add_zero, nearest_zero]
  rw [worth_ofSpan, hzero, saturate_zero]

/-- Rounding keeps the order of spans. -/
theorem roundedSeconds_mono {s t : Span} (h : s ≤ t) : roundedSeconds s ≤ roundedSeconds t := by
  have hsplit : ∀ s : Span, s.nanos = 1000000000 * s.secs + s.subsec :=
    fun s => (Nat.div_add_mod s.nanos 1000000000).symm
  have hnanos : s.nanos ≤ t.nanos := h
  have hs := subsec_lt s
  have ht := subsec_lt t
  rw [hsplit s, hsplit t] at hnanos
  have hle : s.secs ≤ t.secs := by omega
  rcases hle.lt_or_eq with hlt | heq
  · -- a whole second is more than any fraction, and beyond the whole doubles fractions are lost
    have hwhole : roundedSeconds s ≤ nearest t.secs := by
      by_cases hsmall : s.secs < 2 ^ 53
      · have hnext : (s.secs : ℚ) + 1 ≤ t.secs := by exact_mod_cast hlt
        refine nearest_mono ?_
        rw [nearest_natCast hsmall]
        linarith [nearest_fraction_lt hs]
      · have hbig : (2 : ℚ) ^ 53 ≤ nearest s.secs := by
          have hrep : Representable ((2 : ℚ) ^ 53) :=
            ⟨1, 53, by norm_num, by norm_num, by norm_num⟩
          rw [← nearest_of_representable hrep]
          exact nearest_mono (by exact_mod_cast not_lt.mp hsmall)
        unfold roundedSeconds
        rw [nearest_add_fraction (representable_nearest_natCast _) hbig
          (nearest_nonneg (by positivity)) (nearest_fraction_lt hs)]
        exact nearest_mono (by exact_mod_cast hle)
    refine hwhole.trans ?_
    rw [← nearest_of_representable (representable_nearest_natCast t.secs)]
    refine nearest_mono ?_
    have : 0 ≤ nearest ((t.subsec : ℚ) / 1000000000) := nearest_nonneg (by positivity)
    linarith
  · have hsub : (s.subsec : ℚ) ≤ t.subsec := by exact_mod_cast (by omega : s.subsec ≤ t.subsec)
    unfold roundedSeconds
    rw [heq]
    refine nearest_mono (add_le_add_right (nearest_mono ?_) _)
    linarith

/-! ## Floats as amounts -/

theorem exists_rat_of_isRate (h : Amount.isRate x = true) :
    ∃ q, worth x = some (.ofRat q) ∧ 0 < q := by
  obtain ⟨hfinite, hpos⟩ := (Bool.and_eq_true _ _).mp h
  obtain ⟨u, v, hu, hv, huv⟩ := lt_iff.mp (of_decide_eq_true hpos)
  have hzero : worth (0.0 : Float) = some (.ofRat 0) := rfl
  obtain rfl := Option.some.inj (hzero.symm.trans hu)
  rcases Extent.eq_top_or_exists_rat huv.le with rfl | ⟨q, rfl, _⟩
  · have hparts := eq_infinity hv
    have hnot : x.toModel.unpack.isFinite = true := hfinite
    rw [hparts] at hnot
    cases hnot
  · exact ⟨q, hv, Extent.ofRat_lt.mp huv⟩

/-- What comes in during a span is not negative, and more comes in during a longer one. -/
theorem worth_income {s t : Span} (h : s ≤ t) (hx : Amount.isRate x = true) :
    ∃ u v, worth (Amount.ofSpan s * x) = some u ∧ worth (Amount.ofSpan t * x) = some v ∧
      .ofRat 0 ≤ u ∧ u ≤ v := by
  obtain ⟨q, hq, hpos⟩ := exists_rat_of_isRate hx
  have hmono := saturate_mono (roundedSeconds_mono h)
  exact worth_mul_mono (worth_ofSpan s) (worth_ofSpan t) (seconds_nonneg s) hmono hq hpos

/-- Floats are exact where a bucket needs it. -/
instance : LawfulAmount Float where
  worth := worth
  le_iff := le_iff
  lt_iff := lt_iff
  eq_of_worth := eq_of_worth
  worth_ofCount := worth_ofCount
  whole_eq := toUInt32_eq
  whole_of_none := toUInt32_of_none
  worth_sub_ofCount {x p n} hx hn hp := by
    have hrep := (representable_of_worth hx).sub_natCast hn hp
    show worth (x - n.toFloat) = _
    have hn0 : (0 : ℚ) ≤ n.toNat := Nat.cast_nonneg _
    have hlimit : p - n.toNat ≤ 2 ^ (32 : ℤ) := by
      norm_num
      linarith
    rw [worth_sub hx (worth_ofCount n), nearest_of_representable hrep,
      saturate_of_le (by linarith) hlimit (two_zpow_lt_limit (by norm_num))]
  worth_sub_of_none := worth_sub_of_none
  worth_add_ofCount {x y p n} hx hy := by
    show worth (x + n.toFloat) = _
    rw [worth_add hx (worth_ofCount n), nearest_of_representable (representable_of_worth hy),
      saturate_of_worth hy, hy]
  worth_ofCount_add c n := by
    show worth (c.toFloat + n.toFloat) = _
    have hc := c.toNat_lt
    have hn := n.toNat_lt
    have hrep : Representable ((c.toNat : ℚ) + n.toNat) := by
      have h := representable_intCast (k := (c.toNat + n.toNat : ℤ)) (by
        rw [abs_of_nonneg (by omega)]
        omega)
      push_cast at h
      exact h
    have hsum : (c.toNat : ℚ) + n.toNat ≤ 2 ^ (33 : ℤ) := by
      exact_mod_cast (by omega : c.toNat + n.toNat ≤ 2 ^ 33)
    rw [worth_add (worth_ofCount c) (worth_ofCount n), nearest_of_representable hrep,
      saturate_of_le (by positivity) hsum (two_zpow_lt_limit (by norm_num))]
  worth_add_no_time {x rate} hrate := by
    obtain ⟨q, hq, hpos⟩ := exists_rat_of_isRate hrate
    have hnone : worth (Amount.ofSpan Span.zero * rate) = some (.ofRat 0) := by
      rw [worth_mul worth_ofSpan_zero hq, zero_mul, nearest_zero, saturate_zero]
    by_cases hx : ∃ p, worth x = some (.ofRat p)
    · obtain ⟨p, hp⟩ := hx
      rw [worth_add hp hnone, add_zero, nearest_of_representable (representable_of_worth hp),
        saturate_of_worth hp, hp]
    · exact worth_add_of_not_rat (fun p hp => hx ⟨p, hp⟩) hnone
  le_add_longer {x rate c s t} hrate hst h := by
    obtain ⟨u, v, hu, hv, h0, huv⟩ := worth_income hst hrate
    exact le_add_of_le (worth_ofCount c) WithBot.coe_ne_bot hu hv h0 huv h

end Double

end Admission
