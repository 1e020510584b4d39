import Admission.Proofs.FloatAmounts

/-!
# The two zeros

What an amount stands for tells all floats apart but the two zeros, and a bucket that was restored
from a snapshot may hold the negative one.  Nothing that a bucket computes arrives at it: a sum is
the negative zero only if both of its parts are, a difference only if its first part is, and what
comes in during a span never is.  `PlainAmount` collects this, so that of the amounts of a bucket
more can be said than what they stand for:

* `Amount.eq_of_worth_eq` — plain amounts that stand for the same are the same.
* `Amount.sub_ofCount_sub_ofCount` — whole tokens that are taken out in two steps leave what they
  leave in one.
-/

open Float.Model Float.Model.UnpackedFloat

namespace Admission

namespace Amount

variable {α : Type} [Amount α] [LawfulAmount α]

open LawfulAmount

/-- An amount that is `zero` if it stands for nothing. -/
def Plain (x : α) : Prop := worth x = some (.ofRat 0) → x = zero

end Amount

open Amount LawfulAmount

/-- An amount type in which what a bucket computes is plain. -/
class PlainAmount (α : Type) [Amount α] [LawfulAmount α] : Prop where
  /-- There is one amount that is no number. -/
  eq_of_none {x y : α} : worth x = none → worth y = none → x = y
  plain_add_income {x rate : α} (s : Span) : isRate rate = true → Plain (x + ofSpan s * rate)
  plain_sub_ofCount {x : α} (n : Count) : Plain x → Plain (x - ofCount n)

namespace Amount

variable {α : Type} [Amount α] [LawfulAmount α] {x y : α}

theorem plain_ofCount (n : Count) : Plain (ofCount n : α) := by
  intro hzero
  rw [worth_ofCount, Option.some.injEq, Extent.ofRat_inj, Nat.cast_eq_zero] at hzero
  rw [UInt32.toNat_inj.mp (hzero.trans UInt32.toNat_zero.symm)]
  rfl

/-- Cutting off at both ends keeps an amount plain. -/
theorem Plain.clamp (hx : Plain x) (c : Count) : Plain (clamp x (ofCount c)) := by
  unfold Amount.clamp
  split
  · exact fun _ => rfl
  · split
    · exact plain_ofCount c
    · exact hx

variable [PlainAmount α]

theorem eq_of_worth_eq (h : worth x = worth y) (hx : Plain x) (hy : Plain y) : x = y := by
  cases hworth : worth x with
  | none => exact PlainAmount.eq_of_none hworth (h.symm.trans hworth)
  | some u =>
    by_cases hu : u = .ofRat 0
    · rw [hu] at hworth
      rw [hx hworth, hy (h.symm.trans hworth)]
    · exact eq_of_worth hworth (h.symm.trans hworth) hu

/-- Whole tokens are taken out in two steps as in one. -/
theorem sub_ofCount_sub_ofCount {g h k : Count} (hsum : g.toNat + h.toNat = k.toNat)
    (hx : Plain x) (henough : worth x = none ∨ ∃ p : ℚ, worth x = some (.ofRat p) ∧
      (k.toNat : ℚ) ≤ p ∧ p ≤ 4294967295) :
    x - ofCount g - ofCount h = x - ofCount k := by
  refine eq_of_worth_eq ?_ (PlainAmount.plain_sub_ofCount h (PlainAmount.plain_sub_ofCount g hx))
    (PlainAmount.plain_sub_ofCount k hx)
  rcases henough with hnone | ⟨p, hp, hle, hmost⟩
  · rw [worth_sub_of_none (worth_sub_of_none hnone), worth_sub_of_none hnone]
  · have hsum' : (g.toNat : ℚ) + h.toNat = k.toNat := by exact_mod_cast hsum
    have hg : (0 : ℚ) ≤ g.toNat := Nat.cast_nonneg _
    have hh : (0 : ℚ) ≤ h.toNat := Nat.cast_nonneg _
    have hfirst := worth_sub_ofCount hp (n := g) (by linarith) hmost
    rw [worth_sub_ofCount hfirst (by linarith) (by linarith), worth_sub_ofCount hp hle hmost,
      sub_sub, hsum']

end Amount

/-- There is one rational zero. -/
instance : PlainAmount ℚ where
  eq_of_none hx := by cases hx
  plain_add_income _ _ h := Extent.ofRat_inj.mp (Option.some.inj h)
  plain_sub_ofCount _ _ h := Extent.ofRat_inj.mp (Option.some.inj h)

/-! ## The zeros of floats -/

namespace Double

/-- The parts of a double other than the negative zero. -/
structure Plain (u : Float.Model.UnpackedFloat) : Prop where
  canonical : Canonical u
  ne_zero : u ≠ .zero .negative

variable {u v : Float.Model.UnpackedFloat} {x : Float} {q : ℚ}

theorem Plain.of_extent (hu : Canonical u) {w : Extent} (h : extent u = some w)
    (hw : w ≠ .ofRat 0) : Plain u where
  canonical := hu
  ne_zero := by
    rintro rfl
    exact hw (Option.some.inj h).symm

theorem Plain.unpack_pack (hu : Plain u) : Plain (Float.Model.pack u).unpack := by
  refine ⟨canonical_unpack _, ?_⟩
  match u, hu with
  | .notANumber, _ => exact nofun
  | .infinity s, _ =>
    rw [unpack_pack_infinity]
    exact nofun
  | .zero s, hu =>
    rw [unpack_pack_zero]
    exact hu.ne_zero
  | .finite s m e hm, hu =>
    rcases le_or_gt e 971 with he | he
    · rw [unpack_pack_finite hm hu.canonical he]
      exact nofun
    · rw [unpack_pack_finite_of_large hm he]
      exact nofun

/-- A sum or a difference of doubles is no negative zero: it is rounded to zero only if it is
none, as both are whole numbers of the smallest double. -/
theorem plain_normalize (m : ℤ) {e : ℤ} (he : -1074 ≤ e) :
    Plain (normalize Format.binary64 m e .positive) := by
  have hparts := partsOf_normalize m e
  refine ⟨hparts.canonical, fun hzero => ?_⟩
  have hnearest : nearest (m * 2 ^ e) = 0 := by
    have hextent := hparts.extent_eq
    rw [hzero] at hextent
    exact (Extent.ofRat_inj.mp (Option.some.inj hextent)).symm
  rcases eq_or_ne m 0 with rfl | hm
  · cases hzero
  · refine nearest_ne_zero ?_ hnearest
    have hone : (1 : ℚ) ≤ |(m : ℚ)| := by exact_mod_cast Int.one_le_abs hm
    rw [abs_mul, abs_of_pos (two_zpow_pos e)]
    calc (2 : ℚ) ^ (-1074 : ℤ) ≤ 2 ^ e := zpow_le_zpow_right₀ (by norm_num) he
      _ ≤ |(m : ℚ)| * 2 ^ e := le_mul_of_one_le_left (two_zpow_pos e).le hone

/-- A sum is the negative zero only if both of its parts are. -/
theorem Plain.add (hu : Canonical u) (hv : Plain v) : Plain (u.add Format.binary64 v) := by
  match u, v, hu, hv with
  | .notANumber, _, _, _ => exact ⟨trivial, nofun⟩
  | .infinity s, .notANumber, _, _ => exact ⟨trivial, nofun⟩
  | .zero s, .notANumber, _, _ => exact ⟨trivial, nofun⟩
  | .finite s m e hm, .notANumber, _, _ => exact ⟨trivial, nofun⟩
  | .infinity s, .infinity t, _, _ => cases s <;> cases t <;> exact ⟨trivial, nofun⟩
  | .infinity s, .zero t, _, _ => exact ⟨trivial, nofun⟩
  | .infinity s, .finite t n f hn, _, _ => exact ⟨trivial, nofun⟩
  | .zero s, .infinity t, _, _ => exact ⟨trivial, nofun⟩
  | .finite s m e hm, .infinity t, _, _ => exact ⟨trivial, nofun⟩
  | .zero s, .zero .negative, _, hv => exact absurd rfl hv.ne_zero
  | .zero s, .zero .positive, _, _ => cases s <;> exact ⟨trivial, nofun⟩
  | .zero s, .finite t n f hn, _, hv => exact hv
  | .finite s m e hm, .zero t, hu, _ => exact ⟨hu, nofun⟩
  | .finite s m e hm, .finite t n f hn, hu, hv =>
    exact plain_normalize _ (le_min hu.2.1 hv.canonical.2.1)

/-- A difference is the negative zero only if its first part is. -/
theorem Plain.sub (hu : Plain u) (hv : Canonical v) : Plain (u.sub Format.binary64 v) := by
  match u, v, hu, hv with
  | .notANumber, _, _, _ => exact ⟨trivial, nofun⟩
  | .infinity s, .notANumber, _, _ => exact ⟨trivial, nofun⟩
  | .zero s, .notANumber, _, _ => exact ⟨trivial, nofun⟩
  | .finite s m e hm, .notANumber, _, _ => exact ⟨trivial, nofun⟩
  | .infinity s, .infinity t, _, _ => cases s <;> cases t <;> exact ⟨trivial, nofun⟩
  | .infinity s, .zero t, _, _ => exact ⟨trivial, nofun⟩
  | .infinity s, .finite t n f hn, _, _ => exact ⟨trivial, nofun⟩
  | .zero s, .infinity t, _, _ => exact ⟨trivial, nofun⟩
  | .finite s m e hm, .infinity t, _, _ => exact ⟨trivial, nofun⟩
  | .zero .negative, .zero t, hu, _ => exact absurd rfl hu.ne_zero
  | .zero .positive, .zero t, _, _ => cases t <;> exact ⟨trivial, nofun⟩
  | .zero s, .finite t n f hn, _, hv => exact ⟨hv, nofun⟩
  | .finite s m e hm, .zero t, hu, _ => exact hu
  | .finite s m e hm, .finite t n f hn, hu, hv =>
    exact plain_normalize _ (le_min hu.canonical.2.1 hv.2.1)

/-- Rounding keeps the sign. -/
theorem roundWithAccuracy_ne_zero (m : ℕ) (e : ℤ) (acc : Accuracy) :
    roundWithAccuracy Format.binary64 .positive m e acc ≠ .zero .negative := by
  unfold roundWithAccuracy
  dsimp only
  split <;> exact nofun

/-- A product with a positive number is no negative zero if its other factor is none and is not
negative. -/
theorem Plain.mul (hu : Plain u) {w : Extent} (hw : extent u = some w) (h0 : .ofRat 0 ≤ w)
    (hv : PartsOf v q) (hq : 0 < q) : Plain (u.mul Format.binary64 v) := by
  rcases Extent.eq_top_or_exists_rat h0 with rfl | ⟨p, rfl, hp⟩
  · rw [infinity_mul hw hv.extent_eq hq]
    exact ⟨trivial, nofun⟩
  · refine ⟨(PartsOf.mul ⟨hu.canonical, hw⟩ hv).canonical, ?_⟩
    obtain ⟨t, n, f, hn, rfl, rfl⟩ : ∃ t n f hn, v = .finite t n f hn ∧ q = signed t (n * 2 ^ f) :=
      (exists_parts hv.extent_eq).resolve_left fun ⟨_, _, hzero⟩ => hq.ne' hzero
    obtain rfl : t = .positive := by
      cases t with
      | negative => exact absurd hq (neg_neg_of_pos (mantissa_pos hn f)).not_gt
      | positive => rfl
    rcases exists_parts hw with ⟨s, rfl, rfl⟩ | ⟨s, m, e, hm, rfl, rfl⟩
    · cases s with
      | negative => exact absurd rfl hu.ne_zero
      | positive => exact nofun
    · cases s with
      | negative => exact absurd hp (neg_neg_of_pos (mantissa_pos hm e)).not_ge
      | positive => exact roundWithAccuracy_ne_zero _ _ _

/-! ## Floats that are computed -/

theorem unpack_zero : (Amount.zero : Float).toModel.unpack = .zero .positive := rfl

/-- A float is plain as an amount if it is not the negative zero. -/
theorem plain_iff : Amount.Plain x ↔ Plain x.toModel.unpack := by
  constructor
  · refine fun hx => ⟨canonical_unpack _, fun hnegative => ?_⟩
    have hworth : worth x = some (.ofRat 0) := by
      unfold worth
      rw [hnegative]
      rfl
    rw [hx hworth, unpack_zero] at hnegative
    cases hnegative
  · intro hx hworth
    rcases exists_parts hworth with ⟨s, hparts, -⟩ | ⟨s, m, e, hm, -, hzero⟩
    · cases s with
      | negative => exact absurd hparts hx.ne_zero
      | positive => exact eq_of_unpack (hparts.trans unpack_zero.symm)
    · have hpos := mantissa_pos hm e
      cases s with
      | negative => exact absurd hzero (neg_neg_of_pos hpos).ne'
      | positive => exact absurd hzero hpos.ne

/-- The part of a second that some nanoseconds are is no negative zero. -/
theorem plain_fraction {k : ℕ} (hk : k < 1000000000) :
    Plain (Float.ofNat k / 1000000000.0).toModel.unpack := by
  rcases Nat.eq_zero_or_pos k with rfl | hpos
  · exact ⟨canonical_unpack _, nofun⟩
  · refine .of_extent (canonical_unpack _) (worth_fraction hk) fun hzero => ?_
    refine nearest_ne_zero ?_ (Extent.ofRat_inj.mp hzero)
    have hone : (1 : ℚ) ≤ k := by exact_mod_cast hpos
    rw [abs_of_nonneg (by positivity)]
    calc (2 : ℚ) ^ (-1074 : ℤ) ≤ 2 ^ (-30 : ℤ) := zpow_le_zpow_right₀ (by norm_num) (by norm_num)
      _ ≤ 1 / 1000000000 := by norm_num
      _ ≤ k / 1000000000 := div_le_div_of_nonneg_right hone (by norm_num)

theorem plain_ofSpan (s : Span) : Plain (Amount.ofSpan s : Float).toModel.unpack :=
  (Plain.add (canonical_unpack _) (plain_fraction (subsec_lt s))).unpack_pack

theorem plain_income (s : Span) (hx : Amount.isRate x = true) :
    Plain (Amount.ofSpan s * x).toModel.unpack := by
  obtain ⟨q, hq, hpos⟩ := exists_rat_of_isRate hx
  exact ((plain_ofSpan s).mul (worth_ofSpan s) (seconds_nonneg s) (partsOf_unpack hq)
    hpos).unpack_pack

/-- What a bucket computes with floats is not the negative zero. -/
instance : PlainAmount Float where
  eq_of_none hx hy := eq_of_unpack ((eq_notANumber hx).trans (eq_notANumber hy).symm)
  plain_add_income s hrate :=
    plain_iff.mpr (Plain.add (canonical_unpack _) (plain_income s hrate)).unpack_pack
  plain_sub_ofCount _ hx :=
    plain_iff.mpr ((plain_iff.mp hx).sub (canonical_unpack _)).unpack_pack

end Double

end Admission
