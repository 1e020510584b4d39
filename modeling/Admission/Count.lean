/-!
# Permit counts

Permits are counted in 32-bit words.  Counting up stops at `Count.most` and counting down stops at
zero, so a sum of counts never wraps; `toNat_plus` and `toNat_minus` say so over the naturals.
-/

namespace Admission

/-- A number of permits. -/
abbrev Count := UInt32

namespace Count

/-- The largest count, which also stands for "no limit applies". -/
def most : Count := 4294967295

def bound : Nat := 4294967296

/-- The sum of two counts, or `most` where the sum is larger. -/
def plus (a b : Count) : Count := .ofNat (min (a.toNat + b.toNat) 4294967295)

/-- What is left of `a` after `b` is taken away, never less than zero. -/
def minus (a b : Count) : Count := if a ≤ b then 0 else a - b

@[simp] theorem toNat_most : most.toNat = 4294967295 := rfl

theorem toNat_le_most (a : Count) : a.toNat ≤ 4294967295 := by
  have := a.toNat_lt
  omega

@[simp] theorem toNat_plus (a b : Count) :
    (plus a b).toNat = min (a.toNat + b.toNat) 4294967295 := by
  simp only [plus, UInt32.toNat_ofNat']
  omega

theorem plus_assoc (a b c : Count) : plus (plus a b) c = plus a (plus b c) := by
  rw [← UInt32.toNat_inj]
  simp only [toNat_plus]
  omega

theorem pos_iff {a : Count} : 0 < a ↔ 0 < a.toNat := by
  rw [UInt32.lt_iff_toNat_lt, UInt32.toNat_zero]

theorem plus_pos {a b : Count} : 0 < plus a b ↔ 0 < a ∨ 0 < b := by
  rw [pos_iff, pos_iff, pos_iff, toNat_plus]
  omega

@[simp] theorem toNat_minus (a b : Count) : (minus a b).toNat = a.toNat - b.toNat := by
  unfold minus
  split
  · next h => simp [UInt32.le_iff_toNat_le] at h ⊢; omega
  · next h =>
    rw [UInt32.toNat_sub_of_le _ _ (by simp [UInt32.le_iff_toNat_le] at h ⊢; omega)]

theorem toNat_min (a b : Count) : (min a b).toNat = min a.toNat b.toNat := by
  show (if a ≤ b then a else b).toNat = _
  split
  · next h => simp [UInt32.le_iff_toNat_le] at h; omega
  · next h => simp [UInt32.le_iff_toNat_le] at h; omega

theorem toNat_sub_min_left (a b : Count) : (a - min a b).toNat = a.toNat - b.toNat := by
  have h : min a b ≤ a := by
    rw [UInt32.le_iff_toNat_le, toNat_min]
    omega
  rw [UInt32.toNat_sub_of_le _ _ h, toNat_min]
  omega

theorem toNat_sub_min_right (a b : Count) : (a - min b a).toNat = a.toNat - b.toNat := by
  have h : min b a ≤ a := by
    rw [UInt32.le_iff_toNat_le, toNat_min]
    omega
  rw [UInt32.toNat_sub_of_le _ _ h, toNat_min]
  omega

end Count

end Admission
