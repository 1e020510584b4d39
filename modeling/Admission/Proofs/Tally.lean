import Admission.Window

/-!
# Counting the grants of a log

`tally q log` adds up, without a bound, the permits whose stamps meet `q`.  Everything a cell
answers is such a sum: `live now window` picks the stamps that count at a reading, and `now.cutoff
window` is the earliest of them, so that what counts is also a tally over later stamps.

* `toNat_total`: the capped sum of a cell is the tally cut off at the largest count.
* `tally_insert`: a grant joins exactly the tallies that hold its stamp.
* `tally_takeBack`: taking the newest permits first lowers every tally over later stamps by what
  was asked for, down to zero.
-/

namespace Admission

/-! ## Instants and cutoffs -/

namespace Instant

theorem le_iff_nanos {a b : Instant} : a ≤ b ↔ a.nanos ≤ b.nanos := Iff.rfl

theorem lt_iff_nanos {a b : Instant} : a < b ↔ a.nanos < b.nanos := Iff.rfl

theorem eq_iff_nanos {a b : Instant} : a = b ↔ a.nanos = b.nanos := by
  cases a; cases b; simp

theorem le_plus (t : Instant) (window : Span) : t ≤ t.plus window := by
  simp only [le_iff_nanos, plus]
  omega

theorem plus_mono {a b : Instant} (h : a ≤ b) (window : Span) : a.plus window ≤ b.plus window := by
  simp only [le_iff_nanos, plus] at h ⊢
  omega

/-- The earliest stamp that counts against a window that is not empty. -/
def cutoff (now : Instant) (window : Span) : Instant := ⟨now.nanos - window.nanos + 1⟩

theorem cutoff_mono {a b : Instant} (window : Span) (h : a ≤ b) :
    a.cutoff window ≤ b.cutoff window := by
  simp only [le_iff_nanos, cutoff] at h ⊢
  omega

/-- Whether an instant lies in the half-open interval that begins at `start` and is as long as
`window`. -/
def inWindow (start : Instant) (window : Span) (t : Instant) : Bool :=
  start ≤ t && t < start.plus window

theorem inWindow_iff {start t : Instant} {window : Span} :
    start.inWindow window t = true ↔
      start.nanos ≤ t.nanos ∧ t.nanos < start.nanos + window.nanos := by
  unfold inWindow
  rw [Bool.and_eq_true, decide_eq_true_eq, decide_eq_true_eq]
  exact Iff.rfl

end Instant

/-- Whether a grant of a stamp counts against `window` at `now`. -/
def live (now : Instant) (window : Span) (stamp : Instant) : Bool := elapsed stamp now < window

theorem live_iff {now stamp : Instant} {window : Span} :
    live now window stamp = true ↔
      now.nanos - stamp.nanos < window.nanos ∧ 0 < window.nanos := by
  show decide ((now.nanos - stamp.nanos).toNat < window.nanos) = true ↔ _
  rw [decide_eq_true_eq]
  omega

theorem live_iff_cutoff_le {now stamp : Instant} {window : Span} (hw : 0 < window.nanos) :
    live now window stamp = true ↔ now.cutoff window ≤ stamp := by
  rw [live_iff, Instant.le_iff_nanos]
  show _ ↔ now.nanos - window.nanos + 1 ≤ stamp.nanos
  omega

/-- What is stamped from a counted stamp on counts. -/
theorem live_of_cutoff_le {now a b : Instant} {window : Span} (hw : 0 < window.nanos)
    (ha : now.cutoff window ≤ a) (h : a ≤ b) : live now window b = true :=
  (live_iff_cutoff_le hw).mpr (Int.le_trans ha h)

theorem live_self {window : Span} (hw : 0 < window.nanos) (now : Instant) :
    live now window now = true := by
  rw [live_iff]
  omega

/-- Later stamps count for longer. -/
theorem live_of_le {now a b : Instant} {window : Span} (h : a ≤ b)
    (ha : live now window a = true) : live now window b = true := by
  rw [live_iff] at ha ⊢
  rw [Instant.le_iff_nanos] at h
  omega

/-- What counts at a reading counted at every earlier one. -/
theorem live_of_reading_le {a b stamp : Instant} {window : Span} (h : a ≤ b)
    (hb : live b window stamp = true) : live a window stamp = true := by
  rw [live_iff] at hb ⊢
  rw [Instant.le_iff_nanos] at h
  omega

namespace Grant

theorem counts_eq_live (now : Instant) (window : Span) (g : Grant) :
    g.counts now window = live now window g.stamp := rfl

/-! ## Tallies -/

/-- The permits of the grants whose stamps meet `q`, added up without a bound. -/
def tally (q : Instant → Bool) : List Grant → Nat
  | [] => 0
  | g :: rest => (if q g.stamp then g.permits.toNat else 0) + tally q rest

variable {q : Instant → Bool}

@[simp] theorem tally_nil : tally q [] = 0 := rfl

@[simp] theorem tally_cons (g : Grant) (rest : List Grant) :
    tally q (g :: rest) = (if q g.stamp then g.permits.toNat else 0) + tally q rest := rfl

theorem tally_append (a b : List Grant) : tally q (a ++ b) = tally q a + tally q b := by
  induction a with
  | nil => simp
  | cons g rest ih =>
    rw [List.cons_append, tally_cons, tally_cons, ih]
    omega

theorem tally_reverse (log : List Grant) : tally q log.reverse = tally q log := by
  induction log with
  | nil => rfl
  | cons g rest ih =>
    rw [List.reverse_cons, tally_append, ih, tally_cons, tally_cons, tally_nil]
    omega

theorem tally_mono {r : Instant → Bool} (h : ∀ t, q t = true → r t = true) (log : List Grant) :
    tally q log ≤ tally r log := by
  induction log with
  | nil => exact Nat.le_refl 0
  | cons g rest ih =>
    rw [tally_cons, tally_cons]
    by_cases hq : q g.stamp = true
    · rw [if_pos hq, if_pos (h _ hq)]
      omega
    · rw [if_neg hq]
      omega

/-- A grant that meets only the weaker of two conditions makes the tallies differ. -/
theorem tally_lt {r : Instant → Bool} (h : ∀ t, q t = true → r t = true) {log : List Grant}
    {g : Grant} (hg : g ∈ log) (hq : q g.stamp = false) (hr : r g.stamp = true)
    (hp : 0 < g.permits) : tally q log < tally r log := by
  rw [Count.pos_iff] at hp
  induction log with
  | nil => exact absurd hg List.not_mem_nil
  | cons a rest ih =>
    rw [tally_cons, tally_cons]
    rcases List.mem_cons.mp hg with rfl | hg
    · have hrest := tally_mono h rest
      rw [hq, hr, if_neg (by decide), if_pos rfl]
      omega
    · have hrest := ih hg
      by_cases ha : q a.stamp = true
      · rw [if_pos ha, if_pos (h _ ha)]
        omega
      · rw [if_neg ha]
        omega

theorem tally_congr {r : Instant → Bool} {log : List Grant}
    (h : ∀ g ∈ log, q g.stamp = r g.stamp) : tally q log = tally r log := by
  induction log with
  | nil => rfl
  | cons g rest ih =>
    rw [tally_cons, tally_cons, h g List.mem_cons_self,
      ih fun x hx => h x (List.mem_cons_of_mem _ hx)]

/-- What counts is what is stamped from the first counted stamp on. -/
theorem tally_live_eq_since {window : Span} (hw : 0 < window.nanos) (now : Instant)
    (log : List Grant) : tally (live now window) log = tally (now.cutoff window ≤ ·) log := by
  apply tally_congr
  intro g _
  rw [Bool.eq_iff_iff, live_iff_cutoff_le hw, decide_eq_true_eq]

theorem tally_eq_zero {log : List Grant} (h : ∀ g ∈ log, q g.stamp = false) :
    tally q log = 0 := by
  induction log with
  | nil => rfl
  | cons g rest ih =>
    rw [tally_cons, h g List.mem_cons_self, ih fun x hx => h x (List.mem_cons_of_mem _ hx)]
    rfl

/-- A tally does not see the grants that are dropped for not meeting it. -/
theorem tally_dropWhile {p : Grant → Bool} (h : ∀ g, p g = true → q g.stamp = false)
    (log : List Grant) : tally q (log.dropWhile p) = tally q log := by
  induction log with
  | nil => rfl
  | cons g rest ih =>
    rw [List.dropWhile_cons]
    by_cases hp : p g = true
    · rw [if_pos hp, ih, tally_cons, h g hp]
      simp
    · rw [if_neg hp]

/-- Dropping what does not count loses nothing of a tally of counted stamps. -/
theorem tally_dropWhile_of_live {now : Instant} {window : Span}
    (hq : ∀ t, q t = true → live now window t = true) (log : List Grant) :
    tally q (log.dropWhile fun g => !g.counts now window) = tally q log := by
  refine tally_dropWhile (fun g hg => ?_) log
  rw [counts_eq_live, Bool.not_eq_true'] at hg
  cases hqg : q g.stamp with
  | false => rfl
  | true => rw [hq _ hqg] at hg; exact hg

theorem tally_filter_positive (log : List Grant) :
    tally q (log.filter (0 < ·.permits)) = tally q log := by
  induction log with
  | nil => rfl
  | cons g rest ih =>
    rw [List.filter_cons]
    by_cases hp : 0 < g.permits
    · rw [if_pos (decide_eq_true hp), tally_cons, tally_cons, ih]
    · rw [if_neg (by simpa using hp), ih, tally_cons]
      have : g.permits.toNat = 0 := by
        rw [Count.pos_iff] at hp
        exact Nat.eq_zero_of_not_pos hp
      simp [this]

/-! ## Capped sums -/

private theorem toNat_foldl_plus (log : List Grant) (a : Count) :
    (log.foldl (fun sum g => Count.plus sum g.permits) a).toNat =
      min (a.toNat + tally (fun _ => true) log) 4294967295 := by
  induction log generalizing a with
  | nil =>
    have := Count.toNat_le_most a
    simp only [List.foldl_nil, tally_nil]
    omega
  | cons g rest ih =>
    rw [List.foldl_cons, ih, Count.toNat_plus, tally_cons, if_pos rfl]
    omega

theorem toNat_total (log : List Grant) :
    (total log).toNat = min (tally (fun _ => true) log) 4294967295 := by
  unfold total
  rw [toNat_foldl_plus]
  simp

theorem tally_filter_counts (now : Instant) (window : Span) (log : List Grant) :
    tally (fun _ => true) (log.filter (counts now window)) = tally (live now window) log := by
  induction log with
  | nil => rfl
  | cons g rest ih =>
    rw [List.filter_cons, tally_cons, counts_eq_live]
    by_cases hg : live now window g.stamp = true
    · rw [if_pos hg, if_pos hg, tally_cons, ih, if_pos rfl]
    · rw [if_neg hg, if_neg hg, ih, Nat.zero_add]

/-- Empty grants do not show in a capped sum. -/
theorem total_filter_positive (log : List Grant) :
    total (log.filter (0 < ·.permits)) = total log := by
  rw [← UInt32.toNat_inj, toNat_total, toNat_total, tally_filter_positive]

/-! ## Adding a grant -/

private theorem tally_insert_bounds (now : Instant) (p : Count) (log : List Grant) :
    tally q (insert now p log) ≤ tally q log + (if q now then p.toNat else 0) ∧
      min (tally q (insert now p log)) 4294967295 =
        min (tally q log + (if q now then p.toNat else 0)) 4294967295 := by
  induction log with
  | nil => simp [insert]
  | cons g rest ih =>
    -- the three places of the new grant: further on, here, or in front
    rw [insert]
    split
    · rw [tally_cons, tally_cons]
      omega
    · split
      · -- a grant of the same instant takes the permits in, up to the largest count
        next heq =>
        rw [tally_cons, tally_cons, Count.toNat_plus]
        subst heq
        split <;> omega
      · rw [tally_cons]
        dsimp only
        omega

theorem tally_insert_le (now : Instant) (p : Count) (log : List Grant) :
    tally q (insert now p log) ≤ tally q log + (if q now then p.toNat else 0) :=
  (tally_insert_bounds now p log).1

theorem min_tally_insert (now : Instant) (p : Count) (log : List Grant) :
    min (tally q (insert now p log)) 4294967295 =
      min (tally q log + (if q now then p.toNat else 0)) 4294967295 :=
  (tally_insert_bounds now p log).2

/-- Where the sum can still be written down, a grant adds its permits to the tallies that hold
its stamp and to no other. -/
theorem tally_insert {now : Instant} {p : Count} {log : List Grant}
    (h : tally q log + (if q now then p.toNat else 0) ≤ 4294967295) :
    tally q (insert now p log) = tally q log + (if q now then p.toNat else 0) := by
  have hle := tally_insert_le (q := q) now p log
  have hmin := min_tally_insert (q := q) now p log
  omega

/-! ## Taking permits back -/

theorem map_stamp_takeBack (now : Instant) (window : Span) (n : Count) (log : List Grant) :
    (takeBack now window n log).map (·.stamp) = log.map (·.stamp) := by
  induction log generalizing n with
  | nil => rfl
  | cons g rest ih =>
    rw [takeBack]
    split
    · rfl
    · rw [List.map_cons, List.map_cons, ih]

theorem tally_takeBack_le (now : Instant) (window : Span) (n : Count) (log : List Grant) :
    tally q (takeBack now window n log) ≤ tally q log := by
  induction log generalizing n with
  | nil => exact Nat.le_refl 0
  | cons g rest ih =>
    rw [takeBack]
    split
    · exact Nat.le_refl _
    · have hrest := ih (n - min n g.permits)
      rw [tally_cons, tally_cons, Count.toNat_sub_min_right]
      dsimp only
      split <;> omega

/-- Taking back goes from the newest grant on, so it lowers the permits from any counted stamp on
by the number asked for, down to zero. -/
theorem tally_takeBack {now t : Instant} {window : Span} {log : List Grant}
    (hlog : log.Pairwise fun a b => b.stamp ≤ a.stamp)
    (ht : ∀ s, t ≤ s → live now window s = true) (n : Count) :
    tally (t ≤ ·) (takeBack now window n log) = tally (t ≤ ·) log - n.toNat := by
  -- the log is listed newest first, so what is taken here is missing from the rest
  induction log generalizing n with
  | nil => simp [takeBack]
  | cons g rest ih =>
    rw [List.pairwise_cons] at hlog
    obtain ⟨hg, hrest⟩ := hlog
    rw [takeBack]
    split
    · next hstop =>
      rcases hstop with rfl | hdead
      · simp
      · -- nothing from `t` on is left: the stamps below are older still
        have hzero : tally (t ≤ ·) (g :: rest) = 0 := by
          apply tally_eq_zero
          intro x hx
          rw [decide_eq_false_iff_not]
          intro htx
          refine hdead (ht _ ?_)
          rcases List.mem_cons.mp hx with rfl | hx
          · exact htx
          · exact Int.le_trans htx (hg x hx)
        rw [hzero, Nat.zero_sub]
    · rw [tally_cons, tally_cons, ih hrest, Count.toNat_sub_min_left, Count.toNat_sub_min_right]
      dsimp only
      by_cases htg : t ≤ g.stamp
      · rw [if_pos (decide_eq_true htg), if_pos (decide_eq_true htg)]
        omega
      · -- older than `t`, and so is all the rest
        have hzero : tally (t ≤ ·) rest = 0 := by
          apply tally_eq_zero
          intro x hx
          rw [decide_eq_false_iff_not]
          exact fun htx => htg (Int.le_trans htx (hg x hx))
        rw [hzero, if_neg (by simpa using htg), if_neg (by simpa using htg)]
        omega

end Grant

end Admission
