import Admission.Proofs.Tally

/-!
# What a window cell keeps

`kept` lists the grants a cell holds, counted or not, so that one statement covers both policies;
a fixed window is one grant at its start.  `Wf` is what every operation keeps: the log of a sliding
cell is strictly ordered by stamps and holds no empty grant.

* `toNat_used`: the permits a cell counts are the tally of what it keeps.
* `tally_record`: recording adds exactly the permits, where the sum can be written down.
* `live_of_mem_record`: right after a record everything that is kept still counts.
* `tally_giveBack`: giving back lowers the tally from any counted stamp on, newest grants first.
-/

namespace Admission

namespace Grant

/-- A log in strict order of stamps. -/
def Ordered (log : List Grant) : Prop := log.Pairwise fun a b => a.stamp < b.stamp

theorem Ordered.dropWhile {log : List Grant} (h : Ordered log) (p : Grant → Bool) :
    Ordered (log.dropWhile p) := List.Pairwise.sublist (List.dropWhile_sublist p) h

/-- Dropping the grants before the first counted one leaves only counted ones. -/
theorem live_of_mem_dropWhile {now : Instant} {window : Span} {log : List Grant}
    (h : Ordered log) {g : Grant} (hg : g ∈ log.dropWhile fun g => !g.counts now window) :
    live now window g.stamp = true := by
  induction log with
  | nil => exact absurd hg List.not_mem_nil
  | cons a rest ih =>
    obtain ⟨ha, hrest⟩ := List.pairwise_cons.mp h
    rw [List.dropWhile_cons, counts_eq_live] at hg
    -- the first counted grant ends the drop, and all after it are newer
    by_cases hlive : live now window a.stamp = true
    · rw [hlive, if_neg (by simp)] at hg
      rcases List.mem_cons.mp hg with rfl | hg
      · exact hlive
      · exact live_of_le (Int.le_of_lt (ha g hg)) hlive
    · rw [if_pos (by simpa using hlive)] at hg
      exact ih hrest hg

/-- What is left after the drop is tallied as what counts of the whole log. -/
theorem tally_dropWhile_live {q : Instant → Bool} {now : Instant} {window : Span}
    {log : List Grant} (h : Ordered log) :
    tally q (log.dropWhile fun g => !g.counts now window) =
      tally (fun t => q t && live now window t) log := by
  have hlive : ∀ t, (q t && live now window t) = true → live now window t = true := fun _ ht =>
    ((Bool.and_eq_true _ _).mp ht).2
  rw [← tally_dropWhile_of_live hlive]
  refine tally_congr fun g hg => ?_
  rw [live_of_mem_dropWhile h hg, Bool.and_true]

/-- What is asked of every stamp that is kept: only the counted ones were not dropped. -/
theorem forall_mem_dropWhile {now : Instant} {window : Span} {log : List Grant}
    (h : Ordered log) {P : Instant → Prop} :
    (∀ g ∈ log.dropWhile fun g => !g.counts now window, P g.stamp) ↔
      ∀ g ∈ log, live now window g.stamp = true → P g.stamp := by
  constructor
  · intro hP g hg hlive
    rw [← List.takeWhile_append_dropWhile (p := fun g => !g.counts now window) (l := log)] at hg
    rcases List.mem_append.mp hg with hg | hg
    · -- a grant that was dropped does not count
      have hdead := List.all_eq_true.mp List.all_takeWhile g hg
      rw [counts_eq_live, hlive] at hdead
      exact absurd hdead (by decide)
    · exact hP g hg
  · intro hP g hg
    exact hP g ((List.dropWhile_sublist _).subset hg) (live_of_mem_dropWhile h hg)

/-- An insertion brings its own stamp in and keeps all others. -/
theorem forall_mem_insert {now : Instant} {p : Count} {log : List Grant} {P : Instant → Prop} :
    (∀ g ∈ insert now p log, P g.stamp) ↔ P now ∧ ∀ g ∈ log, P g.stamp := by
  induction log with
  | nil => simp [insert]
  | cons g rest ih =>
    rw [insert]
    split
    · rw [List.forall_mem_cons, ih, List.forall_mem_cons]
      exact and_left_comm
    · split
      · next heq =>
        rw [List.forall_mem_cons, List.forall_mem_cons, ← heq]
        exact and_self_left.symm
      · rw [List.forall_mem_cons]

theorem Ordered.insert {now : Instant} {log : List Grant} (h : Ordered log) (p : Count) :
    Ordered (insert now p log) := by
  induction log with
  | nil => exact List.pairwise_singleton _ _
  | cons g rest ih =>
    obtain ⟨hg, hrest⟩ := List.pairwise_cons.mp h
    rw [Grant.insert]
    split
    · next hlt =>
      exact List.pairwise_cons.mpr ⟨forall_mem_insert.mpr ⟨hlt, hg⟩, ih hrest⟩
    · split
      · exact List.pairwise_cons.mpr ⟨hg, hrest⟩
      · next hnlt hne =>
        have hlt : now < g.stamp := by
          rw [Instant.eq_iff_nanos] at hne
          simp only [Instant.lt_iff_nanos] at hnlt ⊢
          omega
        refine List.pairwise_cons.mpr ⟨fun x hx => ?_, h⟩
        rcases List.mem_cons.mp hx with rfl | hx
        · exact hlt
        · exact Int.lt_trans hlt (hg x hx)

theorem positive_insert {now : Instant} {p : Count} {log : List Grant} (hp : 0 < p)
    (h : ∀ g ∈ log, 0 < g.permits) : ∀ g ∈ insert now p log, 0 < g.permits := by
  induction log with
  | nil =>
    intro g hg
    rw [insert, List.mem_singleton] at hg
    rw [hg]
    exact hp
  | cons a rest ih =>
    have hrest := fun g hg => h g (List.mem_cons_of_mem _ hg)
    have ha := h a List.mem_cons_self
    intro g hg
    rw [insert] at hg
    split at hg
    · rcases List.mem_cons.mp hg with rfl | hg
      · exact ha
      · exact ih hrest g hg
    · split at hg
      · rcases List.mem_cons.mp hg with rfl | hg
        · exact Count.plus_pos.mpr (.inl ha)
        · exact hrest g hg
      · rcases List.mem_cons.mp hg with rfl | hg
        · exact hp
        · exact h g hg

/-- Taking back from the end of a log keeps its order. -/
theorem Ordered.takeBack {log : List Grant} (h : Ordered log) (now : Instant) (window : Span)
    (n : Count) : Ordered (takeBack now window n log.reverse).reverse := by
  -- the order is one of stamps, and taking back changes none of them
  unfold Ordered at h ⊢
  rw [← List.pairwise_map (f := Grant.stamp) (R := (· < ·))] at h ⊢
  rw [List.map_reverse, map_stamp_takeBack, ← List.map_reverse, List.reverse_reverse]
  exact h

end Grant

namespace WindowCell

/-- The grants that a cell holds, counted or not. -/
def kept : WindowCell → List Grant
  | sliding log => log
  | fixed none => []
  | fixed (some g) => [g]

/-- The policy under which a cell counts. -/
def policy : WindowCell → WindowPolicy
  | sliding _ => .sliding
  | fixed _ => .fixed

/-- What holds of every cell of a store of the given policy. -/
structure Wf (policy : WindowPolicy) (cell : WindowCell) : Prop where
  policy_eq : cell.policy = policy
  ordered : Grant.Ordered cell.kept
  positive : policy = .sliding → ∀ g ∈ cell.kept, 0 < g.permits

variable {now : Instant} {window : Span}

@[simp] theorem kept_empty (policy : WindowPolicy) : (empty policy).kept = [] := by
  cases policy <;> rfl

theorem wf_empty (policy : WindowPolicy) : (empty policy).Wf policy where
  policy_eq := by cases policy <;> rfl
  ordered := by rw [kept_empty]; exact List.Pairwise.nil
  positive := by rw [kept_empty]; intro _ g hg; exact absurd hg List.not_mem_nil

/-- A fixed cell is well-formed whatever its window, so only the policy is at stake. -/
theorem Wf.of_fixed {policy : WindowPolicy} {w : Option Grant} (h : (fixed w).Wf policy)
    (w' : Option Grant) : (fixed w').Wf policy where
  policy_eq := h.policy_eq
  ordered := by
    cases w' with
    | none => exact List.Pairwise.nil
    | some g => exact List.pairwise_singleton _ _
  positive := fun hs => absurd (h.policy_eq.trans hs) (by simp [WindowCell.policy])

theorem toNat_used (now : Instant) (window : Span) (cell : WindowCell) :
    (cell.used now window).toNat = min (Grant.tally (live now window) cell.kept) 4294967295 := by
  match cell with
  | sliding log =>
    show (Grant.total (log.filter _)).toNat = _
    rw [Grant.toNat_total, Grant.tally_filter_counts]
    rfl
  | fixed none => rfl
  | fixed (some g) =>
    show (if g.counts now window then g.permits else 0).toNat = _
    rw [Grant.counts_eq_live, kept, Grant.tally_cons, Grant.tally_nil]
    have := Count.toNat_le_most g.permits
    split
    · omega
    · rfl

/-! ## Recording -/

theorem Wf.record {policy : WindowPolicy} {cell : WindowCell} (h : cell.Wf policy) {p : Count}
    (hp : 0 < p) : (cell.record now window p).Wf policy := by
  match cell, h with
  | sliding log, h =>
    refine ⟨h.policy_eq, (h.ordered.dropWhile _).insert p, fun hs => ?_⟩
    exact Grant.positive_insert hp fun g hg =>
      h.positive hs g ((List.dropWhile_sublist _).subset hg)
  | fixed none, h => exact h.of_fixed _
  | fixed (some g), h =>
    rw [WindowCell.record]
    split <;> exact h.of_fixed _

/-- Recording in a log adds the permits to every tally of counted stamps that holds the new one. -/
theorem tally_record_sliding {q : Instant → Bool} {log : List Grant} {p : Count}
    (hq : ∀ t, q t = true → live now window t = true)
    (h : Grant.tally q log + p.toNat ≤ 4294967295) :
    Grant.tally q ((sliding log).record now window p).kept =
      Grant.tally q log + (if q now then p.toNat else 0) := by
  show Grant.tally q (Grant.insert now p (log.dropWhile _)) = _
  have hdrop := Grant.tally_dropWhile_of_live hq log
  rw [Grant.tally_insert, hdrop]
  rw [hdrop]
  split <;> omega

/-- From a counted stamp on, recording in a log adds the permits, if the new stamp is one. -/
theorem tally_since_record (hw : 0 < window.nanos) {cell : WindowCell}
    (hpolicy : cell.policy = .sliding) {t : Instant} (ht : now.cutoff window ≤ t) {p : Count}
    (h : Grant.tally (live now window) cell.kept + p.toNat ≤ 4294967295) :
    Grant.tally (t ≤ ·) (cell.record now window p).kept =
      Grant.tally (t ≤ ·) cell.kept + (if t ≤ now then p.toNat else 0) := by
  have hlive : ∀ s, decide (t ≤ s) = true → live now window s = true := fun s hs =>
    live_of_cutoff_le hw ht (of_decide_eq_true hs)
  have hmono := Grant.tally_mono hlive cell.kept
  match cell with
  | sliding log =>
    have hbound : Grant.tally (t ≤ ·) log + p.toNat ≤ 4294967295 :=
      Nat.le_trans (Nat.add_le_add_right hmono _) h
    have hlog := tally_record_sliding hlive hbound
    simp only [decide_eq_true_eq] at hlog
    exact hlog
  | fixed _ => exact absurd hpolicy (by simp [WindowCell.policy])

/-- Recording adds exactly its permits to what the cell counts. -/
theorem tally_record (hw : 0 < window.nanos) {cell : WindowCell} {p : Count}
    (h : Grant.tally (live now window) cell.kept + p.toNat ≤ 4294967295) :
    Grant.tally (live now window) (cell.record now window p).kept =
      Grant.tally (live now window) cell.kept + p.toNat := by
  match cell with
  | sliding log =>
    have hlog := tally_record_sliding (fun _ h => h) h
    rw [if_pos (live_self hw now)] at hlog
    exact hlog
  | fixed none => simp [WindowCell.record, kept, live_self hw now]
  | fixed (some g) =>
    rw [WindowCell.record, Grant.counts_eq_live]
    simp only [kept, Grant.tally_cons, Grant.tally_nil] at h ⊢
    -- a window that still counts is continued, any other gives way to a new one
    by_cases hg : live now window g.stamp = true
    · rw [if_pos hg] at h ⊢
      simp only [Grant.tally_cons, Grant.tally_nil, hg, if_true, Count.toNat_plus]
      omega
    · rw [if_neg hg] at h ⊢
      simp [live_self hw now, hg]

/-- Right after a record nothing is kept that does not count: the grants before the first counted
one were dropped, and in an ordered log all later ones count too. -/
theorem live_of_mem_record (hw : 0 < window.nanos) {cell : WindowCell}
    (h : Grant.Ordered cell.kept) {p : Count} {g : Grant}
    (hg : g ∈ (cell.record now window p).kept) : live now window g.stamp = true := by
  match cell with
  | sliding log =>
    refine (Grant.forall_mem_insert (P := fun t => live now window t = true)).mpr
      ⟨live_self hw now, fun y hy => ?_⟩ g hg
    exact Grant.live_of_mem_dropWhile h hy
  | fixed none =>
    rw [List.mem_singleton.mp hg]
    exact live_self hw now
  | fixed (some w) =>
    rw [WindowCell.record, Grant.counts_eq_live] at hg
    split at hg
    · next hlive => rw [List.mem_singleton.mp hg]; exact hlive
    · rw [List.mem_singleton.mp hg]; exact live_self hw now

/-! ## Giving back -/

theorem Wf.giveBack {policy : WindowPolicy} {cell : WindowCell} (h : cell.Wf policy)
    (n : Count) : (cell.giveBack now window n).Wf policy := by
  match cell, h with
  | sliding log, h =>
    refine ⟨h.policy_eq, ?_, fun _ g hg => ?_⟩
    · exact List.Pairwise.sublist List.filter_sublist (h.ordered.takeBack now window n)
    · exact of_decide_eq_true (List.mem_filter.mp hg).2
  | fixed none, h => exact h
  | fixed (some g), h =>
    rw [WindowCell.giveBack]
    split <;> exact h.of_fixed _

/-- Giving back lowers the permits from any counted stamp on by the number given back, down to
zero. -/
theorem tally_giveBack {cell : WindowCell} (h : Grant.Ordered cell.kept) {t : Instant}
    (ht : ∀ s, t ≤ s → live now window s = true) (n : Count) :
    Grant.tally (t ≤ ·) (cell.giveBack now window n).kept =
      Grant.tally (t ≤ ·) cell.kept - n.toNat := by
  match cell with
  | sliding log =>
    have hdesc : log.reverse.Pairwise fun a b => b.stamp ≤ a.stamp :=
      (List.pairwise_reverse.mpr h).imp Int.le_of_lt
    show Grant.tally _ (((Grant.takeBack now window n log.reverse).reverse).filter _) = _
    rw [Grant.tally_filter_positive, Grant.tally_reverse, Grant.tally_takeBack hdesc ht,
      Grant.tally_reverse]
    rfl
  | fixed none => exact (Nat.zero_sub _).symm
  | fixed (some g) =>
    rw [WindowCell.giveBack, Grant.counts_eq_live]
    by_cases htg : t ≤ g.stamp
    · simp [kept, ht _ htg, htg]
    · split <;> simp [kept, htg]

/-- Giving back raises no tally. -/
theorem tally_giveBack_le {q : Instant → Bool} (cell : WindowCell) (n : Count) :
    Grant.tally q (cell.giveBack now window n).kept ≤ Grant.tally q cell.kept := by
  match cell with
  | sliding log =>
    show Grant.tally _ (((Grant.takeBack now window n log.reverse).reverse).filter _) ≤ _
    rw [Grant.tally_filter_positive, Grant.tally_reverse]
    refine Nat.le_trans (Grant.tally_takeBack_le now window n _) ?_
    rw [Grant.tally_reverse]
    exact Nat.le_refl _
  | fixed none => exact Nat.le_refl _
  | fixed (some g) =>
    rw [WindowCell.giveBack]
    split
    · simp only [kept, Grant.tally_cons, Grant.tally_nil, Count.toNat_minus]
      split <;> omega
    · exact Nat.le_refl _

end WindowCell

end Admission
