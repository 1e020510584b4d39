import Admission.Proofs.CellRun

/-!
# A log counts at least what a window counts

A sliding cell and a fixed cell may live through the same calls.  While the clock does not go back,
the fixed cell never counts more: its window is over as a whole, and the log forgets a grant only
when it is a whole window old itself.

* `WindowCell.Outweighs` — what relates the two cells at a reading.  From the start of the window
  that is open, if one is, the log holds at least as much as the window counts.  All of these
  grants count, so a record drops none of them, and where the sums are cut off at the largest count
  both are.
* `WindowCell.used_fixed_le_used_sliding` — hence over every run, also one that gives permits back,
  and at every reading after it.  A clock that goes back breaks this: a record at an earlier reading
  joins the open window, but is a grant of its own in the log, and expires before the others.
-/

namespace Admission

namespace WindowCell

variable {window : Span} {last now : Instant}

/-- The log holds at least the permits of an open window from its start on, and no window starts in
the future. -/
structure Outweighs (last : Instant) (window : Span) (log fixed : WindowCell) : Prop where
  log_wf : log.Wf .sliding
  fixed_wf : fixed.Wf .fixed
  covers : ∀ g ∈ fixed.present last window,
    g.stamp ≤ last ∧ g.permits.toNat ≤ Grant.tally (g.stamp ≤ ·) log.kept

/-- A record adds its permits to the tally from any counted stamp on, up to the largest count. -/
theorem min_tally_since_record {cell : WindowCell} (hpolicy : cell.policy = .sliding) {t : Instant}
    (ht : live now window t = true) (hle : t ≤ now) (p : Count) :
    min (Grant.tally (t ≤ ·) (cell.record now window p).kept) 4294967295 =
      min (Grant.tally (t ≤ ·) cell.kept + p.toNat) 4294967295 := by
  match cell with
  | fixed _ => cases hpolicy
  | sliding log =>
    show min (Grant.tally _ (Grant.insert now p (log.dropWhile _))) _ = _
    have hlive : ∀ s, decide (t ≤ s) = true → live now window s = true := fun _ hs =>
      live_of_le (of_decide_eq_true hs) ht
    rw [Grant.min_tally_insert, Grant.tally_dropWhile_of_live hlive, if_pos (decide_eq_true hle)]
    rfl

namespace Outweighs

variable {log fixed : WindowCell}

theorem empty (last : Instant) (window : Span) :
    Outweighs last window (.empty .sliding) (.empty .fixed) where
  log_wf := wf_empty .sliding
  fixed_wf := wf_empty .fixed
  covers := by
    rw [present_empty]
    intro g hg
    cases hg

theorem mono (h : Outweighs last window log fixed) (hle : last ≤ now) :
    Outweighs now window log fixed where
  log_wf := h.log_wf
  fixed_wf := h.fixed_wf
  covers := by
    intro g hg
    rw [present_of_reading_le hle] at hg
    obtain ⟨hstart, hcovered⟩ := h.covers g (List.mem_filter.mp hg).1
    exact ⟨Int.le_trans hstart hle, hcovered⟩

theorem record (h : Outweighs now window log fixed) {p : Count} (hp : 0 < p) :
    Outweighs now window (log.record now window p) (fixed.record now window p) := by
  obtain ⟨hlog, hfixed, hcovers⟩ := h
  refine ⟨hlog.record hp, hfixed.record hp, ?_⟩
  cases fixed with
  | sliding _ => cases hfixed.policy_eq
  | fixed w =>
    intro g hg
    have hopen := counts_of_mem_present hg
    rcases mem_kept_record_fixed (List.mem_filter.mp hg).1 with rfl | ⟨first, hfirst, rfl⟩
    · -- the window starts with these permits, and the log has them at the same instant
      have hadded := min_tally_since_record hlog.policy_eq hopen (Int.le_refl _) p
      have hmost := Count.toNat_le_most p
      refine ⟨Int.le_refl _, ?_⟩
      dsimp only at hadded ⊢
      omega
    · obtain ⟨hstart, hcovered⟩ := hcovers first hfirst
      have hadded := min_tally_since_record hlog.policy_eq hopen hstart p
      refine ⟨hstart, ?_⟩
      rw [Count.toNat_plus]
      dsimp only at hadded ⊢
      omega

/-- Both cells give back as much as they can, the log from its newest grants. -/
theorem giveBack (h : Outweighs now window log fixed) (n : Count) :
    Outweighs now window (log.giveBack now window n) (fixed.giveBack now window n) := by
  obtain ⟨hlog, hfixed, hcovers⟩ := h
  refine ⟨hlog.giveBack n, hfixed.giveBack n, ?_⟩
  cases fixed with
  | sliding _ => cases hfixed.policy_eq
  | fixed w =>
    intro g hg
    rw [present_giveBack_fixed] at hg
    obtain ⟨first, hfirst, rfl⟩ := List.mem_map.mp hg
    obtain ⟨hstart, hcovered⟩ := hcovers first hfirst
    refine ⟨hstart, ?_⟩
    rw [Count.toNat_minus,
      tally_giveBack hlog.ordered (fun _ hs => live_of_le hs (counts_of_mem_present hfirst)) n]
    exact Nat.sub_le_sub_right hcovered _

theorem step (h : Outweighs last window log fixed) (e : Instant × CellCall) (hle : last ≤ e.1) :
    Outweighs e.1 window (log.step window e).1 (fixed.step window e).1 := by
  obtain ⟨now, call⟩ := e
  cases call with
  | record _ pos => exact (h.mono hle).record pos
  | giveBack n => exact (h.mono hle).giveBack n

theorem used_le (h : Outweighs now window log fixed) :
    fixed.used now window ≤ log.used now window := by
  rw [UInt32.le_iff_toNat_le, toNat_used, toNat_used]
  obtain ⟨_, hfixed, hcovers⟩ := h
  match fixed with
  | .sliding _ => cases hfixed.policy_eq
  | .fixed none => exact Nat.zero_le _
  | .fixed (some g) =>
    rw [kept, Grant.tally_cons, Grant.tally_nil]
    split
    · next hopen =>
      have hpresent : g ∈ (WindowCell.fixed (some g)).present now window :=
        List.mem_filter.mpr ⟨List.mem_cons_self, hopen⟩
      obtain ⟨_, hcovered⟩ := hcovers g hpresent
      have hcounted : Grant.tally (g.stamp ≤ ·) log.kept ≤
          Grant.tally (live now window) log.kept :=
        Grant.tally_mono (fun _ hs => live_of_le (of_decide_eq_true hs) hopen) _
      omega
    · exact Nat.zero_le _

end Outweighs

/-- **A fixed cell never counts more than a log.** Whatever is recorded in a fixed cell and in a
sliding one, or given back to both, under a clock that does not go back: at every reading that no
call was after, the fixed cell counts at most what the sliding one counts.  This holds also where
the counts are cut off at the largest one, and of every window, one of no length included. -/
theorem used_fixed_le_used_sliding (window : Span) {calls : List (Instant × CellCall)}
    (hclock : Chronological calls) {now : Instant} (hnow : ∀ e ∈ calls, e.1 ≤ now) :
    (run (WindowCell.step window) (.empty .fixed) calls).1.used now window ≤
      (run (WindowCell.step window) (.empty .sliding) calls).1.used now window := by
  obtain ⟨last, hlast, hend⟩ := run_both_until (WindowCell.step window) (WindowCell.step window)
    (R := fun last => Outweighs last window) (fun _ _ _ e h hle => h.step e hle)
    (fun last => Outweighs.empty last window) hclock hnow
  exact (hend.mono hlast).used_le

/-- Thirty permits start a window and twenty come near its end; forty start the next window, and ten
of them come back. -/
def acrossTheWindow : List (Instant × CellCall) :=
  [(⟨0⟩, .record 30 (by decide)), (⟨900000000⟩, .record 20 (by decide)),
    (⟨1000000000⟩, .record 40 (by decide)), (⟨1200000000⟩, .giveBack 10)]

/-- At 1.5 s the new window counts thirty permits, and the log also the twenty near the end of the
old one. -/
theorem used_fixed_le_used_sliding_acrossTheWindow :
    Chronological acrossTheWindow ∧ (∀ e ∈ acrossTheWindow, e.1 ≤ ⟨1500000000⟩) ∧
      (run (WindowCell.step (.seconds 1)) (.empty .fixed) acrossTheWindow).1.used ⟨1500000000⟩
          (.seconds 1) ≤
        (run (WindowCell.step (.seconds 1)) (.empty .sliding) acrossTheWindow).1.used ⟨1500000000⟩
          (.seconds 1) ∧
      (run (WindowCell.step (.seconds 1)) (.empty .fixed) acrossTheWindow).1.used ⟨1500000000⟩
          (.seconds 1) = 30 ∧
      (run (WindowCell.step (.seconds 1)) (.empty .sliding) acrossTheWindow).1.used ⟨1500000000⟩
          (.seconds 1) = 50 := by
  have hclock : Chronological acrossTheWindow := by
    unfold Chronological
    decide
  have hnow : ∀ e ∈ acrossTheWindow, e.1 ≤ ⟨1500000000⟩ := by decide
  exact ⟨hclock, hnow, used_fixed_le_used_sliding (.seconds 1) hclock hnow, rfl, rfl⟩

/-- After the clock has gone back the fixed cell may count more: its window takes in a record of the
past, and keeps it for as long as it is open. -/
example :
    (run (WindowCell.step (.seconds 10)) (.empty .sliding) acrossTheClock).1.used
        ⟨105000000000⟩ (.seconds 10) <
      (run (WindowCell.step (.seconds 10)) (.empty .fixed) acrossTheClock).1.used
        ⟨105000000000⟩ (.seconds 10) := by decide

end WindowCell

end Admission
