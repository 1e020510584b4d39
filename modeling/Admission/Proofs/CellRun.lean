import Admission.Proofs.Restart

/-!
# The life of one cell, and its replay

A cell lists the grants that it counts, and a cell that counts as much can be made from the list:
each grant is recorded in an empty cell at its own stamp.  A record drops what has expired at the
stamp that it is given.  So a replay loses a grant if a later one of the list is a whole window
newer, and this happens: after the clock has gone back, a log holds grants of the future beside
those of the present, and counts them all.

* `WindowCell.step` — a cell that grants are recorded in and given back to, at any readings.
* `Grant.Together` — no grant of a list is a whole window older than a later one.
* `WindowCell.replay_reproduces_iff` — a replay never counts more than the cell that it was taken
  from, and counts as much if and only if the list stands together (or the largest count hides what
  is lost).  Under the fixed policy, under a clock that never goes back, and at a reading that no
  call was after, it does.
* `WindowCell.replay_loses_past` — a replay that counts less.
-/

namespace Admission

/-- What is done to a cell.  An empty grant is never recorded. -/
inductive CellCall where
  | record (permits : Count) (pos : 0 < permits)
  | giveBack (permits : Count)

/-- No grant of a list is a whole window older than a later one. -/
def Grant.Together (window : Span) (gs : List Grant) : Prop :=
  gs.Pairwise fun e g => live g.stamp window e.stamp = true

namespace WindowCell

/-- A cell goes through a call at a reading of the clock. -/
def step (window : Span) (cell : WindowCell) : Instant × CellCall → WindowCell × Unit
  | (now, .record permits _) => (cell.record now window permits, ())
  | (now, .giveBack permits) => (cell.giveBack now window permits, ())

variable {policy : WindowPolicy} {window : Span} {cell : WindowCell} {last now : Instant}
variable {calls : List (Instant × CellCall)}

/-! ## What calls keep -/

theorem Wf.step (h : cell.Wf policy) (e : Instant × CellCall) :
    (cell.step window e).1.Wf policy := by
  obtain ⟨now, call⟩ := e
  cases call with
  | record permits pos => exact h.record pos
  | giveBack permits => exact h.giveBack permits

theorem wf_run (policy : WindowPolicy) (window : Span) (calls : List (Instant × CellCall)) :
    (run (WindowCell.step window) (.empty policy) calls).1.Wf policy :=
  run_invariant (fun _ e h => h.step e) (wf_empty policy) calls

/-- What comes back changes no stamp. -/
theorem forall_mem_giveBack {P : Instant → Prop} {now : Instant} {n : Count}
    (h : ∀ g ∈ cell.kept, P g.stamp) : ∀ g ∈ (cell.giveBack now window n).kept, P g.stamp := by
  intro g hg
  have hstamps := stamps_giveBack now window cell n
  obtain ⟨x, hx, heq⟩ := List.mem_map.mp (hstamps.subset (List.mem_map_of_mem hg))
  rw [← heq]
  exact h x hx

/-- A call brings no stamp in but its own reading. -/
theorem forall_mem_step {P : Instant → Prop} {e : Instant × CellCall} (he : P e.1)
    (h : ∀ g ∈ cell.kept, P g.stamp) : ∀ g ∈ (cell.step window e).1.kept, P g.stamp := by
  obtain ⟨now, call⟩ := e
  cases call with
  | record permits _ => exact forall_mem_record he h permits
  | giveBack permits => exact forall_mem_giveBack h

/-- What holds of the reading of every call holds of every stamp in the cell. -/
theorem forall_mem_run {P : Instant → Prop} (h : ∀ e ∈ calls, P e.1) :
    ∀ g ∈ (run (WindowCell.step window) (.empty policy) calls).1.kept, P g.stamp := by
  have hempty : ∀ g ∈ (empty policy).kept, P g.stamp := by
    rw [kept_empty]
    intro g hg
    cases hg
  exact run_keeps (P := fun cell : WindowCell => ∀ g ∈ cell.kept, P g.stamp)
    (fun _ e he hcell => forall_mem_step (h e he) hcell) hempty

theorem Recent.step (hw : 0 < window.nanos) (hwf : cell.Wf policy) (h : cell.Recent last window)
    (e : Instant × CellCall) (hle : last ≤ e.1) : (cell.step window e).1.Recent e.1 window := by
  obtain ⟨now, call⟩ := e
  replace h := h.mono hle
  cases call with
  | record permits _ => exact h.record hw hwf.ordered permits
  | giveBack permits => exact h.giveBack permits

/-- A clock that never goes back leaves a recent cell. -/
theorem exists_recent_of_run (hw : 0 < window.nanos) (policy : WindowPolicy)
    (hclock : Chronological calls) :
    ∃ last, (run (WindowCell.step window) (.empty policy) calls).1.Recent last window := by
  obtain ⟨last, _, hrecent⟩ := run_trace
    (P := fun last (cell : WindowCell) _ => cell.Wf policy ∧ cell.Recent last window)
    (fun _ _ _ e h hle => ⟨h.1.step e, h.2.step hw h.1 e hle⟩)
    (fun last => ⟨wf_empty policy, Recent.empty last window policy⟩) hclock
  exact ⟨last, hrecent⟩

/-! ## What a cell lists -/

theorem grants_sublist (now : Instant) (window : Span) (cell : WindowCell) :
    (cell.grants now window).Sublist cell.kept := by
  rcases cell with log | (_ | g)
  · exact List.filter_sublist
  · exact List.Sublist.refl _
  · rw [grants]
    split
    · exact List.Sublist.refl _
    · exact List.nil_sublist _

theorem mem_grants (h : cell.Wf policy) {g : Grant} (hg : g ∈ cell.grants now window) :
    0 < g.permits ∧ live now window g.stamp = true := by
  rcases cell with log | (_ | w)
  · obtain ⟨hlog, hcounts⟩ := List.mem_filter.mp hg
    exact ⟨h.positive h.policy_eq.symm g hlog, hcounts⟩
  · cases hg
  · rw [grants] at hg
    split at hg
    · next hopen =>
      rw [List.mem_singleton.mp hg]
      exact hopen
    · cases hg

/-- What a cell lists is what it counts. -/
theorem total_grants (now : Instant) (window : Span) (cell : WindowCell) :
    Grant.total (cell.grants now window) = cell.used now window := by
  rcases cell with log | (_ | g)
  · rfl
  · rfl
  · have hused := used_eq_total_present now window (fixed (some g))
    rw [← Grant.total_filter_positive] at hused
    rw [hused]
    by_cases hp : 0 < g.permits
    · by_cases hg : g.counts now window = true
      · simp [grants, present, kept, hp, hg]
      · simp [grants, present, kept, hg]
    · by_cases hg : g.counts now window = true
      · simp [grants, present, kept, hp, hg]
      · simp [grants, present, kept, hg]

/-- An empty cell absorbs a list that stands together; an open window is a list of its own. -/
theorem absorbs_empty_iff (h : cell.Wf policy) :
    (empty policy).Absorbs now window (cell.grants now window) ↔
      Grant.Together window (cell.grants now window) := by
  obtain rfl := h.policy_eq
  rcases cell with log | (_ | g)
  · apply and_iff_right
    intro e he
    cases he
  · exact iff_of_true trivial List.Pairwise.nil
  · rw [grants]
    split
    · exact iff_of_true (List.forall_mem_nil _) (List.pairwise_singleton _ _)
    · exact iff_of_true trivial List.Pairwise.nil

/-! ## Lists that stand together -/

theorem together_of_fixed (h : cell.Wf .fixed) (now : Instant) (window : Span) :
    Grant.Together window (cell.grants now window) := by
  rcases cell with log | (_ | g)
  · cases h.policy_eq
  · exact List.Pairwise.nil
  · exact (List.pairwise_singleton _ g).sublist (grants_sublist now window _)

theorem Recent.together_grants (h : cell.Recent last window) (now : Instant) :
    Grant.Together window (cell.grants now window) :=
  h.together.sublist (grants_sublist now window cell)

/-- What counts at a reading and is not after it is less than a window old, and counted at every
stamp before. -/
theorem together_of_past (h : cell.Wf policy) (hpast : ∀ g ∈ cell.kept, g.stamp ≤ now) :
    Grant.Together window (cell.grants now window) := by
  apply List.pairwise_of_forall_mem_list
  intro e he g hg
  have hnow : g.stamp ≤ now := hpast g ((grants_sublist now window cell).subset hg)
  exact live_of_reading_le hnow (mem_grants h he).2

theorem together_of_no_window (hw : ¬ 0 < window.nanos) (h : cell.Wf policy) :
    Grant.Together window (cell.grants now window) := by
  have hnone : cell.grants now window = [] := by
    rw [List.eq_nil_iff_forall_not_mem]
    intro g hg
    exact hw (live_iff.mp (mem_grants h hg).2).2
  rw [hnone]
  exact List.Pairwise.nil

/-! ## The replay -/

/-- **A replay brings back what stands together.** Whatever was recorded in a cell and given back
to it, at whatever readings: its list, recorded grant by grant in an empty cell, never counts more
than the cell, and counts as much if and only if no grant of the list is a whole window older than
a later one, or the largest count is reached all the same.  So it counts as much under the fixed
policy, and where the clock never went back, and at every reading that no call was after. -/
theorem replay_reproduces_iff (policy : WindowPolicy) (window : Span)
    (calls : List (Instant × CellCall)) (now : Instant) :
    let cell := (run (WindowCell.step window) (.empty policy) calls).1
    let again := (empty policy).replay window (cell.grants now window)
    again.used now window ≤ cell.used now window ∧
      (again.used now window = cell.used now window ↔
        Grant.Together window (cell.grants now window) ∨ again.used now window = .most) ∧
      (policy = .fixed ∨ Chronological calls ∨ (∀ e ∈ calls, e.1 ≤ now) →
        again.used now window = cell.used now window) := by
  intro cell again
  have hwf : cell.Wf policy := wf_run policy window calls
  have hsum : Count.plus ((empty policy).used now window)
      (Grant.total (cell.grants now window)) = cell.used now window := by
    have hzero : (empty policy).used now window = 0 := by cases policy <;> rfl
    have hmost := Count.toNat_le_most (cell.used now window)
    rw [total_grants, hzero, ← UInt32.toNat_inj, Count.toNat_plus, UInt32.toNat_zero]
    omega
  have hcounted : ∀ g ∈ cell.grants now window, 0 < g.permits ∧ live now window g.stamp = true :=
    fun g hg => mem_grants hwf hg
  obtain ⟨hle, hiff⟩ := used_replay (wf_empty policy) hcounted
  rw [hsum] at hle hiff
  rw [absorbs_empty_iff hwf] at hiff
  refine ⟨hle, hiff, ?_⟩
  intro hcases
  apply hiff.mpr
  left
  rcases hcases with rfl | hclock | hpast
  · exact together_of_fixed hwf now window
  · by_cases hw : 0 < window.nanos
    · obtain ⟨last, hrecent⟩ := exists_recent_of_run hw policy hclock
      exact hrecent.together_grants now
    · exact together_of_no_window hw hwf
  · exact together_of_past hwf (forall_mem_run (P := (· ≤ now)) hpast)

/-- A permit is taken at 100 s and, after the clock has gone back, another one at 0 s. -/
def acrossTheClock : List (Instant × CellCall) :=
  [(⟨100000000000⟩, .record 1 (by decide)), (⟨0⟩, .record 1 (by decide))]

/-- At 0 s the cell counts both permits; its list makes a cell that counts one. -/
theorem replay_loses_past :
    let cell := (run (WindowCell.step (.seconds 10)) (.empty .sliding) acrossTheClock).1
    let again := (empty .sliding).replay (.seconds 10) (cell.grants ⟨0⟩ (.seconds 10))
    cell.used ⟨0⟩ (.seconds 10) = 2 ∧ again.used ⟨0⟩ (.seconds 10) = 1 := by
  exact ⟨rfl, rfl⟩

end WindowCell

end Admission
