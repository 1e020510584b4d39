import Admission.Proofs.CellRun

/-!
# What a record does to a log

The log of a sliding cell is kept in order of stamps, whatever the clock does.  Everything else that
is done to it leans on this: the grants that still count are a tail of it, so they are all that is
left when the first grants that do not count are dropped, and a search by halves finds where a new
stamp belongs.

* `Grant.insert_eq_at_partitionPoint` — a grant goes in where the search ends: among the grants of
  its own stamp, or as a grant of its own at that place.
* `WindowCell.min_tally_record_log` — a record adds its permits to what counts at every later
  reading at which it counts itself, and what it drops counts at none of them.
* `WindowCell.log_after_record` — the invariant over every run, and what the next record does.  In a
  window of no length nothing counts, not even what was just recorded
  (`WindowCell.no_window_counts_nothing`).
-/

namespace Admission

namespace Grant

variable {now : Instant} {window : Span} {log : List Grant}

/-- In an ordered log the grants that count are those from the first of them on. -/
theorem Ordered.counted_suffix (h : Ordered log) (now : Instant) (window : Span) :
    log.filter (counts now window) <:+ log := by
  rw [← h.dropWhile_eq_filter]
  exact List.dropWhile_suffix _

/-- The place in a log before which all stamps are earlier than `now`, and from which on none is. -/
structure PartitionPoint (now : Instant) (log : List Grant) (slot : Nat) : Prop where
  slot_le : slot ≤ log.length
  earlier_iff : ∀ i g, log[i]? = some g → (g.stamp < now ↔ i < slot)

theorem Ordered.exists_partitionPoint (h : Ordered log) (now : Instant) :
    ∃ slot, PartitionPoint now log slot := by
  induction log with
  | nil => exact ⟨0, Nat.le_refl 0, fun i g hg => by simp at hg⟩
  | cons a rest ih =>
    obtain ⟨ha, hrest⟩ := List.pairwise_cons.mp h
    by_cases hearly : a.stamp < now
    · obtain ⟨slot, hle, hiff⟩ := ih hrest
      refine ⟨slot + 1, Nat.succ_le_succ hle, fun i g hg => ?_⟩
      cases i with
      | zero =>
        obtain rfl := Option.some.inj hg
        exact iff_of_true hearly (Nat.succ_pos slot)
      | succ i =>
        rw [List.getElem?_cons_succ] at hg
        rw [hiff i g hg, Nat.succ_lt_succ_iff]
    · refine ⟨0, Nat.zero_le _, fun i g hg => ?_⟩
      refine iff_of_false (fun hlt => hearly ?_) (Nat.not_lt_zero i)
      rcases List.mem_cons.mp (List.mem_of_getElem? hg) with rfl | hmem
      · exact hlt
      · exact Int.lt_trans (ha g hmem) hlt

/-- A grant goes in where a search for its stamp ends: into the grant there if that has the same
stamp, and else at that place. -/
theorem insert_eq_at_partitionPoint {slot : Nat} (h : PartitionPoint now log slot) (p : Count) :
    insert now p log =
      match log[slot]? with
      | some g =>
        if g.stamp = now then log.set slot ⟨now, Count.plus g.permits p⟩
        else log.insertIdx slot ⟨now, p⟩
      | none => log.insertIdx slot ⟨now, p⟩ := by
  induction log generalizing slot with
  | nil =>
    obtain rfl : slot = 0 := Nat.le_zero.mp h.slot_le
    rfl
  | cons a rest ih =>
    have hfirst := h.earlier_iff 0 a rfl
    cases slot with
    | zero =>
      rw [insert, if_neg fun hlt => Nat.not_lt_zero 0 (hfirst.mp hlt)]
      show _ = if a.stamp = now then _ else _
      split
      · next heq => rw [List.set_cons_zero, heq]
      · rfl
    | succ slot =>
      have hrest : PartitionPoint now rest slot :=
        ⟨Nat.le_of_succ_le_succ h.slot_le, fun i g hg => by
          rw [h.earlier_iff (i + 1) g (by simpa using hg), Nat.succ_lt_succ_iff]⟩
      rw [insert, if_pos (hfirst.mpr (Nat.succ_pos slot)), ih hrest, List.getElem?_cons_succ]
      cases rest[slot]? with
      | none => rfl
      | some g =>
        dsimp only
        split <;> rfl

/-- An ordered log has one place for a stamp, wherever a search starts: there a grant goes in. -/
theorem Ordered.insert_by_search (h : Ordered log) (now : Instant) (p : Count) :
    ∃ slot, PartitionPoint now log slot ∧ Grant.insert now p log =
      match log[slot]? with
      | some g =>
        if g.stamp = now then log.set slot ⟨now, Count.plus g.permits p⟩
        else log.insertIdx slot ⟨now, p⟩
      | none => log.insertIdx slot ⟨now, p⟩ := by
  obtain ⟨slot, hslot⟩ := h.exists_partitionPoint now
  exact ⟨slot, hslot, insert_eq_at_partitionPoint hslot p⟩

end Grant

namespace WindowCell

variable {window : Span} {now t : Instant}

/-- A record adds its permits to what counts at any later reading at which they count, up to the
largest count. -/
theorem min_tally_record_log (window : Span) (log : List Grant) (hle : now ≤ t) (p : Count) :
    min (Grant.tally (live t window) ((sliding log).record now window p).kept) 4294967295 =
      min (Grant.tally (live t window) log + if live t window now then p.toNat else 0)
        4294967295 := by
  show min (Grant.tally _ (Grant.insert now p (log.dropWhile _))) _ = _
  -- what is dropped at `now` does not count at `t` either
  have hlive : ∀ s, live t window s = true → live now window s = true := fun _ hs =>
    live_of_reading_le hle hs
  rw [Grant.min_tally_insert, Grant.tally_dropWhile_of_live hlive]

/-- At every later reading a log counts the permits of a record in addition, if they count then. -/
theorem used_record_log (log : List Grant) (hle : now ≤ t) (p : Count) :
    ((sliding log).record now window p).used t window =
      if elapsed now t < window then Count.plus ((sliding log).used t window) p
      else (sliding log).used t window := by
  have hsum := min_tally_record_log window log hle p
  have hcounts : live t window now = true ↔ elapsed now t < window := decide_eq_true_iff
  rw [← UInt32.toNat_inj, toNat_used, hsum]
  by_cases hin : elapsed now t < window
  · rw [if_pos hin, if_pos (hcounts.mpr hin), Count.toNat_plus, toNat_used, kept]
    omega
  · rw [if_neg hin, if_neg fun h => hin (hcounts.mp h), toNat_used, kept, Nat.add_zero]

/-- **The log of a cell.** Whatever was recorded in a sliding cell and given back to it, at whatever
readings: its grants are in strict order of their stamps, none is empty, and those that count at a
reading are the last ones.  Right after a record everything that is left counts, and at every later
reading the cell counts the new permits in addition to what it counted before, for as long as they
count themselves.  Only in a window of no length does a record not even count when it is made. -/
theorem log_after_record (window : Span) (calls : List (Instant × CellCall)) :
    let cell := (run (WindowCell.step window) (.empty .sliding) calls).1
    (∃ log, cell = .sliding log ∧ Grant.Ordered log ∧ (∀ g ∈ log, 0 < g.permits) ∧
      ∀ t, log.filter (Grant.counts t window) <:+ log) ∧
    ∀ (now : Instant) (p : Count),
      let after := cell.record now window p
      (0 < window.nanos →
        (∀ g ∈ after.kept, g.counts now window = true) ∧
        after.used now window = Count.plus (cell.used now window) p) ∧
      ∀ t, now ≤ t → after.used t window =
        if elapsed now t < window then Count.plus (cell.used t window) p
        else cell.used t window := by
  intro cell
  have hwf : cell.Wf .sliding := wf_run .sliding window calls
  obtain ⟨log, hlog⟩ : ∃ log, cell = .sliding log := by
    cases hcell : cell with
    | sliding log => exact ⟨log, rfl⟩
    | fixed w =>
      rw [hcell] at hwf
      cases hwf.policy_eq
  rw [hlog] at hwf ⊢
  refine ⟨⟨log, rfl, hwf.ordered, hwf.positive rfl, fun t => ?_⟩, ?_⟩
  · exact Grant.Ordered.counted_suffix hwf.ordered t window
  intro now p after
  have hlater : ∀ t, now ≤ t → after.used t window =
      if elapsed now t < window then Count.plus ((sliding log).used t window) p
      else (sliding log).used t window := fun t hle => used_record_log log hle p
  refine ⟨fun hw => ⟨fun g hg => live_of_mem_record hw hwf.ordered hg, ?_⟩, hlater⟩
  have hself : elapsed now now < window := by
    rw [elapsed_self]
    exact hw
  rw [hlater now (Int.le_refl _), if_pos hself]

/-- Fifty permits at 20 s, ninety more at the same instant, all but one of them returned, and then
seventy at 5 s, behind the clock. -/
def behindTheClock : List (Instant × CellCall) :=
  [(⟨20000000000⟩, .record 50 (by decide)), (⟨20000000000⟩, .record 90 (by decide)),
    (⟨21000000000⟩, .giveBack 139), (⟨5000000000⟩, .record 70 (by decide))]

/-- A record at 14 s in a window of ten seconds: it goes in between the two grants of the log, all
three count, and at 16 s the one of 5 s is gone and the others are left. -/
theorem log_after_record_behindTheClock :
    let cell := (run (WindowCell.step (.seconds 10)) (.empty .sliding) behindTheClock).1
    let after := cell.record ⟨14000000000⟩ (.seconds 10) 4294967294
    cell = .sliding [⟨⟨5000000000⟩, 70⟩, ⟨⟨20000000000⟩, 1⟩] ∧
      after = .sliding [⟨⟨5000000000⟩, 70⟩, ⟨⟨14000000000⟩, 4294967294⟩, ⟨⟨20000000000⟩, 1⟩] ∧
      (∀ g ∈ after.kept, g.counts ⟨14000000000⟩ (.seconds 10) = true) ∧
      after.used ⟨14000000000⟩ (.seconds 10) = .most ∧
      after.used ⟨16000000000⟩ (.seconds 10) = 4294967295 ∧
      after.used ⟨24000000000⟩ (.seconds 10) = 1 := by
  intro cell after
  obtain ⟨-, hrecord⟩ := log_after_record (.seconds 10) behindTheClock
  obtain ⟨hnow, hlater⟩ := hrecord ⟨14000000000⟩ 4294967294
  obtain ⟨hall, hused⟩ := hnow (by decide)
  exact ⟨rfl, rfl, hall, hused, hlater ⟨16000000000⟩ (by decide),
    hlater ⟨24000000000⟩ (by decide)⟩

/-- In a window of no length a permit does not count at the instant at which it is recorded. -/
theorem no_window_counts_nothing :
    let cell := (run (WindowCell.step .zero) (.empty .sliding) []).1
    let after := cell.record ⟨0⟩ .zero 1
    after.kept = [⟨⟨0⟩, 1⟩] ∧ ¬ (∀ g ∈ after.kept, g.counts ⟨0⟩ .zero = true) ∧
      after.used ⟨0⟩ .zero ≠ Count.plus (cell.used ⟨0⟩ .zero) 1 := by
  exact ⟨rfl, by decide, by decide⟩

end WindowCell

end Admission
