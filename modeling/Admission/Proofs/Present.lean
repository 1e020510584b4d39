import Admission.Proofs.Run
import Admission.Proofs.Store

/-!
# What counts now decides what comes

The part of a cell that counts at a reading is its *present*: the counted grants of a log, or a
fixed window that is still open.  Nothing else of a cell is ever seen again while the clock does
not go back, so two limiters that differ only in what has expired answer alike from then on.

* **One cell** — `used_eq_total_present`, `record_congr` and `present_giveBack_congr`: what a cell
  counts, and what a record or a return makes of it, is a function of its present.
* **Two limiters** — `Limiter.Alike` relates limiters with equal presents; every event keeps them
  alike and is answered alike (`Limiter.Alike.stepEvent`), and so is every run
  (`Limiter.Alike.run_answers`).
* **Settled stores** — where no open window is empty (`Store.Settled`), a sweep at one of the two
  limiters is not seen either (`Store.Alike.sweep_left`).  A log is always settled; a fixed window
  is not, once all of its permits have come back.
-/

namespace Admission

namespace Grant

variable {now : Instant} {window : Span}

/-- In an ordered log the grants that no longer count come before all that do. -/
theorem Ordered.dropWhile_eq_filter {log : List Grant} (h : Ordered log) :
    (log.dropWhile fun g => !g.counts now window) = log.filter (counts now window) := by
  induction log with
  | nil => rfl
  | cons g rest ih =>
    obtain ⟨hg, hrest⟩ := List.pairwise_cons.mp h
    rw [List.dropWhile_cons, List.filter_cons]
    by_cases hlive : g.counts now window = true
    · have hall : rest.filter (counts now window) = rest := by
        rw [List.filter_eq_self]
        intro x hx
        exact live_of_le (Int.le_of_lt (hg x hx)) hlive
      simp [hlive, hall]
    · simp [hlive, ih hrest]

/-- Taking back stops at the first grant that does not count, so it never reaches a tail of such
grants. -/
theorem takeBack_append_of_dead {old : List Grant}
    (hold : ∀ g ∈ old, g.counts now window = false) (n : Count) (recent : List Grant) :
    takeBack now window n (recent ++ old) = takeBack now window n recent ++ old := by
  induction recent generalizing n with
  | nil =>
    cases old with
    | nil => rfl
    | cons g rest =>
      have hg := hold g List.mem_cons_self
      show takeBack now window n (g :: rest) = g :: rest
      rw [takeBack, if_pos (Or.inr (by simp [hg]))]
  | cons g rest ih =>
    rw [List.cons_append, takeBack, takeBack]
    split
    · rfl
    · dsimp only
      rw [ih, List.cons_append]

end Grant

namespace WindowCell

variable {now : Instant} {window : Span}

/-- What a cell keeps that counts at `now`.  An open fixed window is part of it also when none of
its permits is left. -/
def present (now : Instant) (window : Span) (cell : WindowCell) : List Grant :=
  cell.kept.filter (Grant.counts now window)

@[simp] theorem present_empty (policy : WindowPolicy) :
    (empty policy).present now window = [] := by
  rw [present, kept_empty, List.filter_nil]

/-- At a later reading less is present. -/
theorem present_of_reading_le {a b : Instant} (h : a ≤ b) (window : Span) (cell : WindowCell) :
    cell.present b window = (cell.present a window).filter (Grant.counts b window) := by
  unfold present
  rw [List.filter_filter]
  refine List.filter_congr fun g _ => ?_
  cases hb : g.counts b window with
  | false => rfl
  | true =>
    have ha : g.counts a window = true := live_of_reading_le h hb
    rw [ha]
    rfl

theorem counts_of_mem_present {cell : WindowCell} {g : Grant}
    (h : g ∈ cell.present now window) : g.counts now window = true :=
  (List.mem_filter.mp h).2

theorem used_eq_total_present (now : Instant) (window : Span) (cell : WindowCell) :
    cell.used now window = Grant.total (cell.present now window) := by
  cases cell with
  | sliding log => rfl
  | fixed w =>
    cases w with
    | none => rfl
    | some g =>
      have hone : Grant.total [g] = g.permits := by
        rw [← UInt32.toNat_inj, Grant.toNat_total]
        have := Count.toNat_le_most g.permits
        simp only [Grant.tally_cons, Grant.tally_nil, if_true]
        omega
      by_cases hg : g.counts now window = true
      · simp [used, present, kept, hg, hone]
      · simp [used, present, kept, hg, Grant.total]

/-! ## The present decides -/

/-- A fixed cell that is recorded in goes on with its open window, or starts a new one. -/
theorem record_fixed (w : Option Grant) (p : Count) :
    (fixed w).record now window p =
      match (fixed w).present now window with
      | [] => fixed (some ⟨now, p⟩)
      | g :: _ => fixed (some ⟨g.stamp, Count.plus g.permits p⟩) := by
  cases w with
  | none => rfl
  | some g =>
    by_cases hg : g.counts now window = true
    · simp [record, present, kept, hg]
    · simp [record, present, kept, hg]

/-- After a record a fixed cell keeps the new permits alone, or those of its open window as well. -/
theorem mem_kept_record_fixed {w : Option Grant} {p : Count} {g : Grant}
    (hg : g ∈ ((fixed w).record now window p).kept) :
    g = ⟨now, p⟩ ∨ ∃ first ∈ (fixed w).present now window,
      g = ⟨first.stamp, Count.plus first.permits p⟩ := by
  rw [record_fixed] at hg
  split at hg
  · exact .inl (List.mem_singleton.mp hg)
  · next first _ hpresent =>
    refine .inr ⟨first, ?_, List.mem_singleton.mp hg⟩
    rw [hpresent]
    exact List.mem_cons_self

/-- A record forgets all that does not count. -/
theorem record_congr {a b : WindowCell} (hpolicy : a.policy = b.policy)
    (ha : Grant.Ordered a.kept) (hb : Grant.Ordered b.kept)
    (h : a.present now window = b.present now window) (p : Count) :
    a.record now window p = b.record now window p := by
  cases a with
  | sliding log =>
    cases b with
    | fixed w => exact absurd hpolicy (by simp [policy])
    | sliding log' =>
      replace ha : Grant.Ordered log := ha
      replace hb : Grant.Ordered log' := hb
      have hlogs : log.filter (Grant.counts now window) =
        log'.filter (Grant.counts now window) := h
      show sliding (Grant.insert now p (log.dropWhile _)) =
        sliding (Grant.insert now p (log'.dropWhile _))
      rw [ha.dropWhile_eq_filter, hb.dropWhile_eq_filter, hlogs]
  | fixed w =>
    cases b with
    | sliding log' => exact absurd hpolicy (by simp [policy])
    | fixed w' => rw [record_fixed, record_fixed, h]

/-- A record that is not empty keeps empty grants out. -/
theorem positive_record {cell : WindowCell} {p : Count} (hp : 0 < p)
    (h : ∀ g ∈ cell.kept, 0 < g.permits) :
    ∀ g ∈ (cell.record now window p).kept, 0 < g.permits := by
  cases cell with
  | sliding log =>
    exact Grant.positive_insert hp fun g hg => h g ((List.dropWhile_sublist _).subset hg)
  | fixed w =>
    intro g hg
    rcases mem_kept_record_fixed hg with rfl | ⟨first, _, rfl⟩
    · exact hp
    · exact Count.plus_pos.mpr (.inr hp)

theorem present_giveBack_fixed (w : Option Grant) (n : Count) :
    ((fixed w).giveBack now window n).present now window =
      ((fixed w).present now window).map fun g => ⟨g.stamp, Count.minus g.permits n⟩ := by
  cases w with
  | none => rfl
  | some g =>
    unfold giveBack
    by_cases hg : g.counts now window = true
    · have hsame : Grant.counts now window ⟨g.stamp, Count.minus g.permits n⟩ = true := hg
      simp [present, kept, hg, hsame]
    · simp [present, kept, hg]

/-- What a return leaves of a log is what it leaves of the part that counts. -/
theorem present_giveBack_sliding {log : List Grant} (h : Grant.Ordered log) (n : Count) :
    ((sliding log).giveBack now window n).present now window =
      (((Grant.takeBack now window n (log.filter (Grant.counts now window)).reverse).reverse.filter
        (0 < ·.permits)).filter (Grant.counts now window)) := by
  have hdead : ∀ g ∈ log.takeWhile fun g => !g.counts now window,
      g.counts now window = false := by
    intro g hg
    have hg := List.all_eq_true.mp List.all_takeWhile g hg
    rwa [Bool.not_eq_true'] at hg
  have hsplit : log.reverse = (log.filter (Grant.counts now window)).reverse ++
      (log.takeWhile fun g => !g.counts now window).reverse := by
    rw [← List.reverse_append, ← h.dropWhile_eq_filter, List.takeWhile_append_dropWhile]
  show (((Grant.takeBack now window n log.reverse).reverse.filter _).filter _) = _
  rw [hsplit, Grant.takeBack_append_of_dead fun g hg => hdead g (List.mem_reverse.mp hg),
    List.reverse_append, List.reverse_reverse, List.filter_append, List.filter_append]
  -- the old part of the log is not touched, and none of it counts
  have hnone : (((log.takeWhile fun g => !g.counts now window).filter
      (0 < ·.permits)).filter (Grant.counts now window)) = [] := by
    rw [List.filter_eq_nil_iff]
    intro g hg
    rw [hdead g (List.mem_filter.mp hg).1]
    exact Bool.false_ne_true
  rw [hnone, List.nil_append]

theorem present_giveBack_congr {a b : WindowCell} (hpolicy : a.policy = b.policy)
    (ha : Grant.Ordered a.kept) (hb : Grant.Ordered b.kept)
    (h : a.present now window = b.present now window) (n : Count) :
    (a.giveBack now window n).present now window =
      (b.giveBack now window n).present now window := by
  cases a with
  | sliding log =>
    cases b with
    | fixed w => exact absurd hpolicy (by simp [policy])
    | sliding log' =>
      replace ha : Grant.Ordered log := ha
      replace hb : Grant.Ordered log' := hb
      have hlogs : log.filter (Grant.counts now window) =
        log'.filter (Grant.counts now window) := h
      rw [present_giveBack_sliding ha, present_giveBack_sliding hb, hlogs]
  | fixed w =>
    cases b with
    | sliding log' => exact absurd hpolicy (by simp [policy])
    | fixed w' => rw [present_giveBack_fixed, present_giveBack_fixed, h]

/-- A cell that counts nothing has nothing present but empty windows. -/
theorem present_of_isDrained {cell : WindowCell} (hdrained : cell.isDrained now window = true)
    (hsettled : ∀ g ∈ cell.present now window, 0 < g.permits) :
    cell.present now window = [] := by
  have hused : cell.used now window = 0 := of_decide_eq_true hdrained
  rw [used_eq_total_present, ← UInt32.toNat_inj, Grant.toNat_total, UInt32.toNat_zero] at hused
  rw [List.eq_nil_iff_forall_not_mem]
  intro g hg
  have hpos : Grant.tally (fun _ => false) (cell.present now window) <
      Grant.tally (fun _ => true) (cell.present now window) :=
    Grant.tally_lt (by simp) hg rfl rfl (hsettled g hg)
  omega

end WindowCell

/-! ## Stores that are alike -/

namespace Store

variable {ω : Type} {s t : Store} {last now : Instant}

/-- Two stores of one policy in which the same is present under every key. -/
structure Alike (now : Instant) (s t : Store) : Prop where
  policy : s.policy = t.policy
  left : s.Wf
  right : t.Wf
  present : ∀ key : CellKey,
    (s.cell key).present now key.window = (t.cell key).present now key.window

/-- No window that is still open is empty. -/
def Settled (s : Store) (now : Instant) : Prop :=
  ∀ key : CellKey, ∀ g ∈ (s.cell key).present now key.window, 0 < g.permits

/-- A log holds no empty grant. -/
theorem Wf.settled (h : s.Wf) (hpolicy : s.policy = .sliding) (now : Instant) :
    s.Settled now := by
  intro key g hg
  exact (h key).positive hpolicy g (List.mem_filter.mp hg).1

namespace Alike

theorem refl (h : s.Wf) (now : Instant) : Alike now s s where
  policy := rfl
  left := h
  right := h
  present := fun _ => rfl

theorem mono (h : Alike last s t) (hle : last ≤ now) : Alike now s t where
  policy := h.policy
  left := h.left
  right := h.right
  present := by
    intro key
    rw [WindowCell.present_of_reading_le hle, WindowCell.present_of_reading_le hle, h.present]

theorem cell_policy_eq (h : Alike now s t) (key : CellKey) :
    (s.cell key).policy = (t.cell key).policy := by
  rw [(h.left key).policy_eq, (h.right key).policy_eq, h.policy]

theorem used_eq (h : Alike now s t) (key : CellKey) : s.used now key = t.used now key := by
  rw [Store.used_eq, Store.used_eq, WindowCell.used_eq_total_present,
    WindowCell.used_eq_total_present, h.present]

theorem left_eq (h : Alike now s t) (c : Check) : s.left now c = t.left now c := by
  unfold Store.left
  rw [h.used_eq]

theorem available_eq (h : Alike now s t) (rules : List (Rule ω)) (op : ω) :
    s.available rules op now = t.available rules op now :=
  available_congr fun c _ => h.left_eq c

theorem acquire (h : Alike now s t) (rules : List (Rule ω)) (op : ω) (n : Count)
    (partly : Bool) :
    Alike now (s.acquire rules op n partly now).1 (t.acquire rules op n partly now).1 ∧
      (s.acquire rules op n partly now).2 = (t.acquire rules op n partly now).2 := by
  refine ⟨⟨?_, h.left.acquire rules op n partly now, h.right.acquire rules op n partly now,
    fun key => ?_⟩, ?_⟩
  · rw [policy_acquire, policy_acquire, h.policy]
  · rw [cell_acquire, cell_acquire, granted_congr fun c _ => h.left_eq c]
    split
    · rw [WindowCell.record_congr (h.cell_policy_eq key) (h.left key).ordered
        (h.right key).ordered (h.present key)]
    · exact h.present key
  · exact answer_congr (fun c _ => h.left_eq c) n partly

theorem giveBack (h : Alike now s t) (rules : List (Rule ω)) (op : ω) (n : Count) :
    Alike now (s.giveBack rules op n now) (t.giveBack rules op n now) where
  policy := by rw [policy_giveBack, policy_giveBack, h.policy]
  left := h.left.giveBack rules op n now
  right := h.right.giveBack rules op n now
  present := by
    intro key
    rw [cell_giveBack, cell_giveBack]
    split
    · exact WindowCell.present_giveBack_congr (h.cell_policy_eq key) (h.left key).ordered
        (h.right key).ordered (h.present key) n
    · exact h.present key

/-- A sweep of both stores drops the same cells. -/
theorem sweep (h : Alike now s t) : Alike now (s.sweep now) (t.sweep now) where
  policy := h.policy
  left := h.left.sweep now
  right := h.right.sweep now
  present := by
    intro key
    have hdrained : (s.cell key).isDrained now key.window =
        (t.cell key).isDrained now key.window := by
      unfold WindowCell.isDrained
      rw [← Store.used_eq, ← Store.used_eq, h.used_eq]
    rw [cell_sweep, cell_sweep, hdrained]
    split
    · rw [WindowCell.present_empty, WindowCell.present_empty]
    · exact h.present key

/-- A sweep of one store is not seen if that store is settled. -/
theorem sweep_left (h : Alike now s t) (hsettled : s.Settled now) :
    Alike now (s.sweep now) t where
  policy := h.policy
  left := h.left.sweep now
  right := h.right
  present := by
    intro key
    rw [cell_sweep, ← h.present]
    split
    · next hdrained =>
      rw [WindowCell.present_empty, WindowCell.present_of_isDrained hdrained (hsettled key)]
    · rfl

end Alike

end Store

/-! ## Limiters that are alike -/

variable {ω : Type}

/-- Two limiters on the same rules whose stores are alike. -/
structure Limiter.Alike (now : Instant) (l m : Limiter ω) : Prop where
  rules : l.rules = m.rules
  store : l.store.Alike now m.store

namespace Limiter.Alike

variable {l m : Limiter ω} {last now : Instant}

theorem mono (h : Alike last l m) (hle : last ≤ now) : Alike now l m :=
  ⟨h.rules, h.store.mono hle⟩

/-- One event keeps limiters alike, and both answer it alike. -/
theorem stepEvent (h : Alike last l m) (e : Instant × Event ω) (hle : last ≤ e.1) :
    Alike e.1 (l.stepEvent e).1 (m.stepEvent e).1 ∧ (l.stepEvent e).2 = (m.stepEvent e).2 := by
  obtain ⟨now, event⟩ := e
  replace h := h.mono hle
  obtain ⟨rules, s⟩ := l
  obtain ⟨rules', t⟩ := m
  obtain ⟨rfl, hstore⟩ := h
  cases event with
  | publish rules => exact ⟨⟨rfl, hstore.sweep⟩, rfl⟩
  | call c =>
    cases c with
    | request op n partly =>
      obtain ⟨hafter, hanswer⟩ := hstore.acquire rules op n partly
      exact ⟨⟨rfl, hafter⟩, congrArg Answer.permits hanswer⟩
    | available op =>
      exact ⟨⟨rfl, hstore⟩, congrArg Answer.room (hstore.available_eq rules op)⟩
    | giveBack op n => exact ⟨⟨rfl, hstore.giveBack rules op n⟩, rfl⟩
    | sweep => exact ⟨⟨rfl, hstore.sweep⟩, rfl⟩

/-- Limiters that are alike answer every run alike while the clock does not go back. -/
theorem run_answers (h : Alike last l m) {events : List (Instant × Event ω)}
    (hclock : Chronological events) (hlast : ∀ e ∈ events, last ≤ e.1) :
    (run Limiter.stepEvent l events).2 = (run Limiter.stepEvent m events).2 :=
  run_answers_eq (fun _ _ _ e h hle => h.stepEvent e hle) h hclock hlast

end Limiter.Alike

end Admission
