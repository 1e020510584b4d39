import Admission.Proofs.Present

/-!
# When a sweep is not seen

A sweep drops the cells in which nothing counts.  Under the sliding policy such a cell holds
nothing but expired grants.  A fixed cell may hold more: a window that is still open and whose
permits were all given back says when the next grants expire, and a sweep forgets it.

* `settled_sweeps_unseen` — the sweeps of a run can be left out without changing the answer to any
  other event, provided each of them finds a settled limiter: every open window holds a permit.
* `settledSweeps_of_no_returns` — where nothing is given back, every sweep does.
* `used_after_unsettled_sweep`, `unsettled_sweep_seen` — otherwise a sweep is seen: a grant made
  after it counts beyond the end of the window that was forgotten.
-/

namespace Admission

variable {ω : Type}

/-! ## Runs without their sweeps -/

def Event.isSweep : Event ω → Bool
  | .call .sweep => true
  | _ => false

/-- The events of a run that are not sweeps. -/
def withoutSweeps (events : List (Instant × Event ω)) : List (Instant × Event ω) :=
  events.filter fun e => !e.2.isSweep

/-- The answers of a run to the events that are not sweeps. -/
def answersButSweeps (events : List (Instant × Event ω)) (answers : List Answer) : List Answer :=
  ((events.zip answers).filter fun x => !x.1.2.isSweep).map (·.2)

/-- Every sweep of a run finds a settled store. -/
def SettledSweeps (l : Limiter ω) : List (Instant × Event ω) → Prop
  | [] => True
  | e :: rest => (e.2.isSweep = true → l.store.Settled e.1) ∧ SettledSweeps (l.stepEvent e).1 rest

/-- Only the cells that a store holds are asked whether it is settled. -/
theorem Store.settled_iff {s : Store} {now : Instant} :
    s.Settled now ↔
      ∀ e ∈ s.cells.toList, ∀ g ∈ e.2.present now e.1.window, 0 < g.permits := by
  constructor
  · intro h e he g hg
    have hcell : s.cell e.1 = e.2 :=
      cell_of_some (Std.ExtTreeMap.mem_toList_iff_getElem?_eq_some.mp he)
    refine h e.1 g ?_
    rw [hcell]
    exact hg
  · intro h key g hg
    cases hcell : s.cells[key]? with
    | some c =>
      rw [cell_of_some hcell] at hg
      exact h (key, c) (Std.ExtTreeMap.mem_toList_iff_getElem?_eq_some.mpr hcell) g hg
    | none =>
      rw [cell_of_none hcell, WindowCell.present_empty] at hg
      exact absurd hg List.not_mem_nil

instance (s : Store) (now : Instant) : Decidable (s.Settled now) :=
  decidable_of_decidable_of_iff Store.settled_iff.symm

instance SettledSweeps.instDecidable :
    (l : Limiter ω) → (events : List (Instant × Event ω)) → Decidable (SettledSweeps l events)
  | _, [] => isTrue trivial
  | l, e :: rest =>
    have := SettledSweeps.instDecidable (l.stepEvent e).1 rest
    inferInstanceAs (Decidable (_ ∧ _))

/-- A limiter that sweeps settled stores answers as one that is alike and does not sweep. -/
theorem Limiter.Alike.run_withoutSweeps {last : Instant} {l m : Limiter ω}
    (h : Alike last l m) {events : List (Instant × Event ω)} (hclock : Chronological events)
    (hlast : ∀ e ∈ events, last ≤ e.1) (hsettled : SettledSweeps l events) :
    answersButSweeps events (run Limiter.stepEvent l events).2 =
      (run Limiter.stepEvent m (withoutSweeps events)).2 := by
  -- both limiters change on the way, and stay alike at every reading
  induction events generalizing last l m with
  | nil => rfl
  | cons e rest ih =>
    obtain ⟨he, hrest⟩ := List.pairwise_cons.mp hclock
    obtain ⟨hfirst, hsettled⟩ := hsettled
    have hle := hlast e List.mem_cons_self
    rw [run_cons]
    cases hsweep : e.2.isSweep with
    | true =>
      have hdrop : withoutSweeps (e :: rest) = withoutSweeps rest := by
        simp [withoutSweeps, hsweep]
      have hanswers : answersButSweeps (e :: rest)
          ((l.stepEvent e).2 :: (run Limiter.stepEvent (l.stepEvent e).1 rest).2) =
          answersButSweeps rest (run Limiter.stepEvent (l.stepEvent e).1 rest).2 := by
        simp [answersButSweeps, hsweep]
      have hswept : Alike e.1 (l.stepEvent e).1 m := by
        obtain ⟨now, event⟩ := e
        cases event with
        | publish rules => cases hsweep
        | call c =>
          cases c with
          | sweep => exact ⟨h.rules, (h.mono hle).store.sweep_left (hfirst rfl)⟩
          | request op n partly => cases hsweep
          | available op => cases hsweep
          | giveBack op n => cases hsweep
      rw [hdrop, hanswers, ih hswept hrest he hsettled]
    | false =>
      obtain ⟨hnext, hanswer⟩ := h.stepEvent e hle
      have hkeep : withoutSweeps (e :: rest) = e :: withoutSweeps rest := by
        simp [withoutSweeps, hsweep]
      have hanswers : answersButSweeps (e :: rest)
          ((l.stepEvent e).2 :: (run Limiter.stepEvent (l.stepEvent e).1 rest).2) =
          (l.stepEvent e).2 ::
            answersButSweeps rest (run Limiter.stepEvent (l.stepEvent e).1 rest).2 := by
        simp [answersButSweeps, hsweep]
      rw [hkeep, hanswers, run_cons, hanswer, ih hnext hrest he hsettled]

/-! ## Windows that a sweep forgets -/

namespace Store

variable {s : Store} {now : Instant} {key : CellKey}

/-- A sweep forgets an open window that holds no permits.  A grant of the time between would have
expired with that window; after the sweep it still counts when the window is over. -/
theorem used_after_unsettled_sweep (hs : s.Wf) {w : Grant} (hcell : s.cell key = .fixed (some w))
    (hempty : w.permits = 0) {t : Instant} (hopen : live t key.window w.stamp = true)
    (hlater : w.stamp < t) (p : Count) :
    ((s.cell key).record t key.window p).used (w.stamp.plus key.window) key.window = 0 ∧
      (((s.sweep now).cell key).record t key.window p).used (w.stamp.plus key.window)
        key.window = p := by
  have hdrained : (s.cell key).isDrained now key.window = true := by
    refine decide_eq_true ?_
    rw [hcell, WindowCell.used, hempty, ite_self]
  have hpolicy : s.policy = .fixed := by
    rw [← (hs key).policy_eq, hcell]
    rfl
  have hw : 0 < key.window.nanos := (live_iff.mp hopen).2
  have hcontinued : w.counts t key.window = true := hopen
  have hover : Grant.counts (w.stamp.plus key.window) key.window
      ⟨w.stamp, Count.plus w.permits p⟩ = false := by
    rw [Bool.eq_false_iff, Ne, Grant.counts_eq_live, live_iff]
    simp only [Instant.plus]
    omega
  have hcounts : Grant.counts (w.stamp.plus key.window) key.window ⟨t, p⟩ = true := by
    rw [Grant.counts_eq_live, live_iff]
    rw [Instant.lt_iff_nanos] at hlater
    simp only [Instant.plus]
    omega
  constructor
  · rw [hcell, WindowCell.record, if_pos hcontinued, WindowCell.used, hover]
    rfl
  · rw [cell_sweep, if_pos hdrained, hpolicy]
    show (if Grant.counts (w.stamp.plus key.window) key.window ⟨t, p⟩ then p else 0) = p
    rw [hcounts, if_pos rfl]

/-- Every cell holds no empty grant, counted or not. -/
def Positive (s : Store) : Prop := ∀ key, ∀ g ∈ (s.cell key).kept, 0 < g.permits

theorem Positive.settled (h : s.Positive) (now : Instant) : s.Settled now :=
  fun key g hg => h key g (List.mem_filter.mp hg).1

theorem positive_empty (policy : WindowPolicy) : (empty policy).Positive := by
  intro key g hg
  rw [cell_empty, WindowCell.kept_empty] at hg
  exact absurd hg List.not_mem_nil

theorem Positive.acquire (h : s.Positive) (rules : List (Rule ω)) (op : ω) (n : Count)
    (partly : Bool) (now : Instant) : (s.acquire rules op n partly now).1.Positive := by
  intro key
  rw [cell_acquire]
  split
  · next hgranted => exact WindowCell.positive_record hgranted.2 (h key)
  · exact h key

theorem Positive.sweep (h : s.Positive) (now : Instant) : (s.sweep now).Positive := by
  intro key
  rw [cell_sweep]
  split
  · intro g hg
    rw [WindowCell.kept_empty] at hg
    exact absurd hg List.not_mem_nil
  · exact h key

end Store

/-- An event that gives nothing back leaves no grant empty. -/
theorem Limiter.positive_stepEvent {l : Limiter ω} (h : l.store.Positive) {e : Instant × Event ω}
    (hreturn : ∀ op n, e.2 ≠ .call (.giveBack op n)) : (l.stepEvent e).1.store.Positive := by
  obtain ⟨now, event⟩ := e
  cases event with
  | publish rules => exact h.sweep now
  | call c =>
    cases c with
    | request op n partly => exact h.acquire l.rules op n partly now
    | available op => exact h
    | giveBack op n => exact absurd rfl (hreturn op n)
    | sweep => exact h.sweep now

/-- Where nothing is given back no grant becomes empty, and every sweep finds a settled store. -/
theorem SettledSweeps.of_positive {l : Limiter ω} (h : l.store.Positive)
    {events : List (Instant × Event ω)}
    (hreturns : ∀ e ∈ events, ∀ op n, e.2 ≠ .call (.giveBack op n)) :
    SettledSweeps l events := by
  induction events generalizing l with
  | nil => trivial
  | cons e rest ih =>
    obtain ⟨hfirst, hrest⟩ := List.forall_mem_cons.mp hreturns
    exact ⟨fun _ => h.settled e.1, ih (Limiter.positive_stepEvent h hfirst) hrest⟩

/-- Over a run in which nothing is given back, every sweep finds a settled store. -/
theorem settledSweeps_of_no_returns (rules : List (Rule ω)) (policy : WindowPolicy)
    {events : List (Instant × Event ω)}
    (hreturns : ∀ e ∈ events, ∀ op n, e.2 ≠ .call (.giveBack op n)) :
    SettledSweeps (.new rules policy) events :=
  .of_positive (Store.positive_empty policy) hreturns

/-- **Settled sweeps are not seen.** Over every run with a clock that never goes back, a limiter
whose sweeps all find a settled store gives the same answers to all other events as a limiter that
is never swept by a call. -/
theorem settled_sweeps_unseen (rules : List (Rule ω)) (policy : WindowPolicy)
    {events : List (Instant × Event ω)} (hclock : Chronological events)
    (hsettled : SettledSweeps (.new rules policy) events) :
    answersButSweeps events (run Limiter.stepEvent (.new rules policy) events).2 =
      (run Limiter.stepEvent (.new rules policy) (withoutSweeps events)).2 := by
  -- the relation starts at the first reading, whatever it is
  cases events with
  | nil => rfl
  | cons e rest =>
    obtain ⟨hrest, _⟩ := List.pairwise_cons.mp hclock
    have hself : Limiter.Alike e.1 (Limiter.new rules policy) (.new rules policy) :=
      ⟨rfl, .refl (Store.wf_empty policy) e.1⟩
    exact hself.run_withoutSweeps hclock
      (List.forall_mem_cons.mpr ⟨Int.le_refl _, hrest⟩) hsettled

/-- Permits come back while a window is open, and it is swept then and once it is over. -/
def partlyReturned : List (Instant × Event Unit) :=
  [(⟨0⟩, .call (.request () 3 false)), (⟨100000000⟩, .call (.giveBack () 2)),
    (⟨200000000⟩, .call .sweep), (⟨300000000⟩, .call (.request () 1 false)),
    (⟨1000000000⟩, .call .sweep), (⟨1000000000⟩, .call (.available ()))]

/-- One permit that stays out holds the window open. -/
theorem settled_sweeps_unseen_partlyReturned :
    Chronological partlyReturned ∧ SettledSweeps (.new threeASecond .fixed) partlyReturned ∧
      (run Limiter.stepEvent (.new threeASecond .fixed) (withoutSweeps partlyReturned)).2 =
        [.permits ⟨3, 3, 3, none⟩, .done, .permits ⟨1, 2, 1, none⟩, .room 3] := by
  have hclock : Chronological partlyReturned := by
    unfold Chronological
    decide
  have hsettled : SettledSweeps (.new threeASecond .fixed) partlyReturned := by decide +kernel
  refine ⟨hclock, hsettled, ?_⟩
  rw [← settled_sweeps_unseen threeASecond .fixed hclock hsettled]
  decide +kernel

/-- All permits come back, the open window is swept, and the permits are taken again. -/
def allReturned : List (Instant × Event Unit) :=
  [(⟨0⟩, .call (.request () 3 false)), (⟨0⟩, .call (.giveBack () 3)),
    (⟨200000000⟩, .call .sweep), (⟨500000000⟩, .call (.request () 3 false)),
    (⟨1000000000⟩, .call (.available ()))]

/-- A sweep of an empty window that is open is seen: three permits are missing one second after
the window began, and without the sweep they are there again. -/
theorem unsettled_sweep_seen :
    Chronological allReturned ∧
      answersButSweeps allReturned
        (run Limiter.stepEvent (.new threeASecond .fixed) allReturned).2 =
        [.permits ⟨3, 3, 3, none⟩, .done, .permits ⟨3, 3, 3, none⟩, .room 0] ∧
      (run Limiter.stepEvent (.new threeASecond .fixed) (withoutSweeps allReturned)).2 =
        [.permits ⟨3, 3, 3, none⟩, .done, .permits ⟨3, 3, 3, none⟩, .room 3] := by
  have hclock : Chronological allReturned := by
    unfold Chronological
    decide
  exact ⟨hclock, by decide +kernel, by decide +kernel⟩

end Admission
