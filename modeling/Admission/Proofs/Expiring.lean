import Admission.Proofs.CellRun
import Admission.Proofs.Sweeping
import Admission.Proofs.Viewing

/-!
# When a cell resets

A cell tells for how long the oldest of its counted grants goes on to count.  Until then nothing
changes, and then that grant is gone and no other.  Both are read off from what is present in the
cell (`WindowCell.present`): a log is in order of stamps, so what is older than the oldest counted
grant has expired for good, and what is newer outlives it.  Grants of the future, which a clock that
went back leaves in a log, are no exception.

* `WindowCell.present_until_expiry`, `WindowCell.present_at_expiry` — what is present until the
  oldest grant expires and what is present then, in a log or in a fixed window.
* `WindowCell.reset_is_next_drop` — a log has something to wait for exactly if it counts
  anything, and it counts the same until then and fewer permits at that instant.
* `Limiter.fixed_reset_iff` — a fixed cell has something to wait for exactly if it counts anything
  or its window is still open though all permits came back; it counts the same until then and
  nothing at that instant.
* `Limiter.returned_window_resets` — a cell that counts nothing and has something to wait for.
-/

namespace Admission

/-- What counts at the instant at which a grant expires is stamped after it. -/
theorem live_plus_iff {window : Span} (hw : 0 < window.nanos) {stamp t : Instant} :
    live (stamp.plus window) window t = true ↔ stamp < t := by
  rw [live_iff, Instant.lt_iff_nanos]
  simp only [Instant.plus]
  omega

namespace WindowCell

variable {policy : WindowPolicy} {window : Span} {cell : WindowCell} {now t : Instant}
variable {g : Grant} {rest : List Grant} {d : Span}

/-! ## The oldest grant -/

/-- The oldest counted grant is the first that is present. -/
theorem oldest?_eq (now : Instant) (window : Span) (cell : WindowCell) :
    cell.oldest? now window = (cell.present now window).head?.map (·.stamp) := by
  rcases cell with log | (_ | g)
  · rw [present, kept, List.head?_filter]
    rfl
  · rfl
  · by_cases hg : g.counts now window = true
    · simp [oldest?, present, kept, hg]
    · simp [oldest?, present, kept, hg]

theorem nextExpiry?_eq_none_iff :
    cell.nextExpiry? now window = none ↔ cell.present now window = [] := by
  unfold nextExpiry?
  rw [oldest?_eq, Option.map_eq_none_iff, Option.map_eq_none_iff, List.head?_eq_none_iff]

/-- A counted grant expires one window after its stamp, also one of the future. -/
theorem plus_remaining {stamp : Instant} (h : live now window stamp = true) :
    now.plus (remaining stamp now window) = stamp.plus window := by
  rw [live_iff] at h
  rw [Instant.eq_iff_nanos]
  simp only [Instant.plus, remaining, Span.plus, Span.minus, elapsed]
  omega

theorem live_of_present (h : cell.present now window = g :: rest) :
    live now window g.stamp = true := by
  have hmem : g ∈ cell.present now window := by
    rw [h]
    exact List.mem_cons_self
  exact counts_of_mem_present hmem

theorem exists_oldest_of_nextExpiry? (h : cell.nextExpiry? now window = some d) :
    ∃ g rest, cell.present now window = g :: rest ∧ now.plus d = g.stamp.plus window := by
  unfold nextExpiry? at h
  rw [oldest?_eq, Option.map_map, Option.map_eq_some_iff] at h
  obtain ⟨g, hg, rfl⟩ := h
  obtain ⟨rest, hrest⟩ := List.head?_eq_some_iff.mp hg
  exact ⟨g, rest, hrest, plus_remaining (live_of_present hrest)⟩

/-- The oldest grant that is present counts, and all others are newer. -/
theorem newer_of_present (hcell : Grant.Ordered cell.kept)
    (h : cell.present now window = g :: rest) :
    live now window g.stamp = true ∧ ∀ x ∈ rest, g.stamp < x.stamp := by
  have hordered : Grant.Ordered (g :: rest) := by
    rw [← h]
    exact List.Pairwise.sublist List.filter_sublist hcell
  exact ⟨live_of_present h, (List.pairwise_cons.mp hordered).1⟩

/-! ## Until and at its expiry -/

/-- Until the oldest counted grant expires the same is present. -/
theorem present_until_expiry (hcell : Grant.Ordered cell.kept)
    (h : cell.present now window = g :: rest) (hle : now ≤ t) (ht : t < g.stamp.plus window) :
    cell.present t window = cell.present now window := by
  obtain ⟨hlive, hnewer⟩ := newer_of_present hcell h
  have holdest : live t window g.stamp = true := by
    rw [live_iff] at hlive ⊢
    simp only [Instant.lt_iff_nanos, Instant.plus] at ht
    omega
  rw [present_of_reading_le hle, List.filter_eq_self, h, List.forall_mem_cons]
  refine ⟨holdest, fun x hx => ?_⟩
  exact live_of_le (Int.le_of_lt (hnewer x hx)) holdest

/-- When it expires it is gone, and nothing else is. -/
theorem present_at_expiry (hcell : Grant.Ordered cell.kept)
    (h : cell.present now window = g :: rest) :
    cell.present (g.stamp.plus window) window = rest := by
  obtain ⟨hlive, hnewer⟩ := newer_of_present hcell h
  have hw : 0 < window.nanos := (live_iff.mp hlive).2
  have hle : now ≤ g.stamp.plus window := by
    rw [live_iff] at hlive
    simp only [Instant.le_iff_nanos, Instant.plus]
    omega
  have hgone : Grant.counts (g.stamp.plus window) window g = false := by
    rw [Bool.eq_false_iff, Ne, Grant.counts_eq_live, live_plus_iff hw]
    exact Int.lt_irrefl _
  have hstay : rest.filter (Grant.counts (g.stamp.plus window) window) = rest := by
    rw [List.filter_eq_self]
    intro x hx
    exact (live_plus_iff hw).mpr (hnewer x hx)
  rw [present_of_reading_le hle, h, List.filter_cons, hgone, hstay]
  rfl

/-- Until its reset time a cell counts the same. -/
theorem used_until_expiry (hcell : Grant.Ordered cell.kept)
    (h : cell.nextExpiry? now window = some d) (hle : now ≤ t) (ht : t < now.plus d) :
    cell.used t window = cell.used now window := by
  obtain ⟨g, rest, hpresent, hend⟩ := exists_oldest_of_nextExpiry? h
  rw [hend] at ht
  rw [used_eq_total_present, used_eq_total_present, present_until_expiry hcell hpresent hle ht]

/-! ## Logs -/

/-- A cell without empty grants has something to wait for exactly if it counts anything. -/
theorem nextExpiry?_eq_none_iff_used (hpositive : ∀ g ∈ cell.present now window, 0 < g.permits) :
    cell.nextExpiry? now window = none ↔ cell.used now window = 0 := by
  rw [nextExpiry?_eq_none_iff]
  constructor
  · intro hnone
    rw [used_eq_total_present, hnone]
    rfl
  · intro hused
    exact present_of_isDrained (decide_eq_true hused) hpositive

/-- At its reset time a log counts fewer permits than before, if its permits add up to a count. -/
theorem used_at_expiry_lt (hcell : cell.Wf .sliding)
    (hsum : Grant.tally (fun _ => true) cell.kept ≤ 4294967295)
    (h : cell.nextExpiry? now window = some d) :
    cell.used (now.plus d) window < cell.used now window := by
  obtain ⟨g, rest, hpresent, hend⟩ := exists_oldest_of_nextExpiry? h
  have hkept : g ∈ cell.kept := by
    apply (List.filter_sublist (p := Grant.counts now window)).subset
    show g ∈ cell.present now window
    rw [hpresent]
    exact List.mem_cons_self
  have hpos := Count.pos_iff.mp (hcell.positive rfl g hkept)
  have hbound : Grant.tally (fun _ => true) (g :: rest) ≤ 4294967295 := by
    rw [← hpresent, present, Grant.tally_filter_counts]
    exact Nat.le_trans (Grant.tally_mono (fun _ _ => rfl) _) hsum
  rw [used_eq_total_present, used_eq_total_present, hend,
    present_at_expiry hcell.ordered hpresent, hpresent, UInt32.lt_iff_toNat_lt, Grant.toNat_total,
    Grant.toNat_total]
  rw [Grant.tally_cons, if_pos rfl] at hbound ⊢
  omega

/-- A reset time between two readings of the calendar can be written down. -/
theorem fits_of_inCalendar (hnow : now.inCalendar = true) (hend : (now.plus d).inCalendar = true) :
    d.fits = true := by
  obtain ⟨hlow, -⟩ := (Bool.and_eq_true _ _).mp hnow
  obtain ⟨-, hhigh⟩ := (Bool.and_eq_true _ _).mp hend
  replace hlow : Instant.earliest.nanos ≤ now.nanos := of_decide_eq_true hlow
  replace hhigh : now.nanos + d.nanos ≤ Instant.latest.nanos := of_decide_eq_true hhigh
  apply decide_eq_true
  show d.nanos / Span.perSecond < Span.secondsBound
  simp only [Instant.earliest, Instant.latest, Instant.ofParts, Span.perSecond,
    Span.secondsBound] at hlow hhigh ⊢
  omega

theorem resetTime_eq_ok_iff {reset : Option Span} :
    cell.resetTime now window = .ok reset ↔
      cell.nextExpiry? now window = reset ∧ ∀ d, reset = some d → d.fits = true := by
  unfold resetTime
  cases cell.nextExpiry? now window with
  | none =>
    constructor
    · intro h
      obtain rfl := Except.ok.inj h
      exact ⟨rfl, fun _ h => nomatch h⟩
    · rintro ⟨rfl, -⟩
      rfl
  | some d =>
    dsimp only
    split
    · next hfits =>
      constructor
      · intro h
        obtain rfl := Except.ok.inj h
        refine ⟨rfl, fun e he => ?_⟩
        rw [← Option.some.inj he]
        exact hfits
      · rintro ⟨rfl, -⟩
        rfl
    · next hlong =>
      constructor
      · intro h
        cases h
      · rintro ⟨rfl, hfits⟩
        exact absurd (hfits d rfl) hlong

theorem nextExpiry?_of_resetTime {reset : Option Span}
    (h : cell.resetTime now window = .ok reset) : cell.nextExpiry? now window = reset :=
  (resetTime_eq_ok_iff.mp h).1

/-- **A log resets when it next counts fewer.** Whatever was recorded in a log and given back to it,
at whatever readings, as long as its permits add up to a count: it answers that there is nothing to
wait for exactly if it counts nothing.  Otherwise it counts the same at every reading until its reset
time, and fewer permits at that instant, and within the calendar the reset time is what it
answers. -/
theorem reset_is_next_drop {window : Span} {calls : List (Instant × CellCall)}
    (hsum : Grant.tally (fun _ => true)
      (run (WindowCell.step window) (.empty .sliding) calls).1.kept ≤ 4294967295)
    (now : Instant) :
    let cell := (run (WindowCell.step window) (.empty .sliding) calls).1
    (cell.resetTime now window = .ok none ↔ cell.used now window = 0) ∧
    ∀ d, cell.nextExpiry? now window = some d →
      (∀ t, now ≤ t → t < now.plus d → cell.used t window = cell.used now window) ∧
      cell.used (now.plus d) window < cell.used now window ∧
      (now.inCalendar = true → (now.plus d).inCalendar = true →
        cell.resetTime now window = .ok (some d)) := by
  intro cell
  have hwf : cell.Wf .sliding := wf_run .sliding window calls
  have hpositive : ∀ g ∈ cell.present now window, 0 < g.permits := by
    intro g hg
    exact hwf.positive rfl g (List.filter_sublist.subset hg)
  refine ⟨?_, fun d hd => ⟨fun t hle ht => ?_, ?_, fun hnow hend => ?_⟩⟩
  · rw [resetTime_eq_ok_iff, ← nextExpiry?_eq_none_iff_used hpositive]
    exact and_iff_left fun _ hd => nomatch hd
  · exact used_until_expiry hwf.ordered hd hle ht
  · exact used_at_expiry_lt hwf hsum hd
  · refine resetTime_eq_ok_iff.mpr ⟨hd, fun e he => ?_⟩
    rw [← Option.some.inj he]
    exact fits_of_inCalendar hnow hend

/-- At 0 s, after the clock has gone back from 100 s, the oldest of two permits expires in ten
seconds, and then the one of the future is left. -/
theorem reset_is_next_drop_acrossTheClock :
    let cell := (run (WindowCell.step (.seconds 10)) (.empty .sliding) acrossTheClock).1
    Grant.tally (fun _ => true) cell.kept ≤ 4294967295 ∧
      cell.used ⟨0⟩ (.seconds 10) = 2 ∧
      cell.used ⟨9999999999⟩ (.seconds 10) = 2 ∧
      cell.used ⟨10000000000⟩ (.seconds 10) < 2 ∧
      cell.resetTime ⟨0⟩ (.seconds 10) = .ok (some (.seconds 10)) := by
  intro cell
  have hsum : Grant.tally (fun _ => true) cell.kept ≤ 4294967295 := by decide
  have hused : cell.used ⟨0⟩ (.seconds 10) = 2 := by rfl
  have hreset : cell.nextExpiry? ⟨0⟩ (.seconds 10) = some (.seconds 10) := by rfl
  obtain ⟨huntil, hdrop, htold⟩ := (reset_is_next_drop hsum ⟨0⟩).2 _ hreset
  refine ⟨hsum, hused, ?_, ?_, htold (by decide) (by decide)⟩
  · exact (huntil ⟨9999999999⟩ (by decide) (by decide)).trans hused
  · rw [← hused]
    exact hdrop

/-! ## Fixed windows -/

/-- At its reset time a fixed cell counts nothing. -/
theorem used_at_expiry_fixed (hcell : cell.Wf .fixed)
    (h : cell.nextExpiry? now window = some d) : cell.used (now.plus d) window = 0 := by
  obtain ⟨g, rest, hpresent, hend⟩ := exists_oldest_of_nextExpiry? h
  have hlength : (g :: rest).length ≤ 1 := by
    rw [← hpresent]
    refine Nat.le_trans (List.length_filter_le _ _) ?_
    rcases cell with log | (_ | w)
    · cases hcell.policy_eq
    · exact Nat.zero_le _
    · exact Nat.le_refl _
  obtain rfl : rest = [] := by
    rw [← List.length_eq_zero_iff]
    exact Nat.le_zero.mp (Nat.le_of_succ_le_succ hlength)
  rw [used_eq_total_present, hend, present_at_expiry hcell.ordered hpresent]
  rfl

/-- A fixed cell waits for the end of its window as long as the window is open, whether or not any
of its permits is left. -/
theorem nextExpiry?_isSome_iff_fixed (hcell : cell.Wf .fixed) :
    (cell.nextExpiry? now window).isSome ↔ 0 < cell.used now window ∨
      ∃ start, cell = .fixed (some ⟨start, 0⟩) ∧ live now window start = true := by
  rcases cell with log | (_ | g)
  · cases hcell.policy_eq
  · simp [nextExpiry?, oldest?, used]
  · obtain ⟨start, permits⟩ := g
    by_cases hopen : live now window start = true
    · have hcounts : Grant.counts now window ⟨start, permits⟩ = true := hopen
      by_cases hempty : permits = 0
      · subst hempty
        simp [nextExpiry?, oldest?, hcounts, hopen]
      · have hpos : 0 < permits := UInt32.pos_iff_ne_zero.mpr hempty
        simp [nextExpiry?, oldest?, used, hcounts, hpos]
    · have hcounts : Grant.counts now window ⟨start, permits⟩ = false := by
        rw [Grant.counts_eq_live]
        simpa using hopen
      simp [nextExpiry?, oldest?, used, hcounts, hopen]

end WindowCell

/-! ## The view of a limiter -/

/-- A line of a view tells what its cell counts and when it resets. -/
theorem CellView.of_eq_ok_iff {now : Instant} {key : CellKey} {cell : WindowCell} {v : CellView} :
    CellView.of now key cell = .ok v ↔
      v.key = key ∧ v.used = cell.used now key.window ∧
        cell.resetTime now key.window = .ok v.resetsIn := by
  unfold CellView.of
  cases cell.resetTime now key.window with
  | error cause =>
    refine iff_of_false (fun h => nomatch h) ?_
    rintro ⟨-, -, h⟩
    cases h
  | ok reset =>
    obtain ⟨key', used, resetsIn⟩ := v
    constructor
    · intro h
      obtain ⟨rfl, rfl, rfl⟩ := CellView.mk.inj (Except.ok.inj h)
      exact ⟨rfl, rfl, rfl⟩
    · rintro ⟨rfl, hused, hreset⟩
      obtain rfl := Except.ok.inj hreset
      obtain rfl : used = cell.used now key'.window := hused
      rfl

variable {ω : Type}

namespace Store

theorem Reachable.wf_cell {policy : WindowPolicy} {s : Store} (h : s.Reachable policy)
    (key : CellKey) : (s.cell key).Wf policy := by
  obtain ⟨rfl, hwf⟩ := h.wf
  exact hwf key

/-- An open window of which all permits came back. -/
def Returned (s : Store) (now : Instant) (key : CellKey) : Prop :=
  ∃ start, s.cells[key]? = some (.fixed (some ⟨start, 0⟩)) ∧ live now key.window start = true

end Store

namespace Limiter

/-- The store of a limiter is one that requests, returns and sweeps lead to, also through the
replacement of its rules. -/
theorem reachable_run (rules : List (Rule ω)) (policy : WindowPolicy)
    (events : List (Instant × Event ω)) :
    (run Limiter.stepEvent (.new rules policy) events).1.store.Reachable policy := by
  refine run_invariant (P := fun l : Limiter ω => l.store.Reachable policy) ?_ .empty events
  rintro l ⟨now, event⟩ h
  cases event with
  | publish rules => exact h.sweep now
  | call c =>
    cases c with
    | request op n partly => exact h.acquire l.rules op n partly now
    | available op => exact h
    | giveBack op n => exact h.giveBack l.rules op n now
    | sweep => exact h.sweep now

/-- Over a run in which nothing is given back no cell comes to hold an empty grant. -/
theorem positive_run (rules : List (Rule ω)) (policy : WindowPolicy)
    {events : List (Instant × Event ω)}
    (hreturns : ∀ e ∈ events, ∀ op n, e.2 ≠ .call (.giveBack op n)) :
    (run Limiter.stepEvent (.new rules policy) events).1.store.Positive :=
  run_keeps (P := fun l : Limiter ω => l.store.Positive)
    (fun _ e he h => positive_stepEvent h (hreturns e he)) (Store.positive_empty policy)

/-- **When a fixed cell resets.** After any run of a fixed limiter at any readings, a line of its
view has a reset time exactly if its cell counts anything, or if the window of the cell is still open
though all permits came back; the latter needs a return.  Until the reset time the cell counts the
same at every reading, and nothing at that instant. -/
theorem fixed_reset_iff (rules : List (Rule ω)) {events : List (Instant × Event ω)} {now : Instant}
    {views : List CellView}
    (hview : (run Limiter.stepEvent (.new rules .fixed) events).1.store.view now = .ok views)
    {v : CellView} (hv : v ∈ views) :
    let s := (run Limiter.stepEvent (.new rules .fixed) events).1.store
    (v.resetsIn.isSome ↔ 0 < v.used ∨ s.Returned now v.key) ∧
    ((∀ e ∈ events, ∀ op n, e.2 ≠ .call (.giveBack op n)) → (v.resetsIn.isSome ↔ 0 < v.used)) ∧
    ∀ d, v.resetsIn = some d →
      (∀ t, now ≤ t → t < now.plus d → s.used t v.key = v.used) ∧
      s.used (now.plus d) v.key = 0 := by
  intro s
  obtain ⟨cell, hcell, hline⟩ := (Store.mem_view hview).mp hv
  obtain ⟨-, hused, hreset⟩ := CellView.of_eq_ok_iff.mp hline
  replace hreset := WindowCell.nextExpiry?_of_resetTime hreset
  have hwf : cell.Wf .fixed := by
    rw [← Store.cell_of_some hcell]
    exact (reachable_run rules .fixed events).wf_cell v.key
  have hcounts : ∀ t, s.used t v.key = cell.used t v.key.window := by
    intro t
    rw [Store.used_eq, Store.cell_of_some hcell]
  have hopen : v.resetsIn.isSome ↔ 0 < v.used ∨ s.Returned now v.key := by
    have hreturned : s.Returned now v.key ↔
        ∃ start, cell = .fixed (some ⟨start, 0⟩) ∧ live now v.key.window start = true := by
      unfold Store.Returned
      rw [hcell]
      simp only [Option.some.injEq]
    rw [hreturned, hused, ← hreset, WindowCell.nextExpiry?_isSome_iff_fixed hwf]
  refine ⟨hopen, fun hreturns => ?_, fun d hd => ⟨fun t hle ht => ?_, ?_⟩⟩
  · -- an empty window would be an empty grant
    rw [hopen]
    refine or_iff_left ?_
    rintro ⟨start, hempty, -⟩
    have hpositive : ∀ g ∈ (s.cell v.key).kept, 0 < g.permits :=
      positive_run rules .fixed hreturns v.key
    rw [Store.cell_of_some hempty] at hpositive
    exact UInt32.lt_irrefl 0 (hpositive ⟨start, 0⟩ List.mem_cons_self)
  · rw [hcounts, hused]
    exact WindowCell.used_until_expiry hwf.ordered (hreset.trans hd) hle ht
  · rw [hcounts]
    exact WindowCell.used_at_expiry_fixed hwf (hreset.trans hd)

/-- Two of three permits come back, and the one that stays out expires with the window. -/
theorem fixed_reset_iff_partlyReturned :
    let events := partlyReturned.take 2
    let s := (run Limiter.stepEvent (.new threeASecond .fixed) events).1.store
    let line : CellView := ⟨Store.apiCell, 1, some ⟨700000000⟩⟩
    s.view ⟨300000000⟩ = .ok [line] ∧ line ∈ [line] ∧
      s.used ⟨999999999⟩ Store.apiCell = 1 ∧ s.used ⟨1000000000⟩ Store.apiCell = 0 := by
  intro events s line
  have hview : s.view ⟨300000000⟩ = .ok [line] := by rfl
  have hline : line ∈ [line] := List.mem_cons_self
  obtain ⟨-, -, hreset⟩ := fixed_reset_iff threeASecond hview hline
  obtain ⟨huntil, hend⟩ := hreset ⟨700000000⟩ rfl
  exact ⟨hview, hline, huntil ⟨999999999⟩ (by decide) (by decide), hend⟩

/-- Three permits are taken, and all of them come back. -/
def takenAndReturned : List (Instant × Event Unit) :=
  [(⟨0⟩, .call (.request () 3 false)), (⟨0⟩, .call (.giveBack () 3))]

/-- A cell that counts nothing has a reset time, as its window is still open. -/
theorem returned_window_resets :
    let s := (run Limiter.stepEvent (.new threeASecond .fixed) takenAndReturned).1.store
    let line : CellView := ⟨Store.apiCell, 0, some (.seconds 1)⟩
    s.view ⟨0⟩ = .ok [line] ∧ ¬ (line.resetsIn.isSome ↔ 0 < line.used) := by
  exact ⟨rfl, by decide⟩

end Limiter

end Admission
