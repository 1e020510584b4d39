import Admission.Proofs.Commit
import Admission.Proofs.Import
import Admission.Proofs.Ledger

/-!
# What a return takes back

A return names an operation and a number of permits, and every cell that the operation implicates
gives up so many of its newest grants, as far as they count.

* `Store.giveBack_exact_local` — each of these cells counts exactly so many permits less, and nothing
  else changes: no reading finds more in any cell, no other cell is touched, and none comes or goes.
  This is said of cells whose permits add up to a count (`Store.Summable`); only an import can make
  others (`Store.Summable.acquire`, `Store.Summable.giveBack`).
* `Agrees.undo` — in a log whose clock never went back the newest permits are the ones that were
  just recorded, so the cell agrees with the same account as before.
* `Limiter.undone_request_unseen` — hence a request whose permits are given back at once leaves no
  trace: what comes later is answered as if neither had happened.
-/

namespace Admission

variable {ω : Type}

/-! ## What a cell counts after a return -/

namespace WindowCell

variable {cell : WindowCell} {now : Instant} {window : Span}

/-- A return lowers what a cell counts by the permits given back, down to none. -/
theorem tally_live_giveBack (hw : 0 < window.nanos) (h : Grant.Ordered cell.kept) (n : Count) :
    Grant.tally (live now window) (cell.giveBack now window n).kept =
      Grant.tally (live now window) cell.kept - n.toNat := by
  rw [Grant.tally_live_eq_since hw, Grant.tally_live_eq_since hw]
  apply tally_giveBack h
  intro s hs
  exact (live_iff_cutoff_le hw).mpr hs

end WindowCell

namespace Store

variable {s : Store} {rules : List (Rule ω)} {op : ω} {n : Count} {now : Instant} {key : CellKey}

/-! ## Cells that add up to a count -/

/-- The permits that a cell keeps, counted or not, add up to a count in every cell. -/
def Summable (s : Store) : Prop :=
  ∀ key, Grant.tally (fun _ => true) (s.cell key).kept ≤ 4294967295

theorem summable_empty (policy : WindowPolicy) : (empty policy).Summable := by
  intro key
  rw [cell_empty, WindowCell.kept_empty]
  exact Nat.zero_le _

/-- After a grant all that a cell keeps also counts, and what counts is within a rate. -/
theorem Summable.acquire (h : s.Summable) (hwf : s.Wf) (rules : List (Rule ω)) (op : ω)
    (n : Count) (partly : Bool) (now : Instant) :
    (s.acquire rules op n partly now).1.Summable := by
  intro key
  by_cases hcommit : key ∈ implicated rules op ∧ 0 < s.granted rules op n partly now
  · obtain ⟨hkey, hgranted⟩ := hcommit
    have hkept : Grant.tally (fun _ => true) ((s.acquire rules op n partly now).1.cell key).kept =
        (s.acquire rules op n partly now).1.counted now key := by
      apply Grant.tally_congr
      intro g hg
      rw [cell_acquire, if_pos ⟨hkey, hgranted⟩] at hg
      exact (WindowCell.live_of_mem_record (window_pos_of_mem_implicated hkey)
        (hwf key).ordered hg).symm
    rw [hkept, counted_acquire hkey hgranted]
    exact counted_add_granted_le_most hkey hgranted
  · rw [cell_acquire, if_neg hcommit]
    exact h key

theorem Summable.giveBack (h : s.Summable) (rules : List (Rule ω)) (op : ω) (n : Count)
    (now : Instant) : (s.giveBack rules op n now).Summable := by
  intro key
  rw [cell_giveBack]
  split
  · exact Nat.le_trans (WindowCell.tally_giveBack_le _ n) (h key)
  · exact h key

theorem Summable.toNat_used (h : s.Summable) (now : Instant) (key : CellKey) :
    (s.used now key).toNat = s.counted now key := by
  have hcounted : s.counted now key ≤ Grant.tally (fun _ => true) (s.cell key).kept :=
    Grant.tally_mono (fun _ _ => rfl) _
  have hbound := h key
  rw [Store.toNat_used]
  omega

/-! ## What a store counts after a return -/

theorem counted_giveBack (hwf : s.Wf) (hkey : key ∈ implicated rules op) :
    (s.giveBack rules op n now).counted now key = s.counted now key - n.toNat := by
  unfold counted
  rw [cell_giveBack]
  by_cases hn : n = 0
  · rw [if_neg (fun h => h.1 hn), hn]
    rfl
  · rw [if_pos ⟨hn, hkey⟩]
    exact WindowCell.tally_live_giveBack (window_pos_of_mem_implicated hkey) (hwf key).ordered n

/-- A return raises no cell at any reading. -/
theorem used_giveBack_le (s : Store) (rules : List (Rule ω)) (op : ω) (n : Count) (now : Instant)
    (key : CellKey) (t : Instant) : (s.giveBack rules op n now).used t key ≤ s.used t key := by
  have hcounted : (s.giveBack rules op n now).counted t key ≤ s.counted t key := by
    unfold counted
    rw [cell_giveBack]
    split
    · exact WindowCell.tally_giveBack_le _ n
    · exact Nat.le_refl _
  rw [UInt32.le_iff_toNat_le, toNat_used, toNat_used]
  omega

theorem mem_cells_giveBack : key ∈ (s.giveBack rules op n now).cells ↔ key ∈ s.cells := by
  rw [Std.ExtTreeMap.mem_iff_isSome_getElem?, Std.ExtTreeMap.mem_iff_isSome_getElem?,
    getElem?_giveBack]
  split
  · rw [Option.isSome_map]
  · rfl

/-- **A return is exact and local.** Whatever requests, returns, sweeps and imports led to a store,
at whatever readings: if its cells add up to counts, a return lowers what each implicated cell
counts by the permits given back, or to none where it counts fewer, once also where several rates
share the cell.  No cell counts more at any reading, every other cell is as it was, and no cell
comes or goes. -/
theorem giveBack_exact_local {policy : WindowPolicy} (hs : s.Reachable policy)
    (hsums : s.Summable) (rules : List (Rule ω)) (op : ω) (n : Count) (now : Instant) :
    let after := s.giveBack rules op n now
    (∀ key ∈ implicated rules op, (after.used now key).toNat =
      (s.used now key).toNat - min n.toNat (s.used now key).toNat) ∧
    (∀ (key : CellKey) (t : Instant), after.used t key ≤ s.used t key) ∧
    (∀ key : CellKey, key ∉ implicated rules op → after.cells[key]? = s.cells[key]?) ∧
    (∀ key : CellKey, key ∈ after.cells ↔ key ∈ s.cells) := by
  intro after
  refine ⟨?_, ?_, ?_, ?_⟩
  · intro key hkey
    rw [(hsums.giveBack rules op n now).toNat_used, hsums.toNat_used,
      counted_giveBack hs.wf.2 hkey]
    omega
  · intro key t
    exact s.used_giveBack_le rules op n now key t
  · intro key hkey
    show (s.giveBack rules op n now).cells[key]? = _
    rw [getElem?_giveBack, if_neg fun h => hkey h.2]
  · intro key
    exact mem_cells_giveBack

/-- Two permits taken under two rates that share a cell: one at 1 s, and one at 0 s after the clock
has gone back. -/
def takenTwice : Store :=
  (((empty .sliding).acquire sharedCell () 1 false ⟨1000000000⟩).1.acquire sharedCell () 1 false
    ⟨0⟩).1

/-- A return of one permit leaves the other one, in the cell that both rates count in. -/
theorem giveBack_exact_local_takenTwice :
    takenTwice.Reachable .sliding ∧ takenTwice.Summable ∧
      apiCell ∈ implicated sharedCell () ∧ takenTwice.used ⟨0⟩ apiCell = 2 ∧
      ((takenTwice.giveBack sharedCell () 1 ⟨0⟩).used ⟨0⟩ apiCell).toNat = 1 := by
  have hempty : (empty .sliding).Reachable .sliding := Reachable.empty
  have hfirst := hempty.acquire sharedCell () 1 false ⟨1000000000⟩
  have hreachable : takenTwice.Reachable .sliding := hfirst.acquire sharedCell () 1 false ⟨0⟩
  have hsums : takenTwice.Summable :=
    (((summable_empty .sliding).acquire (wf_empty .sliding) sharedCell () 1 false
      ⟨1000000000⟩).acquire hfirst.wf.2 sharedCell () 1 false ⟨0⟩)
  have hkey : apiCell ∈ implicated sharedCell () := by decide
  have hused : takenTwice.used ⟨0⟩ apiCell = 2 := by rfl
  obtain ⟨hexact, _⟩ := giveBack_exact_local hreachable hsums sharedCell () 1 ⟨0⟩
  refine ⟨hreachable, hsums, hkey, hused, ?_⟩
  have hone := hexact apiCell hkey
  rw [hused] at hone
  exact hone

end Store

/-! ## A request that is undone -/

/-- Permits that are recorded and given back at one reading leave a cell in agreement with the
account that it had. -/
theorem Agrees.undo {now : Instant} {window : Span} {cell : WindowCell} {account : List Posting}
    (h : Agrees now window cell account) (hw : 0 < window.nanos) {p : Count} (hp : 0 < p)
    (hle : Grant.tally (live now window) cell.kept + p.toNat ≤ 4294967295) :
    Agrees now window ((cell.record now window p).giveBack now window p) account where
  wf := (h.wf.record hp).giveBack p
  newest := h.newest
  past := h.past
  same := by
    intro t ht
    rw [WindowCell.tally_giveBack (h.wf.record hp).ordered
      (fun _ hs => live_of_cutoff_le hw ht hs), WindowCell.tally_since_record hw h.wf.policy_eq ht
      hle, h.same t ht]
    by_cases htnow : t ≤ now
    · rw [if_pos htnow, Nat.add_sub_cancel]
    · -- no stamp is after the reading, so nothing is there to be taken by mistake
      have hnone : Posting.since t account = 0 :=
        Posting.since_eq_zero fun p hp htp => htnow (Int.le_trans htp (h.past p hp))
      rw [if_neg htnow, hnone, Nat.zero_add, Nat.zero_sub]

/-- A request that is undone records and gives back in the cells that it is granted permits in, and
leaves the others alone. -/
theorem Store.cell_undo (s : Store) (rules : List (Rule ω)) (op : ω) (n : Count) (partly : Bool)
    (now : Instant) (key : CellKey) :
    ((s.acquire rules op n partly now).1.giveBack rules op (s.granted rules op n partly now)
        now).cell key =
      if key ∈ implicated rules op ∧ 0 < s.granted rules op n partly now then
        ((s.cell key).record now key.window (s.granted rules op n partly now)).giveBack now key.window
          (s.granted rules op n partly now)
      else s.cell key := by
  rw [cell_giveBack, cell_acquire]
  by_cases hkey : key ∈ implicated rules op ∧ 0 < s.granted rules op n partly now
  · rw [if_pos ⟨UInt32.pos_iff_ne_zero.mp hkey.2, hkey.1⟩, if_pos hkey, if_pos hkey]
  · rw [if_neg fun h => hkey ⟨h.2, UInt32.pos_iff_ne_zero.mpr h.1⟩, if_neg hkey, if_neg hkey]

namespace Limiter

variable {l : Limiter ω} {d : Ledger ω} {now : Instant}

theorem Follows.undo (h : Follows now l d) (op : ω) (n : Count) (partly : Bool) :
    Follows now ((l.request op n partly now).1.giveBack op (l.request op n partly now).2.granted now)
      d where
  rules := h.rules
  policy := by
    show ((l.store.acquire l.rules op n partly now).1.giveBack l.rules op _ now).policy = _
    rw [Store.policy_giveBack, Store.policy_acquire, h.policy]
  cells := by
    intro key hw
    show Agrees now key.window (((l.store.acquire l.rules op n partly now).1.giveBack l.rules op
      (l.store.acquire l.rules op n partly now).2.granted now).cell key) _
    rw [Store.granted_acquire, Store.cell_undo]
    split
    · next hkey =>
      exact (h.cells key hw).undo hw hkey.2 (Store.counted_add_granted_le_most hkey.1 hkey.2)
    · exact h.cells key hw

/-- Every run with a clock that never goes back leaves a sliding limiter that some ledger agrees
with at every later reading. -/
theorem exists_follows_of_run (rules : List (Rule ω)) {events : List (Instant × Event ω)}
    (hclock : Chronological events) (hnow : ∀ e ∈ events, e.1 ≤ now) :
    ∃ d, Follows now (run Limiter.stepEvent (.new rules .sliding) events).1 d := by
  obtain ⟨last, hle, d, hfollows⟩ := run_until
    (P := fun last (l : Limiter ω) => ∃ d, Follows last l d)
    (fun _ _ e ⟨d, h⟩ hle => ⟨(d.step e).1, (h.stepEvent e hle).1⟩)
    (fun last => ⟨.new rules, Follows.new last rules⟩) hclock hnow
  exact ⟨d, hfollows.mono hle⟩

/-- **A request that is undone is not seen.** After any run of a sliding limiter with a clock that
never goes back, also one through replacements of its rules: a request whose permits are given back
at the same reading leaves no trace.  Every later run gets the answers that it would have got if
there had been neither the request nor the return. -/
theorem undone_request_unseen (rules : List (Rule ω)) {events : List (Instant × Event ω)}
    (hclock : Chronological events) (hnow : ∀ e ∈ events, e.1 ≤ now) (op : ω) (n : Count)
    (partly : Bool) {later : List (Instant × Event ω)} (hlater : Chronological later)
    (hlate : ∀ e ∈ later, now ≤ e.1) :
    let before := (run Limiter.stepEvent (.new rules .sliding) events).1
    let answer := (before.request op n partly now).2
    let undone := (before.request op n partly now).1.giveBack op answer.granted now
    (run Limiter.stepEvent undone later).2 = (run Limiter.stepEvent before later).2 := by
  intro before answer undone
  obtain ⟨d, hbefore⟩ := exists_follows_of_run rules hclock hnow
  have hundone : Follows now undone d := hbefore.undo op n partly
  -- both limiters answer as the one ledger does
  calc (run Limiter.stepEvent undone later).2
      = (run Ledger.step d later).2 :=
        run_answers_eq (fun _ _ _ e h hle => h.stepEvent e hle) hundone hlater hlate
    _ = (run Limiter.stepEvent before later).2 :=
        (run_answers_eq (fun _ _ _ e h hle => h.stepEvent e hle) hbefore hlater hlate).symm

/-- Two permits are taken under two rates that share a cell. -/
def takenBefore : List (Instant × Event Unit) :=
  [(⟨0⟩, .call (.request () 1 false)), (⟨500000000⟩, .call (.request () 1 false))]

/-- The first of them expires at 1 s. -/
def askedLater : List (Instant × Event Unit) :=
  [(⟨999999999⟩, .call (.available ())), (⟨1000000000⟩, .call (.request () 3 true)),
    (⟨1500000000⟩, .call (.available ()))]

/-- The last permit of the second is taken at the instant of the permit before it, and given
back. -/
theorem undone_request_unseen_sameInstant :
    let before := (run Limiter.stepEvent (.new Store.sharedCell .sliding) takenBefore).1
    let answer := (before.request () 3 true ⟨500000000⟩).2
    let undone := (before.request () 3 true ⟨500000000⟩).1.giveBack () answer.granted ⟨500000000⟩
    Chronological takenBefore ∧ (∀ e ∈ takenBefore, e.1 ≤ ⟨500000000⟩) ∧
      Chronological askedLater ∧ (∀ e ∈ askedLater, ⟨500000000⟩ ≤ e.1) ∧ answer.granted = 1 ∧
      (run Limiter.stepEvent undone askedLater).2 =
        [.room 1,
          .permits ⟨3, 2, 2, some (.rate "api" "global" 0 .whole (.perUnit 3 .second))⟩,
          .room 1] := by
  intro before answer undone
  have hclock : Chronological takenBefore := by
    unfold Chronological
    decide
  have hnow : ∀ e ∈ takenBefore, e.1 ≤ ⟨500000000⟩ := by decide
  have hlater : Chronological askedLater := by
    unfold Chronological
    decide
  have hlate : ∀ e ∈ askedLater, ⟨500000000⟩ ≤ e.1 := by decide
  have hgranted : answer.granted = 1 := by decide +kernel
  refine ⟨hclock, hnow, hlater, hlate, hgranted, ?_⟩
  have hunseen := undone_request_unseen Store.sharedCell hclock hnow () 3 true hlater hlate
  exact hunseen.trans (by decide +kernel)

end Limiter

end Admission
