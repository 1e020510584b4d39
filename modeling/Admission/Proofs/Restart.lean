import Mathlib.Data.List.Basic
import Mathlib.Data.List.Pairwise
import Admission.Proofs.Import
import Admission.Proofs.Present

/-!
# Usage survives a restart

A limiter exports the grants it counts, and a fresh limiter imports those that still count.  The
export reads the clock once, the import again, and each grant is recorded at its own stamp; none of
this loses or moves a permit.

* `Store.grantsAt_history` — what an import takes from an export is, cell by cell, what is present
  at the import, less the empty windows.
* `WindowCell.kept_replay_empty` — replaying it into an empty cell gives it back unchanged.  This
  is where the run behind the export matters: while the clock does not go back, all grants of a
  log fall within one window (`WindowCell.Recent`), so no record drops what the ones before it
  brought in.
* `usage_survives_restart` — hence every cell counts the same in both limiters from then on, and
  two logs that are alike answer alike for good.
-/

namespace Admission

/-! ## What an export says of a cell -/

namespace GroupKey

/-- The value of a group tells it apart, also from the undivided group. -/
@[simp] theorem ofValue?_value? (group : GroupKey) : ofValue? group.value? = group := by
  cases group <;> rfl

end GroupKey

namespace WindowCell

variable {now : Instant} {window : Span}

/-- What counts at the export and still counts at the import is what is present at the import and
not empty. -/
theorem filter_grants {t₀ t₁ : Instant} (hle : t₀ ≤ t₁) {policy : WindowPolicy}
    {cell : WindowCell} (h : cell.Wf policy) (window : Span) :
    ((cell.grants t₀ window).filter fun g => 0 < g.permits && g.counts t₁ window) =
      (cell.present t₁ window).filter (0 < ·.permits) := by
  have hcounts : ∀ g : Grant, g.counts t₁ window = true → g.counts t₀ window = true :=
    fun _ hg => live_of_reading_le hle hg
  cases cell with
  | sliding log =>
    unfold grants present kept
    rw [List.filter_filter, List.filter_filter]
    refine List.filter_congr fun g _ => ?_
    cases hg : g.counts t₁ window with
    | false => simp
    | true => simp [hcounts g hg]
  | fixed w =>
    cases w with
    | none => rfl
    | some g =>
      by_cases hp : 0 < g.permits
      · by_cases hg : g.counts t₁ window = true
        · simp [grants, present, kept, hp, hg, hcounts g hg]
        · by_cases hg' : g.counts t₀ window = true
          · simp [grants, present, kept, hp, hg, hg']
          · simp [grants, present, kept, hg, hg']
      · by_cases hg : g.counts t₁ window = true
        · simp [grants, present, kept, hp, hg]
        · simp [grants, present, kept, hp, hg]

/-! ## Recent cells -/

/-- All stamps of a cell are past, and no grant is a whole window older than another one. -/
structure Recent (last : Instant) (window : Span) (cell : WindowCell) : Prop where
  past : ∀ g ∈ cell.kept, g.stamp ≤ last
  together : cell.kept.Pairwise fun a b => live b.stamp window a.stamp = true

theorem Recent.empty (last : Instant) (window : Span) (policy : WindowPolicy) :
    (empty policy).Recent last window where
  past := by
    rw [kept_empty]
    exact fun _ hg => absurd hg List.not_mem_nil
  together := by
    rw [kept_empty]
    exact List.Pairwise.nil

theorem Recent.mono {last : Instant} {cell : WindowCell} (h : cell.Recent last window)
    (hle : last ≤ now) : cell.Recent now window where
  past := fun g hg => Int.le_trans (h.past g hg) hle
  together := h.together

/-- What holds of the reading and of all stamps holds of all stamps after a record. -/
theorem forall_mem_record {P : Instant → Prop} {cell : WindowCell} (hnow : P now)
    (h : ∀ g ∈ cell.kept, P g.stamp) (p : Count) :
    ∀ g ∈ (cell.record now window p).kept, P g.stamp := by
  cases cell with
  | sliding log =>
    refine Grant.forall_mem_insert.mpr ⟨hnow, fun g hg => ?_⟩
    exact h g ((List.dropWhile_sublist _).subset hg)
  | fixed w =>
    intro g hg
    rcases mem_kept_record_fixed hg with rfl | ⟨first, hfirst, rfl⟩
    · exact hnow
    · exact h first (List.mem_filter.mp hfirst).1

theorem Recent.record (hw : 0 < window.nanos) {cell : WindowCell}
    (hcell : Grant.Ordered cell.kept) (h : cell.Recent now window) (p : Count) :
    (cell.record now window p).Recent now window := by
  have hpast : ∀ g ∈ (cell.record now window p).kept, g.stamp ≤ now :=
    forall_mem_record (P := (· ≤ now)) (Int.le_refl _) h.past p
  refine ⟨hpast, List.pairwise_of_forall_mem_list fun a ha b hb => ?_⟩
  -- all that is left counts now, and nothing is newer than now
  exact live_of_reading_le (hpast b hb) (live_of_mem_record hw hcell ha)

/-- A return brings no stamp in. -/
theorem stamps_giveBack (now : Instant) (window : Span) (cell : WindowCell) (n : Count) :
    ((cell.giveBack now window n).kept.map (·.stamp)).Sublist (cell.kept.map (·.stamp)) := by
  cases cell with
  | sliding log =>
    have hstamps : ((Grant.takeBack now window n log.reverse).reverse.map (·.stamp)) =
        log.map (·.stamp) := by
      rw [List.map_reverse, Grant.map_stamp_takeBack, List.map_reverse, List.reverse_reverse]
    show (((Grant.takeBack now window n log.reverse).reverse.filter _).map _).Sublist
      (log.map (·.stamp))
    rw [← hstamps]
    exact List.filter_sublist.map _
  | fixed w =>
    cases w with
    | none => exact List.Sublist.refl _
    | some g =>
      rw [WindowCell.giveBack]
      split <;> exact List.Sublist.refl _

theorem Recent.giveBack {cell : WindowCell} (h : cell.Recent now window) (n : Count) :
    (cell.giveBack now window n).Recent now window := by
  have hstamps := stamps_giveBack now window cell n
  refine ⟨fun g hg => ?_, ?_⟩
  · obtain ⟨x, hx, heq⟩ := List.mem_map.mp (hstamps.subset (List.mem_map_of_mem hg))
    rw [← heq]
    exact h.past x hx
  · have htogether := h.together
    rw [← List.pairwise_map (f := Grant.stamp) (R := fun a b => live b window a = true)]
      at htogether ⊢
    exact htogether.sublist hstamps

/-! ## A replay brings an export back -/

/-- A record at the end of a log of which nothing has expired appends to it. -/
theorem record_append {log : List Grant} {g : Grant} (hlater : ∀ e ∈ log, e.stamp < g.stamp)
    (hlive : ∀ e ∈ log, live g.stamp window e.stamp = true) :
    (sliding log).record g.stamp window g.permits = sliding (log ++ [g]) := by
  have hkeep : (log.dropWhile fun e => !e.counts g.stamp window) = log := by
    cases log with
    | nil => rfl
    | cons e rest =>
      have he : e.counts g.stamp window = true := hlive e List.mem_cons_self
      simp [he]
  have hinsert : Grant.insert g.stamp g.permits log = log ++ [g] := by
    clear hlive hkeep
    induction log with
    | nil => rfl
    | cons e rest ih =>
      obtain ⟨he, hrest⟩ := List.forall_mem_cons.mp hlater
      rw [Grant.insert, if_pos he, ih hrest, List.cons_append]
  show sliding (Grant.insert _ _ (log.dropWhile _)) = _
  rw [hkeep, hinsert]

/-- A log within one window is what its grants make of an empty one, taken in order. -/
theorem replay_sliding {log gs : List Grant} (hordered : Grant.Ordered (log ++ gs))
    (htogether : (log ++ gs).Pairwise fun a b => live b.stamp window a.stamp = true) :
    (sliding log).replay window gs = sliding (log ++ gs) := by
  induction gs generalizing log with
  | nil => rw [List.append_nil]; rfl
  | cons g rest ih =>
    have hlater : ∀ e ∈ log, e.stamp < g.stamp := fun e he =>
      (List.pairwise_append.mp hordered).2.2 e he g List.mem_cons_self
    have hlive : ∀ e ∈ log, live g.stamp window e.stamp = true := fun e he =>
      (List.pairwise_append.mp htogether).2.2 e he g List.mem_cons_self
    rw [List.append_cons] at hordered htogether ⊢
    rw [replay_cons, record_append hlater hlive]
    exact ih hordered htogether

/-- What is present in a recent cell, less an empty window, can be replayed into an empty cell. -/
theorem kept_replay_empty {policy : WindowPolicy} {cell : WindowCell} {last : Instant}
    (hwf : cell.Wf policy) (h : cell.Recent last window) (now : Instant) :
    let gs := (cell.present now window).filter (0 < ·.permits)
    ((empty policy).replay window gs).kept = gs := by
  intro gs
  have hsub : gs.Sublist cell.kept := List.filter_sublist.trans List.filter_sublist
  have hpolicy := hwf.policy_eq
  cases cell with
  | sliding log =>
    subst hpolicy
    have hordered : Grant.Ordered ([] ++ gs) := hwf.ordered.sublist hsub
    have hreplay : (sliding []).replay window gs = sliding ([] ++ gs) :=
      replay_sliding hordered (h.together.sublist hsub)
    show ((sliding []).replay window gs).kept = gs
    rw [hreplay]
    rfl
  | fixed w =>
    subst hpolicy
    -- at most one grant is present, and recording it starts its window again
    have hlength : gs.length ≤ 1 := by
      refine Nat.le_trans hsub.length_le ?_
      cases w <;> simp [kept]
    rcases Nat.le_one_iff_eq_zero_or_eq_one.mp hlength with hnone | hone
    · rw [List.length_eq_zero_iff.mp hnone]
      rfl
    · obtain ⟨g, hg⟩ := List.length_eq_one_iff.mp hone
      rw [hg]
      rfl

end WindowCell

/-! ## Exporting and importing a store -/

namespace Store

variable {ω : Type} {s : Store} {last now : Instant}

/-- What the entries of a map say of one key is said by its own entry. -/
private theorem flatMap_toList {β : Type} (m : Std.ExtTreeMap CellKey WindowCell) (key : CellKey)
    (f : WindowCell → List β) :
    (m.toList.flatMap fun e => if e.1 = key then f e.2 else []) =
      (m[key]?.map f).getD [] := by
  have hothers : ∀ {L : List (CellKey × WindowCell)}, (∀ e ∈ L, e.1 ≠ key) →
      (L.flatMap fun e => if e.1 = key then f e.2 else []) = [] := by
    intro L hL
    rw [List.flatMap_eq_nil_iff]
    intro e he
    rw [if_neg (hL e he)]
  have hdistinct : m.toList.Pairwise fun a b => a.1 ≠ b.1 :=
    (Std.ExtTreeMap.distinct_keys_toList (t := m)).imp fun h heq =>
      h (Std.compare_eq_iff_eq.mpr heq)
  cases hm : m[key]? with
  | none =>
    refine hothers fun e he heq => ?_
    have hfound := Std.ExtTreeMap.mem_toList_iff_getElem?_eq_some.mp he
    rw [heq, hm] at hfound
    cases hfound
  | some c =>
    obtain ⟨before, after, hsplit⟩ :=
      List.append_of_mem (Std.ExtTreeMap.mem_toList_iff_getElem?_eq_some.mpr hm)
    rw [hsplit] at hdistinct ⊢
    obtain ⟨_, hafter, hbefore⟩ := List.pairwise_append.mp hdistinct
    rw [List.flatMap_append, List.flatMap_cons, if_pos rfl,
      hothers fun e he => hbefore e he _ List.mem_cons_self,
      hothers fun e he => ((List.pairwise_cons.mp hafter).1 e he).symm, List.append_nil]
    rfl

/-- The entry of a cell in an export, read at an import. -/
theorem live_cellGrants {t₀ t₁ : Instant} (entry key : CellKey) (cell : WindowCell) :
    ((cellGrants? t₀ entry cell).toList.flatMap fun c => if c.key = key then c.live t₁ else []) =
      if entry = key then
        (cell.grants t₀ key.window).filter fun g => 0 < g.permits && g.counts t₁ key.window
      else [] := by
  unfold cellGrants?
  cases hgs : cell.grants t₀ entry.window with
  | nil =>
    by_cases heq : entry = key
    · rw [if_pos heq, ← heq, hgs]
      rfl
    · rw [if_neg heq]
      rfl
  | cons g rest =>
    have hkey : (CellGrants.mk entry.rule entry.grouping entry.group.value? entry.window
        (g :: rest)).key = entry := by
      unfold CellGrants.key
      rw [GroupKey.ofValue?_value?]
    rw [Option.toList_some, List.flatMap_singleton, hkey]
    by_cases heq : entry = key
    · rw [if_pos heq, if_pos heq, ← heq, hgs]
      rfl
    · rw [if_neg heq, if_neg heq]

/-- What an import takes from an export under a key is what is present there at the import, less
an empty window. -/
theorem grantsAt_history (h : s.Wf) {t₀ t₁ : Instant} (hle : t₀ ≤ t₁) (key : CellKey) :
    (s.history t₀).grantsAt t₁ key =
      ((s.cell key).present t₁ key.window).filter (0 < ·.permits) := by
  have hflat : (s.history t₀).grantsAt t₁ key =
      s.cells.toList.flatMap fun e => if e.1 = key then
        (e.2.grants t₀ key.window).filter fun g => 0 < g.permits && g.counts t₁ key.window
      else [] := by
    rw [GrantHistory.grantsAt_eq]
    show ((s.cells.toList.filterMap _).flatMap _) = _
    rw [List.filterMap_eq_flatMap_toList, List.flatMap_assoc]
    congr 1
    funext e
    exact live_cellGrants e.1 key e.2
  rw [hflat, flatMap_toList s.cells key fun cell => (cell.grants t₀ key.window).filter
    fun g => 0 < g.permits && g.counts t₁ key.window, ← WindowCell.filter_grants hle (h key)]
  cases hcell : s.cells[key]? with
  | some c => rw [cell_of_some hcell]; rfl
  | none =>
    rw [cell_of_none hcell]
    cases s.policy <;> rfl

/-! ## Recent stores -/

/-- Every cell whose window is not empty is recent. -/
def Recent (last : Instant) (s : Store) : Prop :=
  ∀ key : CellKey, 0 < key.window.nanos → (s.cell key).Recent last key.window

theorem Recent.empty (last : Instant) (policy : WindowPolicy) :
    (empty policy).Recent last := by
  intro key _
  rw [cell_empty]
  exact WindowCell.Recent.empty last key.window policy

theorem Recent.mono (h : s.Recent last) (hle : last ≤ now) : s.Recent now :=
  fun key hw => (h key hw).mono hle

theorem Recent.acquire (h : s.Recent now) (hwf : s.Wf) (rules : List (Rule ω)) (op : ω)
    (n : Count) (partly : Bool) : (s.acquire rules op n partly now).1.Recent now := by
  intro key hw
  rw [cell_acquire]
  split
  · exact (h key hw).record hw (hwf key).ordered _
  · exact h key hw

theorem Recent.giveBack (h : s.Recent now) (rules : List (Rule ω)) (op : ω) (n : Count) :
    (s.giveBack rules op n now).Recent now := by
  intro key hw
  rw [cell_giveBack]
  split
  · exact (h key hw).giveBack n
  · exact h key hw

theorem Recent.sweep (h : s.Recent now) : (s.sweep now).Recent now := by
  intro key hw
  rw [cell_sweep]
  split
  · exact WindowCell.Recent.empty now key.window s.policy
  · exact h key hw

end Store

/-- Against a window of no length nothing counts. -/
theorem WindowCell.present_of_no_window {window : Span} (hw : ¬ 0 < window.nanos)
    (now : Instant) (cell : WindowCell) : cell.present now window = [] := by
  rw [present, List.filter_eq_nil_iff]
  intro g _ hg
  exact hw (live_iff.mp hg).2

namespace Store

variable {s : Store} {last : Instant}

/-- A store that is exported and imported into an empty one comes back with all that is present
under every key, less the empty windows, now and later. -/
theorem exists_restart (hwf : s.Wf) (h : s.Recent last) {t₀ t₁ : Instant} (hle : t₀ ≤ t₁) :
    ∃ after count, (empty s.policy).addHistory? (s.history t₀) t₁ = some (after, count) ∧
      after.policy = s.policy ∧ after.Wf ∧
      ∀ t, t₁ ≤ t → ∀ key : CellKey, (after.cell key).present t key.window =
        ((s.cell key).present t key.window).filter (0 < ·.permits) := by
  obtain ⟨after, hadd, hpolicy, hcell⟩ :=
    exists_addHistory (s := empty s.policy) (h := s.history t₀) rfl t₁
  have hafter : after.Wf := ((wf_empty s.policy).addHistory hadd).2
  refine ⟨after, _, hadd, hpolicy, hafter, fun t ht key => ?_⟩
  by_cases hw : 0 < key.window.nanos
  · have hkept := WindowCell.kept_replay_empty (hwf key) (h key hw) t₁
    have hsame : (after.cell key).kept =
        ((s.cell key).present t₁ key.window).filter (0 < ·.permits) := by
      rw [hcell, cell_empty, grantsAt_history hwf hle]
      exact hkept
    rw [WindowCell.present, hsame, List.filter_comm,
      ← WindowCell.present_of_reading_le ht]
  · rw [WindowCell.present_of_no_window hw, WindowCell.present_of_no_window hw]
    rfl

end Store

/-! ## Limiters that are restarted -/

variable {ω : Type}

/-- A limiter of a policy whose clock never went back, up to its last reading. -/
structure Limiter.Recent (policy : WindowPolicy) (last : Instant) (l : Limiter ω) : Prop where
  policy : l.store.policy = policy
  wf : l.store.Wf
  recent : l.store.Recent last

namespace Limiter.Recent

variable {l : Limiter ω} {policy : WindowPolicy} {last : Instant}

theorem new (rules : List (Rule ω)) (policy : WindowPolicy) (last : Instant) :
    Recent policy last (.new rules policy) where
  policy := rfl
  wf := Store.wf_empty policy
  recent := Store.Recent.empty last policy

theorem stepEvent (h : Recent policy last l) (e : Instant × Event ω) (hle : last ≤ e.1) :
    Recent policy e.1 (l.stepEvent e).1 := by
  obtain ⟨now, event⟩ := e
  obtain ⟨rfl, hwf, hrecent⟩ := h
  replace hrecent := hrecent.mono hle
  cases event with
  | publish rules => exact ⟨rfl, hwf.sweep now, hrecent.sweep⟩
  | call c =>
    cases c with
    | request op n partly =>
      exact ⟨Store.policy_acquire, hwf.acquire l.rules op n partly now,
        hrecent.acquire hwf l.rules op n partly⟩
    | available op => exact ⟨rfl, hwf, hrecent⟩
    | giveBack op n =>
      exact ⟨Store.policy_giveBack, hwf.giveBack l.rules op n now,
        hrecent.giveBack l.rules op n⟩
    | sweep => exact ⟨rfl, hwf.sweep now, hrecent.sweep⟩

/-- Every run with a clock that never goes back ends in a recent limiter. -/
theorem exists_of_run (rules : List (Rule ω)) (policy : WindowPolicy)
    {events : List (Instant × Event ω)} (hclock : Chronological events) :
    ∃ last, Recent policy last (run Limiter.stepEvent (.new rules policy) events).1 :=
  run_trace (P := fun last l _ => Recent policy last l)
    (fun _ _ _ e h hle => h.stepEvent e hle) (new rules policy) hclock

end Limiter.Recent

/-- **A restart keeps the usage.** After any run with a clock that never goes back, under either
policy, the grants exported at `t₀` can be imported at `t₁`, not before `t₀`, into a fresh limiter
on the same rules.  From `t₁` on every cell counts the same in both limiters, so every operation
finds the same permits available; the undivided group and the group of the value `global` are
cells of their own.  Under the sliding policy both limiters also answer every later run alike. -/
theorem usage_survives_restart (rules : List (Rule ω)) (policy : WindowPolicy)
    {events : List (Instant × Event ω)} (hclock : Chronological events) {t₀ t₁ : Instant}
    (hle : t₀ ≤ t₁) :
    let old := (run Limiter.stepEvent (.new rules policy) events).1
    ∃ store count,
      (Limiter.new old.rules policy).store.addHistory? (old.store.history t₀) t₁ =
        some (store, count) ∧
      (∀ t, t₁ ≤ t → ∀ key : CellKey, store.used t key = old.store.used t key) ∧
      (∀ t, t₁ ≤ t → ∀ op,
        Limiter.available ⟨old.rules, store⟩ op t = old.available op t) ∧
      (policy = .sliding → ∀ later : List (Instant × Event ω),
        Chronological later → (∀ e ∈ later, t₁ ≤ e.1) →
        (run Limiter.stepEvent ⟨old.rules, store⟩ later).2 =
          (run Limiter.stepEvent old later).2) := by
  intro old
  obtain ⟨last, hpolicy, hwf, hrecent⟩ := Limiter.Recent.exists_of_run rules policy hclock
  obtain ⟨store, count, hadd, hstore, hstorewf, hpresent⟩ :=
    Store.exists_restart (s := old.store) hwf hrecent hle
  have hused : ∀ t, t₁ ≤ t → ∀ key : CellKey, store.used t key = old.store.used t key := by
    intro t ht key
    rw [Store.used_eq, Store.used_eq, WindowCell.used_eq_total_present,
      WindowCell.used_eq_total_present, hpresent t ht, Grant.total_filter_positive]
  refine ⟨store, count, ?_, hused, fun t ht op => ?_, fun hsliding later hlater hlast => ?_⟩
  · rw [← hpolicy]
    exact hadd
  · have hleft : store.left t = old.store.left t := by
      funext c
      unfold Store.left
      rw [hused t ht]
    unfold Limiter.available Store.available Store.room
    rw [hleft]
  · -- a log holds no empty grant, so nothing at all is missing in the new one
    have halike : Limiter.Alike t₁ ⟨old.rules, store⟩ old := by
      refine ⟨rfl, hstore, hstorewf, hwf, fun key => ?_⟩
      rw [hpresent t₁ (Int.le_refl _), List.filter_eq_self]
      intro g hg
      exact decide_eq_true (hwf.settled (hpolicy.trans hsliding) t₁ key g hg)
    exact halike.run_answers hlater hlast

/-- Three permits a second for each caller, where anonymous callers are the undivided group. -/
def threeEach : List (Rule (Option String)) :=
  [.everything "api" [⟨"caller", .ofValue?, [.perUnit 3 .second]⟩]]

/-- Anonymous callers use up their permits, and a caller named `global` takes one of its own. -/
def anonymousAndGlobal : List (Instant × Event (Option String)) :=
  [(⟨0⟩, .call (.request none 2 false)), (⟨100000000⟩, .call (.request none 2 true)),
    (⟨100000000⟩, .call (.request (some "global") 1 false))]

/-- A limiter exported at 0.2 s and imported at 0.5 s goes on where it was. -/
theorem usage_survives_restart_anonymousAndGlobal :
    let old := (run Limiter.stepEvent (.new threeEach .sliding) anonymousAndGlobal).1
    Chronological anonymousAndGlobal ∧ (⟨200000000⟩ : Instant) ≤ ⟨500000000⟩ ∧
      ∃ store count,
        (Limiter.new old.rules .sliding).store.addHistory? (old.store.history ⟨200000000⟩)
          ⟨500000000⟩ = some (store, count) ∧
        Limiter.available ⟨old.rules, store⟩ none ⟨600000000⟩ = 0 ∧
        Limiter.available ⟨old.rules, store⟩ (some "global") ⟨600000000⟩ = 2 ∧
        (run Limiter.stepEvent ⟨old.rules, store⟩
          [(⟨1000000000⟩, .call (.request none 3 true))]).2 =
          (run Limiter.stepEvent old [(⟨1000000000⟩, .call (.request none 3 true))]).2 := by
  intro old
  have hclock : Chronological anonymousAndGlobal := by
    unfold Chronological
    decide
  have hle : (⟨200000000⟩ : Instant) ≤ ⟨500000000⟩ := by decide
  obtain ⟨store, count, hadd, _, havailable, hlater⟩ :=
    usage_survives_restart threeEach .sliding hclock hle
  refine ⟨hclock, hle, store, count, hadd, ?_, ?_, ?_⟩
  · rw [havailable _ (by decide)]
    decide +kernel
  · rw [havailable _ (by decide)]
    decide +kernel
  · exact hlater rfl _ (List.pairwise_singleton _ _) (by decide)

end Admission
