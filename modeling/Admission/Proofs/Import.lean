import Admission.Proofs.Run
import Admission.Proofs.Store
import Admission.Store.History

/-!
# Importing a grant history

An import replays the counted grants of a history into the cells, each at its own stamp.  Which
grants a record drops and which fixed window it continues is decided at that stamp, though the
history was read at `now`.  `Absorbs` says that the two readings agree on everything that counts;
an import then adds exactly what it should, and otherwise it loses permits.  It never adds more.
-/

namespace Admission

/-! ## The counted grants of a history -/

namespace GrantHistory

/-- Every grant of a history with the cell it belongs to. -/
def entries (h : GrantHistory) : List (CellKey × Grant) :=
  h.cells.flatMap fun c => c.grants.map fun g => (c.key, g)

/-- The grants of a history that count at `now`. -/
def entriesAt (h : GrantHistory) (now : Instant) : List (CellKey × Grant) :=
  h.entries.filter fun e => 0 < e.2.permits && elapsed e.2.stamp now < e.1.window

/-- The grants of one cell that count at `now`, in the order of the history. -/
def grantsAt (h : GrantHistory) (now : Instant) (key : CellKey) : List Grant :=
  ((h.entriesAt now).filter (·.1 = key)).map (·.2)

theorem entriesAt_eq (h : GrantHistory) (now : Instant) :
    h.entriesAt now = h.cells.flatMap fun c => (c.live now).map fun g => (c.key, g) := by
  unfold entriesAt entries
  rw [List.filter_flatMap]
  simp only [List.filter_map]
  rfl

theorem grantsAt_eq (h : GrantHistory) (now : Instant) (key : CellKey) :
    h.grantsAt now key = h.cells.flatMap fun c => if c.key = key then c.live now else [] := by
  unfold grantsAt
  rw [entriesAt_eq, List.filter_flatMap, List.map_flatMap]
  congr 1
  funext c
  by_cases hkey : c.key = key <;> simp [List.filter_map, Function.comp_def, hkey]

theorem mem_grantsAt {h : GrantHistory} {now : Instant} {key : CellKey} {g : Grant}
    (hg : g ∈ h.grantsAt now key) : 0 < g.permits ∧ live now key.window g.stamp = true := by
  obtain ⟨e, he, rfl⟩ := List.mem_map.mp hg
  obtain ⟨he, hkey⟩ := List.mem_filter.mp he
  have hcounts := (List.mem_filter.mp he).2
  rw [Bool.and_eq_true, of_decide_eq_true hkey] at hcounts
  exact ⟨of_decide_eq_true hcounts.1, hcounts.2⟩

end GrantHistory

/-! ## Recording at a stamp of its own -/

namespace WindowCell

/-- Whether grants can be recorded in a cell, each at its own stamp, with everything that counts
at `now` still counted afterwards.  In a log, no counted grant and no earlier one of the list may
be a whole window older than a later one.  Fixed windows need one that counts at `now` and that
all of the grants fall into; if the first of them starts it, nothing in the old one may count. -/
def Absorbs (now : Instant) (window : Span) : WindowCell → List Grant → Prop
  | sliding log, gs =>
    (∀ e ∈ log, live now window e.stamp = true → ∀ g ∈ gs, live g.stamp window e.stamp = true) ∧
      gs.Pairwise fun e g => live g.stamp window e.stamp = true
  | fixed _, [] => True
  | fixed none, first :: rest => ∀ g ∈ rest, live g.stamp window first.stamp = true
  | fixed (some w), first :: rest =>
    if live first.stamp window w.stamp = true then
      live now window w.stamp = true ∧ ∀ g ∈ rest, live g.stamp window w.stamp = true
    else
      (live now window w.stamp = true → w.permits = 0) ∧
        ∀ g ∈ rest, live g.stamp window first.stamp = true

variable {now : Instant} {window : Span} {cell : WindowCell} {g : Grant}

theorem absorbs_nil (now : Instant) (window : Span) (cell : WindowCell) :
    cell.Absorbs now window [] := by
  match cell with
  | sliding log => exact ⟨fun _ _ _ _ hg => absurd hg List.not_mem_nil, List.Pairwise.nil⟩
  | fixed _ => trivial

/-- What a log absorbs after a record: the new grant counts, and older ones only where it kept
them. -/
theorem absorbs_record_sliding {log : List Grant} (hlog : Grant.Ordered log)
    (hg : live now window g.stamp = true) (rest : List Grant) :
    ((sliding log).record g.stamp window g.permits).Absorbs now window rest ↔
      (∀ x ∈ rest, live x.stamp window g.stamp = true) ∧
      (∀ e ∈ log, live g.stamp window e.stamp = true → live now window e.stamp = true →
        ∀ x ∈ rest, live x.stamp window e.stamp = true) ∧
      rest.Pairwise fun e x => live x.stamp window e.stamp = true := by
  show (∀ e ∈ Grant.insert _ _ (log.dropWhile _), _ → ∀ x ∈ rest, _) ∧ _ ↔ _
  rw [Grant.forall_mem_insert (P := fun t => live now window t = true →
      ∀ x ∈ rest, live x.stamp window t = true),
    Grant.forall_mem_dropWhile hlog (P := fun t => live now window t = true →
      ∀ x ∈ rest, live x.stamp window t = true), and_assoc]
  exact and_congr_left' (forall_prop_of_true hg)

theorem absorbs_within {w : Grant} (hw : live g.stamp window w.stamp = true)
    (rest : List Grant) :
    (fixed (some w)).Absorbs now window (g :: rest) ↔
      live now window w.stamp = true ∧ ∀ x ∈ rest, live x.stamp window w.stamp = true := by
  rw [Absorbs, if_pos hw]

theorem absorbs_after {w : Grant} (hw : ¬ live g.stamp window w.stamp = true)
    (rest : List Grant) :
    (fixed (some w)).Absorbs now window (g :: rest) ↔
      (live now window w.stamp = true → w.permits = 0) ∧
        ∀ x ∈ rest, live x.stamp window g.stamp = true := by
  rw [Absorbs, if_neg hw]

instance (now : Instant) (window : Span) :
    (cell : WindowCell) → (gs : List Grant) → Decidable (cell.Absorbs now window gs)
  | sliding _, _ => inferInstanceAs (Decidable (_ ∧ _))
  | fixed _, [] => isTrue trivial
  | fixed none, _ :: _ => inferInstanceAs (Decidable (∀ _ ∈ _, _))
  | fixed (some w), first :: rest =>
    if hw : live first.stamp window w.stamp = true then
      decidable_of_decidable_of_iff (absorbs_within hw rest).symm
    else decidable_of_decidable_of_iff (absorbs_after hw rest).symm

/-- A fixed window that counts absorbs what falls into it and nothing else. -/
theorem absorbs_fixed_of_live {w : Grant} (hw : live now window w.stamp = true)
    (hp : 0 < w.permits) (gs : List Grant) :
    (fixed (some w)).Absorbs now window gs ↔ ∀ g ∈ gs, live g.stamp window w.stamp = true := by
  cases gs with
  | nil => exact iff_of_true (absorbs_nil ..) (List.forall_mem_nil _)
  | cons first rest =>
    rw [List.forall_mem_cons]
    by_cases hfirst : live first.stamp window w.stamp = true
    · rw [absorbs_within hfirst, and_iff_right hw, and_iff_right hfirst]
    · rw [absorbs_after hfirst]
      refine iff_of_false (fun h => ?_) fun h => hfirst h.1
      rw [h.1 hw] at hp
      exact absurd hp (by decide)

/-- A list is absorbed grant by grant: each by what the earlier ones have left. -/
theorem absorbs_cons (hcell : Grant.Ordered cell.kept) (hg : live now window g.stamp = true)
    (hp : 0 < g.permits) (rest : List Grant) :
    cell.Absorbs now window (g :: rest) ↔
      cell.Absorbs now window [g] ∧
        (cell.record g.stamp window g.permits).Absorbs now window rest := by
  match cell with
  | sliding log =>
    -- what the record drops does not count at `now`, as the log absorbs `g`
    rw [absorbs_record_sliding (show Grant.Ordered log from hcell) hg]
    constructor
    · rintro ⟨hlog, hgs⟩
      obtain ⟨hfirst, hrest⟩ := List.pairwise_cons.mp hgs
      refine ⟨⟨fun e he hlive x hx => ?_, List.pairwise_singleton _ _⟩, hfirst,
        fun e he _ hlive x hx => hlog e he hlive x (List.mem_cons_of_mem _ hx), hrest⟩
      rw [List.mem_singleton.mp hx]
      exact hlog e he hlive g List.mem_cons_self
    · rintro ⟨⟨hlog, _⟩, hfirst, hold, hrest⟩
      refine ⟨fun e he hlive => ?_, List.pairwise_cons.mpr ⟨hfirst, hrest⟩⟩
      have hkept := hlog e he hlive g List.mem_cons_self
      exact List.forall_mem_cons.mpr ⟨hkept, hold e he hkept hlive⟩
  | fixed none =>
    have hstart := absorbs_fixed_of_live hg hp rest
    exact hstart.symm.trans (and_iff_right (List.forall_mem_nil _)).symm
  | fixed (some w) =>
    rw [WindowCell.record, Grant.counts_eq_live]
    by_cases hw : live g.stamp window w.stamp = true
    · rw [if_pos hw, absorbs_within hw, absorbs_within hw, and_iff_left (List.forall_mem_nil _)]
      have hpos : 0 < Count.plus w.permits g.permits := Count.plus_pos.mpr (.inr hp)
      exact and_congr_right fun hlive =>
        (absorbs_fixed_of_live (w := ⟨w.stamp, Count.plus w.permits g.permits⟩)
          hlive hpos rest).symm
    · rw [if_neg hw, absorbs_after hw, absorbs_after hw, and_iff_left (List.forall_mem_nil _)]
      exact and_congr_right fun _ => (absorbs_fixed_of_live hg hp rest).symm

/-- Grants of the past are absorbed, unless a fixed window that is over waits in the cell. -/
theorem absorbs_of_past {gs : List Grant}
    (hgs : ∀ g ∈ gs, live now window g.stamp = true ∧ g.stamp ≤ now)
    (hcell : ∀ w, cell = fixed (some w) → live now window w.stamp = true) :
    cell.Absorbs now window gs := by
  match cell, gs with
  | sliding log, gs =>
    refine ⟨fun e _ hlive g hg => live_of_reading_le (hgs g hg).2 hlive, ?_⟩
    exact List.Pairwise.imp_of_mem
      (fun he hg _ => live_of_reading_le (hgs _ hg).2 (hgs _ he).1)
      (List.pairwise_of_forall (R := fun _ _ => True) fun _ _ => trivial)
  | fixed _, [] => trivial
  | fixed none, first :: rest =>
    obtain ⟨⟨hfirst, _⟩, hrest⟩ := List.forall_mem_cons.mp hgs
    exact fun g hg => live_of_reading_le (hrest g hg).2 hfirst
  | fixed (some w), first :: rest =>
    have hw := hcell w rfl
    obtain ⟨⟨_, hfirst⟩, hrest⟩ := List.forall_mem_cons.mp hgs
    rw [absorbs_within (live_of_reading_le hfirst hw)]
    exact ⟨hw, fun g hg => live_of_reading_le (hrest g hg).2 hw⟩

/-! ### What a record adds at another reading -/

/-- A record in a log adds its permits to the grants that count at both readings. -/
theorem tally_record_log {log : List Grant} (hlog : Grant.Ordered log)
    (hg : live now window g.stamp = true) :
    let after := Grant.tally (live now window)
      ((sliding log).record g.stamp window g.permits).kept
    let before := Grant.tally (fun t => live now window t && live g.stamp window t) log
    after ≤ before + g.permits.toNat ∧
      min after 4294967295 = min (before + g.permits.toNat) 4294967295 := by
  intro after before
  have hle := Grant.tally_insert_le (q := live now window) g.stamp g.permits
    (log.dropWhile fun e => !e.counts g.stamp window)
  have hmin := Grant.min_tally_insert (q := live now window) g.stamp g.permits
    (log.dropWhile fun e => !e.counts g.stamp window)
  rw [Grant.tally_dropWhile_live hlog, if_pos hg] at hle hmin
  exact ⟨hle, hmin⟩

theorem tally_record_at_le (hcell : Grant.Ordered cell.kept)
    (hg : live now window g.stamp = true) :
    Grant.tally (live now window) (cell.record g.stamp window g.permits).kept ≤
      Grant.tally (live now window) cell.kept + g.permits.toNat := by
  match cell with
  | sliding log =>
    have hmono : Grant.tally (fun t => live now window t && live g.stamp window t) log ≤
        Grant.tally (live now window) log :=
      Grant.tally_mono (fun _ h => (Bool.and_eq_true_iff.mp h).1) log
    exact Nat.le_trans (tally_record_log hcell hg).1 (Nat.add_le_add_right hmono _)
  | fixed none =>
    simp only [WindowCell.record, kept, Grant.tally_cons, Grant.tally_nil]
    split <;> omega
  | fixed (some w) =>
    rw [WindowCell.record]
    split
    · simp only [kept, Grant.tally_cons, Grant.tally_nil, Count.toNat_plus]
      split <;> omega
    · simp only [kept, Grant.tally_cons, Grant.tally_nil]
      split <;> omega

/-- An absorbed grant adds its permits in full. -/
theorem tally_record_of_absorbs (hcell : Grant.Ordered cell.kept)
    (hg : live now window g.stamp = true) (h : cell.Absorbs now window [g]) :
    min (Grant.tally (live now window) (cell.record g.stamp window g.permits).kept) 4294967295 =
      min (Grant.tally (live now window) cell.kept + g.permits.toNat) 4294967295 := by
  match cell with
  | sliding log =>
    have hboth : Grant.tally (fun t => live now window t && live g.stamp window t) log =
        Grant.tally (live now window) log := by
      refine Grant.tally_congr fun e he => ?_
      cases hlive : live now window e.stamp with
      | false => rfl
      | true => exact h.1 e he hlive g List.mem_cons_self
    have hmin := (tally_record_log (show Grant.Ordered log from hcell) hg).2
    rw [hboth] at hmin
    exact hmin
  | fixed none => simp [WindowCell.record, kept, hg]
  | fixed (some w) =>
    rw [WindowCell.record, Grant.counts_eq_live]
    by_cases hw : live g.stamp window w.stamp = true
    · -- the window is continued, and it counts at both readings
      have hlive := ((absorbs_within hw []).mp h).1
      rw [if_pos hw]
      simp only [kept, Grant.tally_cons, Grant.tally_nil, if_pos hlive, Count.toNat_plus]
      omega
    · -- a window is started, and the one before it counts nothing
      have hempty := ((absorbs_after hw []).mp h).1
      rw [if_neg hw]
      simp only [kept, Grant.tally_cons, Grant.tally_nil, if_pos hg]
      split
      · next hlive => rw [hempty hlive, UInt32.toNat_zero]; omega
      · omega

/-- A grant that is not absorbed makes the cell lose permits. -/
theorem tally_record_of_not_absorbs {policy : WindowPolicy} (hcell : cell.Wf policy)
    (hg : live now window g.stamp = true) (hp : 0 < g.permits)
    (h : ¬ cell.Absorbs now window [g]) :
    Grant.tally (live now window) (cell.record g.stamp window g.permits).kept <
      Grant.tally (live now window) cell.kept + g.permits.toNat := by
  match cell, hcell with
  | sliding log, hcell =>
    simp only [Absorbs, List.forall_mem_singleton, List.pairwise_singleton, and_true,
      Classical.not_forall] at h
    obtain ⟨e, he, hlive, hdead⟩ := h
    -- a grant that counts at `now` is dropped at the stamp of the new one, and no grant is empty
    have hlt : Grant.tally (fun t => live now window t && live g.stamp window t) log <
        Grant.tally (live now window) log := by
      refine Grant.tally_lt (fun _ h => (Bool.and_eq_true_iff.mp h).1) he ?_ hlive ?_
      · rw [Bool.eq_false_iff.mpr hdead, Bool.and_false]
      · exact hcell.positive hcell.policy_eq.symm e he
    exact Nat.lt_of_le_of_lt (tally_record_log hcell.ordered hg).1 (Nat.add_lt_add_right hlt _)
  | fixed none, _ => exact absurd (List.forall_mem_nil _) h
  | fixed (some w), _ =>
    rw [Count.pos_iff] at hp
    rw [WindowCell.record, Grant.counts_eq_live]
    by_cases hw : live g.stamp window w.stamp = true
    · -- the window is continued, but it is over at `now`
      have hdead : ¬ live now window w.stamp = true := fun hlive =>
        h ((absorbs_within hw []).mpr ⟨hlive, List.forall_mem_nil _⟩)
      rw [if_pos hw]
      simp only [kept, Grant.tally_cons, Grant.tally_nil, if_neg hdead]
      omega
    · -- the window is given up, but it counts at `now`
      rw [absorbs_after hw, and_iff_left (List.forall_mem_nil _)] at h
      obtain ⟨hlive, hne⟩ := Classical.not_imp.mp h
      have hlost : w.permits.toNat ≠ 0 := fun hzero => hne (UInt32.toNat_inj.mp hzero)
      rw [if_neg hw]
      simp only [kept, Grant.tally_cons, Grant.tally_nil, if_pos hg, if_pos hlive]
      omega

/-! ### Replaying a list -/

/-- The cell with grants recorded one after the other, each at its own stamp. -/
def replay (window : Span) (cell : WindowCell) (gs : List Grant) : WindowCell :=
  gs.foldl (fun cell g => cell.record g.stamp window g.permits) cell

theorem replay_cons (window : Span) (cell : WindowCell) (g : Grant) (rest : List Grant) :
    cell.replay window (g :: rest) =
      (cell.record g.stamp window g.permits).replay window rest := rfl

theorem Wf.replay {policy : WindowPolicy} (hcell : cell.Wf policy) {gs : List Grant}
    (hgs : ∀ g ∈ gs, 0 < g.permits) : (cell.replay window gs).Wf policy := by
  induction gs generalizing cell with
  | nil => exact hcell
  | cons g rest ih =>
    obtain ⟨hp, hrest⟩ := List.forall_mem_cons.mp hgs
    exact ih (hcell.record hp) hrest

variable {policy : WindowPolicy} {gs : List Grant}

theorem tally_replay_le (hcell : cell.Wf policy)
    (hgs : ∀ g ∈ gs, 0 < g.permits ∧ live now window g.stamp = true) :
    Grant.tally (live now window) (cell.replay window gs).kept ≤
      Grant.tally (live now window) cell.kept + Grant.tally (fun _ => true) gs := by
  induction gs generalizing cell with
  | nil => exact Nat.le_refl _
  | cons g rest ih =>
    obtain ⟨⟨hp, hg⟩, hrest⟩ := List.forall_mem_cons.mp hgs
    have hstep := tally_record_at_le hcell.ordered hg
    have hnext : (cell.record g.stamp window g.permits).Wf policy := hcell.record hp
    have hlater := ih hnext hrest
    rw [replay_cons, Grant.tally_cons, if_pos rfl]
    omega

/-- Absorbed grants add all their permits. -/
theorem tally_replay_of_absorbs (hcell : cell.Wf policy)
    (hgs : ∀ g ∈ gs, 0 < g.permits ∧ live now window g.stamp = true)
    (h : cell.Absorbs now window gs) :
    min (Grant.tally (live now window) (cell.replay window gs).kept) 4294967295 =
      min (Grant.tally (live now window) cell.kept + Grant.tally (fun _ => true) gs)
        4294967295 := by
  induction gs generalizing cell with
  | nil => rfl
  | cons g rest ih =>
    obtain ⟨⟨hp, hg⟩, hrest⟩ := List.forall_mem_cons.mp hgs
    obtain ⟨hfirst, hlater⟩ := (absorbs_cons hcell.ordered hg hp rest).mp h
    have hstep := tally_record_of_absorbs hcell.ordered hg hfirst
    have hnext : (cell.record g.stamp window g.permits).Wf policy := hcell.record hp
    have hreplay := ih hnext hrest hlater
    rw [replay_cons, Grant.tally_cons, if_pos rfl]
    omega

/-- Grants that are not absorbed leave the cell short of permits: the first one that is refused
loses some, and no later one can make up for them. -/
theorem tally_replay_of_not_absorbs (hcell : cell.Wf policy)
    (hgs : ∀ g ∈ gs, 0 < g.permits ∧ live now window g.stamp = true)
    (h : ¬ cell.Absorbs now window gs) :
    Grant.tally (live now window) (cell.replay window gs).kept <
      Grant.tally (live now window) cell.kept + Grant.tally (fun _ => true) gs := by
  induction gs generalizing cell with
  | nil => exact absurd (absorbs_nil ..) h
  | cons g rest ih =>
    obtain ⟨⟨hp, hg⟩, hrest⟩ := List.forall_mem_cons.mp hgs
    have hnext : (cell.record g.stamp window g.permits).Wf policy := hcell.record hp
    rw [replay_cons, Grant.tally_cons, if_pos rfl]
    by_cases hfirst : cell.Absorbs now window [g]
    · have hlater : ¬ (cell.record g.stamp window g.permits).Absorbs now window rest :=
        fun hlater => h ((absorbs_cons hcell.ordered hg hp rest).mpr ⟨hfirst, hlater⟩)
      have hstep := tally_record_at_le hcell.ordered hg
      have hshort := ih hnext hrest hlater
      omega
    · have hstep := tally_record_of_not_absorbs hcell hg hp hfirst
      have hle := tally_replay_le hnext hrest
      omega

/-- The usage after a replay never goes beyond the sum, and reaches it just where the grants are
absorbed or the largest count is reached anyway. -/
theorem used_replay (hcell : cell.Wf policy)
    (hgs : ∀ g ∈ gs, 0 < g.permits ∧ live now window g.stamp = true) :
    let sum := Count.plus (cell.used now window) (Grant.total gs)
    (cell.replay window gs).used now window ≤ sum ∧
      ((cell.replay window gs).used now window = sum ↔
        cell.Absorbs now window gs ∨ (cell.replay window gs).used now window = .most) := by
  intro sum
  have hle := tally_replay_le hcell hgs
  have hsum : sum.toNat = min (Grant.tally (live now window) cell.kept +
      Grant.tally (fun _ => true) gs) 4294967295 := by
    rw [Count.toNat_plus, toNat_used, Grant.toNat_total]
    omega
  rw [UInt32.le_iff_toNat_le, ← UInt32.toNat_inj, ← UInt32.toNat_inj, Count.toNat_most, hsum,
    toNat_used]
  refine ⟨by omega, ?_⟩
  by_cases h : cell.Absorbs now window gs
  · exact iff_of_true (tally_replay_of_absorbs hcell hgs h) (.inl h)
  · have hlt := tally_replay_of_not_absorbs hcell hgs h
    rw [or_iff_right h]
    omega

end WindowCell

namespace Store

/-! ## The cells after an import -/

variable {s : Store} {now : Instant}

@[simp] theorem policy_addCell (s : Store) (now : Instant) (c : CellGrants) :
    (s.addCell now c).policy = s.policy := by
  unfold addCell
  split <;> rfl

theorem cell_addCell (s : Store) (now : Instant) (c : CellGrants) (key : CellKey) :
    (s.addCell now c).cell key =
      if c.key = key then (s.cell key).replay key.window (c.live now) else s.cell key := by
  unfold addCell
  split
  · next hlive =>
    rw [hlive, ite_eq_right_iff.mpr]
    exact fun _ => rfl
  · rw [cell_update_create s (List.pairwise_singleton _ _)]
    simp only [List.mem_singleton, eq_comm]
    rfl

theorem policy_foldl_addCell (s : Store) (now : Instant) (cs : List CellGrants) :
    (cs.foldl (fun s c => s.addCell now c) s).policy = s.policy := by
  induction cs generalizing s with
  | nil => rfl
  | cons c rest ih => rw [List.foldl_cons, ih, policy_addCell]

/-- The cells of a history that share a key are replayed one after the other. -/
theorem cell_foldl_addCell (s : Store) (now : Instant) (cs : List CellGrants) (key : CellKey) :
    (cs.foldl (fun s c => s.addCell now c) s).cell key =
      (s.cell key).replay key.window
        (cs.flatMap fun c => if c.key = key then c.live now else []) := by
  -- the store changes from cell to cell, so the induction is for every store
  induction cs generalizing s with
  | nil => rfl
  | cons c rest ih =>
    rw [List.foldl_cons, ih, cell_addCell, List.flatMap_cons]
    split
    · exact List.foldl_append.symm
    · rw [List.nil_append]

/-- An import of a history of the same policy replays into every cell the grants that count. -/
theorem exists_addHistory {h : GrantHistory} (hpolicy : h.policy = s.policy) (now : Instant) :
    ∃ after, s.addHistory? h now = some (after, (h.entriesAt now).length) ∧
      after.policy = s.policy ∧
      ∀ key, after.cell key = (s.cell key).replay key.window (h.grantsAt now key) := by
  refine ⟨h.cells.foldl (fun s c => s.addCell now c) s, ?_, policy_foldl_addCell s now h.cells,
    fun key => ?_⟩
  · unfold addHistory?
    rw [if_pos hpolicy, GrantHistory.entriesAt_eq, List.length_flatMap, List.length_flatMap]
    simp only [List.length_map]
  · rw [cell_foldl_addCell, GrantHistory.grantsAt_eq]

/-- An import is exact where every grant is past and no fixed window that is over waits in a
cell, as in a store that has counted nothing. -/
theorem used_addHistory_of_past (hs : s.Wf) {h : GrantHistory} (hpolicy : h.policy = s.policy)
    (hpast : ∀ key, ∀ g ∈ h.grantsAt now key, g.stamp ≤ now)
    (hcells : ∀ key w, s.cell key = .fixed (some w) → live now key.window w.stamp = true) :
    ∃ after, s.addHistory? h now = some (after, (h.entriesAt now).length) ∧
      ∀ key, after.used now key =
        Count.plus (s.used now key) (Grant.total (h.grantsAt now key)) := by
  obtain ⟨after, hadd, _, hcell⟩ := exists_addHistory hpolicy now
  refine ⟨after, hadd, fun key => ?_⟩
  have habsorbs : (s.cell key).Absorbs now key.window (h.grantsAt now key) :=
    WindowCell.absorbs_of_past
      (fun g hg => ⟨(GrantHistory.mem_grantsAt hg).2, hpast key g hg⟩) (hcells key)
  rw [used_eq, used_eq, hcell]
  exact (WindowCell.used_replay (hs key) fun g hg =>
    GrantHistory.mem_grantsAt hg).2.mpr (.inl habsorbs)

theorem Wf.addHistory (hs : s.Wf) {h : GrantHistory} {after : Store} {count : Nat}
    (hadd : s.addHistory? h now = some (after, count)) :
    after.policy = s.policy ∧ after.Wf := by
  have hpolicy : h.policy = s.policy := by
    unfold addHistory? at hadd
    split at hadd
    · assumption
    · exact absurd hadd (by simp)
  obtain ⟨after', hadd', hafter, hcell⟩ := exists_addHistory hpolicy now
  rw [hadd', Option.some.injEq, Prod.mk.injEq] at hadd
  obtain ⟨rfl, _⟩ := hadd
  refine ⟨hafter, fun key => ?_⟩
  rw [hcell, hafter]
  exact (hs key).replay fun g hg => (GrantHistory.mem_grantsAt hg).1

/-! ## Reachable stores -/

/-- The stores of a policy that requests, returns, sweeps and imports lead to, under any rules and
at any readings of the clock. -/
inductive Reachable (policy : WindowPolicy) : Store → Prop where
  | empty : Reachable policy (.empty policy)
  | acquire {ω : Type} {s : Store} (rules : List (Rule ω)) (op : ω) (n : Count) (partly : Bool)
      (now : Instant) : Reachable policy s → Reachable policy (s.acquire rules op n partly now).1
  | giveBack {ω : Type} {s : Store} (rules : List (Rule ω)) (op : ω) (n : Count) (now : Instant) :
      Reachable policy s → Reachable policy (s.giveBack rules op n now)
  | sweep {s : Store} (now : Instant) : Reachable policy s → Reachable policy (s.sweep now)
  | addHistory {s after : Store} {count : Nat} (h : GrantHistory) (now : Instant) :
      s.addHistory? h now = some (after, count) → Reachable policy s → Reachable policy after

theorem Reachable.wf {policy : WindowPolicy} (h : s.Reachable policy) :
    s.policy = policy ∧ s.Wf := by
  induction h with
  | empty => exact ⟨rfl, wf_empty policy⟩
  | acquire rules op n partly now _ ih =>
    exact ⟨policy_acquire.trans ih.1, ih.2.acquire rules op n partly now⟩
  | giveBack rules op n now _ ih =>
    exact ⟨policy_giveBack.trans ih.1, ih.2.giveBack rules op n now⟩
  | sweep now _ ih => exact ⟨ih.1, ih.2.sweep now⟩
  | addHistory h now hadd _ ih =>
    obtain ⟨hpolicy, hafter⟩ := ih.2.addHistory hadd
    exact ⟨hpolicy.trans ih.1, hafter⟩

/-- Three permits taken at once, all that `threeASecond` allows. -/
def usedUp (policy : WindowPolicy) : Store :=
  ((empty policy).acquire threeASecond () 3 false ⟨0⟩).1

/-- The cell in which `threeASecond` counts. -/
def apiCell : CellKey := ⟨"api", "global", .whole, .seconds 1⟩

/-- A history of two permits in that cell. -/
def twoPermits (policy : WindowPolicy) (stamp : Instant) : GrantHistory :=
  ⟨policy, [⟨"api", "global", none, .seconds 1, [⟨stamp, 2⟩]⟩]⟩

theorem cell_usedUp (policy : WindowPolicy) :
    (usedUp policy).cell apiCell = (WindowCell.empty policy).record ⟨0⟩ (.seconds 1) 3 := by
  have hgranted : (empty policy).granted threeASecond () 3 false ⟨0⟩ = 3 := by
    cases policy <;> decide
  have hkey : apiCell ∈ implicated threeASecond () := by decide
  unfold usedUp
  rw [cell_acquire, hgranted, if_pos ⟨hkey, by decide⟩, cell_empty]
  rfl

theorem reachable_usedUp (policy : WindowPolicy) : (usedUp policy).Reachable policy :=
  .acquire threeASecond () 3 false ⟨0⟩ .empty

/-- **What an import adds.** A history of the same policy is taken in and the answer is the number
of its grants that count.  No cell counts more than its own usage and these grants together, and
it counts exactly that just where it absorbs them or where the largest count is reached.  A history
of the other policy is refused. -/
theorem addHistory_on_top_iff_absorbs {policy : WindowPolicy} (hs : s.Reachable policy)
    (h : GrantHistory) (now : Instant) :
    (h.policy = policy → ∃ after,
      s.addHistory? h now = some (after, (h.entriesAt now).length) ∧
      ∀ key : CellKey,
        let sum := Count.plus (s.used now key) (Grant.total (h.grantsAt now key))
        after.used now key ≤ sum ∧
          (after.used now key = sum ↔
            (s.cell key).Absorbs now key.window (h.grantsAt now key) ∨
              after.used now key = .most)) ∧
    (h.policy ≠ policy → s.addHistory? h now = none) := by
  obtain ⟨rfl, hwf⟩ := hs.wf
  refine ⟨fun hpolicy => ?_, fun hpolicy => if_neg hpolicy⟩
  obtain ⟨after, hadd, _, hcell⟩ := exists_addHistory hpolicy now
  refine ⟨after, hadd, fun key => ?_⟩
  rw [used_eq, used_eq, hcell]
  exact WindowCell.used_replay (hwf key) fun g hg => GrantHistory.mem_grantsAt hg

/-- A log takes two permits on top once the three before them have stopped counting. -/
theorem addHistory_on_top_of_usedUp :
    (usedUp .sliding).Reachable .sliding ∧
      ∃ after, (usedUp .sliding).addHistory? (twoPermits .sliding ⟨900000000⟩) ⟨1500000000⟩ =
        some (after, 1) ∧ after.used ⟨1500000000⟩ apiCell = 2 := by
  refine ⟨reachable_usedUp .sliding, ?_⟩
  obtain ⟨after, hadd, hused⟩ := (addHistory_on_top_iff_absorbs (reachable_usedUp .sliding)
    (twoPermits .sliding ⟨900000000⟩) ⟨1500000000⟩).1 rfl
  refine ⟨after, hadd, ?_⟩
  have habsorbs : ((usedUp .sliding).cell apiCell).Absorbs ⟨1500000000⟩ (.seconds 1)
      ((twoPermits .sliding ⟨900000000⟩).grantsAt ⟨1500000000⟩ apiCell) := by
    rw [cell_usedUp]
    decide
  rw [((hused apiCell).2).mpr (.inl habsorbs), used_eq, cell_usedUp]
  decide

/-- A fixed window that is over at the import but not yet at the stamp of the grant swallows the
grant; a grant of the future drops what a log counts at the import. -/
theorem addHistory_loses_permits :
    (∃ after, (usedUp .fixed).addHistory? (twoPermits .fixed ⟨900000000⟩) ⟨1500000000⟩ =
        some (after, 1) ∧
      (usedUp .fixed).used ⟨1500000000⟩ apiCell = 0 ∧ after.used ⟨1500000000⟩ apiCell = 0) ∧
    (∃ after, (usedUp .sliding).addHistory? (twoPermits .sliding ⟨60000000000⟩) ⟨0⟩ =
        some (after, 1) ∧
      (usedUp .sliding).used ⟨0⟩ apiCell = 3 ∧ after.used ⟨0⟩ apiCell = 2) := by
  constructor
  · obtain ⟨after, hadd, _, hcell⟩ := exists_addHistory (s := usedUp .fixed)
      (h := twoPermits .fixed ⟨900000000⟩) rfl ⟨1500000000⟩
    refine ⟨after, hadd, ?_⟩
    rw [used_eq, used_eq, hcell, cell_usedUp]
    decide
  · obtain ⟨after, hadd, _, hcell⟩ := exists_addHistory (s := usedUp .sliding)
      (h := twoPermits .sliding ⟨60000000000⟩) rfl ⟨0⟩
    refine ⟨after, hadd, ?_⟩
    rw [used_eq, used_eq, hcell, cell_usedUp]
    decide

end Store

end Admission
