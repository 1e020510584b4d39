import Admission.Proofs.Ceiling
import Admission.Proofs.Present

/-!
# The windows of a fixed limiter

Under the fixed policy the grants of a group fall into windows.  Nothing anchors the windows but
the grants themselves: one that finds no open window starts a new one, and a sweep may drop the
cell in between.

* `GrantWindow`, `Splits` — a list of grants cut into windows: each grant is made less than one
  window after the first of its own, the first ones are at least one window apart, and no window
  holds more than the permits of the rate.
* `Anchored` — how a cell remembers the last of the windows: an open one by its start and its
  count, and nothing at all once it is over.  Recording keeps it (`Anchored.record`), and so does
  a sweep (`Anchored.sweep`), as an open window is never empty where nothing is given back.
* `fixed_grants_split` — hence the grants that a run makes to a group split into windows, and no
  interval of one window holds more than twice the permits.
-/

namespace Admission

/-! ## Lists of grants in windows -/

/-- The grant that starts a window and those that fall into it. -/
structure GrantWindow where
  first : Grant
  later : List Grant

namespace GrantWindow

def grants (w : GrantWindow) : List Grant := w.first :: w.later

/-- One window starts when the other is over, or later. -/
def Before (window : Span) (a b : GrantWindow) : Prop :=
  a.first.stamp.plus window ≤ b.first.stamp

/-- All grants are made less than one window after the first, and together are within the
permits. -/
structure Within (window : Span) (permits : Count) (w : GrantWindow) : Prop where
  inside : ∀ g ∈ w.later, w.first.stamp ≤ g.stamp ∧ g.stamp < w.first.stamp.plus window
  total_le : Grant.tally (fun _ => true) w.grants ≤ permits.toNat

variable {window : Span} {permits : Count} {w : GrantWindow}

theorem Within.bounds (h : w.Within window permits) (hw : 0 < window.nanos) {g : Grant}
    (hg : g ∈ w.grants) :
    w.first.stamp ≤ g.stamp ∧ g.stamp < w.first.stamp.plus window := by
  rcases List.mem_cons.mp hg with rfl | hg
  · refine ⟨Int.le_refl _, ?_⟩
    simp only [Instant.lt_iff_nanos, Instant.plus]
    omega
  · exact h.inside g hg

theorem Within.tally_le (h : w.Within window permits) (q : Instant → Bool) :
    Grant.tally q w.grants ≤ permits.toNat :=
  Nat.le_trans (Grant.tally_mono (fun _ _ => rfl) _) h.total_le

end GrantWindow

/-- A list of grants is cut into windows of a rate, in order. -/
structure Splits (window : Span) (permits : Count) (windows : List GrantWindow)
    (grants : List Grant) : Prop where
  grants_eq : windows.flatMap GrantWindow.grants = grants
  spaced : windows.Pairwise (GrantWindow.Before window)
  within : ∀ w ∈ windows, w.Within window permits

namespace Splits

variable {window : Span} {permits : Count} {windows : List GrantWindow} {grants : List Grant}

theorem nil (window : Span) (permits : Count) : Splits window permits [] [] where
  grants_eq := rfl
  spaced := List.Pairwise.nil
  within := fun _ hw => absurd hw List.not_mem_nil

theorem tail {w : GrantWindow} {rest : List GrantWindow}
    (h : Splits window permits (w :: rest) grants) :
    Splits window permits rest (rest.flatMap GrantWindow.grants) where
  grants_eq := rfl
  spaced := h.spaced.of_cons
  within := fun x hx => h.within x (List.mem_cons_of_mem _ hx)

/-- A grant that comes when all windows are over starts a new one. -/
theorem start (h : Splits window permits windows grants) {g : Grant}
    (hover : ∀ w ∈ windows, w.first.stamp.plus window ≤ g.stamp)
    (hle : g.permits.toNat ≤ permits.toNat) :
    Splits window permits (windows ++ [⟨g, []⟩]) (grants ++ [g]) where
  grants_eq := by
    rw [List.flatMap_append, h.grants_eq]
    rfl
  spaced := by
    refine List.pairwise_append.mpr ⟨h.spaced, List.pairwise_singleton _ _, ?_⟩
    intro a ha b hb
    rw [List.mem_singleton.mp hb]
    exact hover a ha
  within := by
    intro w hw
    rcases List.mem_append.mp hw with hw | hw
    · exact h.within w hw
    · rw [List.mem_singleton.mp hw]
      refine ⟨fun _ hx => absurd hx List.not_mem_nil, ?_⟩
      simpa [GrantWindow.grants] using hle

/-- A grant that comes while the last window is open joins it. -/
theorem join {init : List GrantWindow} {w : GrantWindow}
    (h : Splits window permits (init ++ [w]) grants) {g : Grant}
    (hafter : w.first.stamp ≤ g.stamp) (hopen : g.stamp < w.first.stamp.plus window)
    (hle : Grant.tally (fun _ => true) w.grants + g.permits.toNat ≤ permits.toNat) :
    Splits window permits (init ++ [⟨w.first, w.later ++ [g]⟩]) (grants ++ [g]) where
  grants_eq := by
    rw [← h.grants_eq]
    simp [GrantWindow.grants]
  spaced := by
    -- the windows are apart by their first grants, and these do not change
    obtain ⟨hinit, _, hlast⟩ := List.pairwise_append.mp h.spaced
    refine List.pairwise_append.mpr ⟨hinit, List.pairwise_singleton _ _, ?_⟩
    intro a ha b hb
    rw [List.mem_singleton.mp hb]
    exact hlast a ha w List.mem_cons_self
  within := by
    have hold := h.within w (List.mem_append_right _ List.mem_cons_self)
    intro x hx
    rcases List.mem_append.mp hx with hx | hx
    · exact h.within x (List.mem_append_left _ hx)
    · rw [List.mem_singleton.mp hx]
      refine ⟨fun y hy => ?_, ?_⟩
      · rcases List.mem_append.mp hy with hy | hy
        · exact hold.inside y hy
        · rw [List.mem_singleton.mp hy]
          exact ⟨hafter, hopen⟩
      · show Grant.tally _ (w.grants ++ [g]) ≤ _
        rw [Grant.tally_append]
        simpa using hle

/-! ### Intervals of one window -/

/-- Windows that start when an interval is over hold nothing of it. -/
theorem tally_of_after (h : Splits window permits windows grants) (hw : 0 < window.nanos)
    {start : Instant} (hafter : ∀ w ∈ windows, start.plus window ≤ w.first.stamp) :
    Grant.tally (start.inWindow window) grants = 0 := by
  rw [← h.grants_eq]
  refine Grant.tally_eq_zero fun g hg => ?_
  obtain ⟨w, hmem, hg⟩ := List.mem_flatMap.mp hg
  have hlow := ((h.within w hmem).bounds hw hg).1
  have hstart := hafter w hmem
  rw [Bool.eq_false_iff, Ne, Instant.inWindow_iff]
  simp only [Instant.le_iff_nanos, Instant.plus] at hlow hstart
  omega

/-- Of windows that start within an interval or later, only the first can hold some of it. -/
theorem tally_le_of_from (h : Splits window permits windows grants) (hw : 0 < window.nanos)
    {start : Instant} (hfrom : ∀ w ∈ windows, start ≤ w.first.stamp) :
    Grant.tally (start.inWindow window) grants ≤ permits.toNat := by
  cases windows with
  | nil =>
    rw [← h.grants_eq]
    exact Nat.zero_le _
  | cons w rest =>
    have hrest : Grant.tally (start.inWindow window) (rest.flatMap GrantWindow.grants) = 0 := by
      refine h.tail.tally_of_after hw fun b hb => ?_
      have hstart := hfrom w List.mem_cons_self
      have hbefore : w.first.stamp.plus window ≤ b.first.stamp :=
        (List.pairwise_cons.mp h.spaced).1 b hb
      exact Int.le_trans (Instant.plus_mono hstart window) hbefore
    have hfirst := (h.within w List.mem_cons_self).tally_le (start.inWindow window)
    rw [← h.grants_eq, List.flatMap_cons, Grant.tally_append, hrest]
    omega

/-- An interval of one window meets at most two windows. -/
theorem tally_inWindow_le (h : Splits window permits windows grants) (hw : 0 < window.nanos)
    (start : Instant) :
    Grant.tally (start.inWindow window) grants ≤ 2 * permits.toNat := by
  induction windows generalizing grants with
  | nil =>
    rw [← h.grants_eq]
    exact Nat.zero_le _
  | cons w rest ih =>
    rw [← h.grants_eq, List.flatMap_cons, Grant.tally_append]
    by_cases hover : w.first.stamp.plus window ≤ start
    · -- the first window is over when the interval begins
      have hnone : Grant.tally (start.inWindow window) w.grants = 0 := by
        refine Grant.tally_eq_zero fun g hg => ?_
        have hhigh := ((h.within w List.mem_cons_self).bounds hw hg).2
        rw [Bool.eq_false_iff, Ne, Instant.inWindow_iff]
        simp only [Instant.le_iff_nanos, Instant.lt_iff_nanos, Instant.plus] at hover hhigh
        omega
      have hrest := ih h.tail
      omega
    · -- all others start after the interval has begun
      have hfrom : ∀ b ∈ rest, start ≤ b.first.stamp := by
        intro b hb
        have hbefore : w.first.stamp.plus window ≤ b.first.stamp :=
          (List.pairwise_cons.mp h.spaced).1 b hb
        exact Int.le_trans (Int.le_of_lt (Int.not_le.mp hover)) hbefore
      have hfirst := (h.within w List.mem_cons_self).tally_le (start.inWindow window)
      have hrest := h.tail.tally_le_of_from hw hfrom
      omega

end Splits

/-! ## What a cell remembers of the windows -/

/-- A fixed cell at a reading and the windows it has counted.  If one of them is open, it is the
last one, and the cell knows its start and its count; else all of them are over. -/
inductive Anchored (window : Span) (last : Instant) (cell : WindowCell) :
    List GrantWindow → Prop where
  | closed {windows : List GrantWindow} (hpresent : cell.present last window = [])
      (hover : ∀ w ∈ windows, w.first.stamp.plus window ≤ last) : Anchored window last cell windows
  | opened {init : List GrantWindow} {w : GrantWindow} {g : Grant}
      (hpresent : cell.present last window = [g]) (hstart : w.first.stamp = g.stamp)
      (hpast : g.stamp ≤ last) (hcount : Grant.tally (fun _ => true) w.grants = g.permits.toNat)
      (hpositive : 0 < g.permits) (hinit : ∀ x ∈ init, x.first.stamp.plus window ≤ g.stamp) :
      Anchored window last cell (init ++ [w])

namespace Anchored

variable {window : Span} {last now : Instant} {cell : WindowCell} {windows : List GrantWindow}

theorem empty (window : Span) (last : Instant) (policy : WindowPolicy) :
    Anchored window last (.empty policy) [] :=
  .closed (WindowCell.present_empty policy) fun _ hw => absurd hw List.not_mem_nil

/-- Time closes an open window. -/
theorem mono (h : Anchored window last cell windows) (hle : last ≤ now)
    (hw : 0 < window.nanos) : Anchored window now cell windows := by
  have hpresent := WindowCell.present_of_reading_le hle window cell
  cases h with
  | closed hnone hover =>
    rw [hnone] at hpresent
    exact .closed hpresent fun w hmem => Int.le_trans (hover w hmem) hle
  | @opened init w g hone hstart hpast hcount hpositive hinit =>
    rw [hone] at hpresent
    by_cases hopen : g.counts now window = true
    · refine .opened ?_ hstart (Int.le_trans hpast hle) hcount hpositive hinit
      rw [hpresent]
      simp [hopen]
    · have hend : g.stamp.plus window ≤ now := by
        rw [Grant.counts_eq_live, live_iff] at hopen
        simp only [Instant.le_iff_nanos, Instant.plus]
        omega
      refine .closed ?_ fun x hx => ?_
      · rw [hpresent]
        simp [hopen]
      · rcases List.mem_append.mp hx with hx | hx
        · exact Int.le_trans (hinit x hx) (Int.le_trans (Instant.le_plus g.stamp window) hend)
        · rw [List.mem_singleton.mp hx, hstart]
          exact hend

variable {permits p : Count} {grants : List Grant}

/-- A record when all windows are over starts the next one. -/
theorem record_closed {current : Option Grant} (hw : 0 < window.nanos)
    (hnone : (WindowCell.fixed current).present now window = [])
    (hover : ∀ w ∈ windows, w.first.stamp.plus window ≤ now)
    (hsplits : Splits window permits windows grants) (hp : 0 < p)
    (hle : p.toNat ≤ permits.toNat) :
    Anchored window now ((WindowCell.fixed current).record now window p)
        (windows ++ [⟨⟨now, p⟩, []⟩]) ∧
      Splits window permits (windows ++ [⟨⟨now, p⟩, []⟩]) (grants ++ [⟨now, p⟩]) := by
  refine ⟨.opened ?_ rfl (Int.le_refl _) ?_ hp hover, hsplits.start hover hle⟩
  · have hlive : Grant.counts now window ⟨now, p⟩ = true := live_self hw now
    rw [WindowCell.record_fixed, hnone]
    simp [WindowCell.present, WindowCell.kept, hlive]
  · simp [GrantWindow.grants]

/-- A record while a window is open goes on with it. -/
theorem record_opened {current : Option Grant} {init : List GrantWindow} {w : GrantWindow}
    {g : Grant} (hone : (WindowCell.fixed current).present now window = [g])
    (hstart : w.first.stamp = g.stamp) (hpast : g.stamp ≤ now)
    (hcount : Grant.tally (fun _ => true) w.grants = g.permits.toNat)
    (hinit : ∀ x ∈ init, x.first.stamp.plus window ≤ g.stamp)
    (hsplits : Splits window permits (init ++ [w]) grants) (hp : 0 < p)
    (hle : g.permits.toNat + p.toNat ≤ permits.toNat) :
    Anchored window now ((WindowCell.fixed current).record now window p)
        (init ++ [⟨w.first, w.later ++ [⟨now, p⟩]⟩]) ∧
      Splits window permits (init ++ [⟨w.first, w.later ++ [⟨now, p⟩]⟩])
        (grants ++ [⟨now, p⟩]) := by
  have hopen : g.counts now window = true := by
    have hmem : g ∈ (WindowCell.fixed current).present now window := by
      rw [hone]
      exact List.mem_cons_self
    exact WindowCell.counts_of_mem_present hmem
  have hplus : (Count.plus g.permits p).toNat = g.permits.toNat + p.toNat := by
    have := Count.toNat_le_most permits
    rw [Count.toNat_plus]
    omega
  constructor
  · refine .opened (g := ⟨g.stamp, Count.plus g.permits p⟩) ?_ hstart hpast ?_
      (Count.plus_pos.mpr (.inr hp)) hinit
    · have hlive : Grant.counts now window ⟨g.stamp, Count.plus g.permits p⟩ = true := hopen
      rw [WindowCell.record_fixed, hone]
      simp [WindowCell.present, WindowCell.kept, hlive]
    · show Grant.tally _ (w.grants ++ [_]) = _
      rw [Grant.tally_append, hcount]
      simp [hplus]
  · refine hsplits.join ?_ ?_ ?_
    · rw [hstart]
      exact hpast
    · rw [Grant.counts_eq_live, live_iff] at hopen
      simp only [hstart, Instant.lt_iff_nanos, Instant.plus]
      omega
    · rw [hcount]
      exact hle

/-- A record within the permits goes on with the open window or starts the next one. -/
theorem record (h : Anchored window now cell windows) (hpolicy : cell.policy = .fixed)
    (hw : 0 < window.nanos) (hsplits : Splits window permits windows grants) (hp : 0 < p)
    (hle : Grant.tally (live now window) cell.kept + p.toNat ≤ permits.toNat) :
    ∃ windows, Anchored window now (cell.record now window p) windows ∧
      Splits window permits windows (grants ++ [⟨now, p⟩]) := by
  cases cell with
  | sliding log => exact absurd hpolicy (by simp [WindowCell.policy])
  | fixed current =>
    cases h with
    | closed hnone hover =>
      exact ⟨_, record_closed hw hnone hover hsplits hp
        (Nat.le_trans (Nat.le_add_left _ _) hle)⟩
    | @opened init w g hone hstart hpast hcount hpositive hinit =>
      have hcounted : Grant.tally (live now window) (WindowCell.fixed current).kept =
          Grant.tally (fun _ => true) ((WindowCell.fixed current).present now window) :=
        (Grant.tally_filter_counts now window _).symm
      rw [hcounted, hone, Grant.tally_cons, Grant.tally_nil, if_pos rfl] at hle
      exact ⟨_, record_opened hone hstart hpast hcount hinit hsplits hp hle⟩

/-- A sweep drops no open window, as there is a permit in it. -/
theorem sweep (h : Anchored window now cell windows) (policy : WindowPolicy) :
    Anchored window now (if cell.isDrained now window then .empty policy else cell) windows := by
  split
  · next hdrained =>
    have hsettled : ∀ g ∈ cell.present now window, 0 < g.permits := by
      intro x hx
      cases h with
      | closed hnone hover =>
        rw [hnone] at hx
        exact absurd hx List.not_mem_nil
      | opened hone hstart hpast hcount hpositive hinit =>
        rw [hone] at hx
        rw [List.mem_singleton.mp hx]
        exact hpositive
    have hempty := WindowCell.present_of_isDrained hdrained hsettled
    cases h with
    | closed hnone hover => exact .closed (WindowCell.present_empty policy) hover
    | opened hone hstart hpast hcount hpositive hinit =>
      rw [hempty] at hone
      cases hone
  · exact h

end Anchored

/-! ## The grants of a run -/

variable {ω : Type}

/-- The grant that an answer makes to an operation that meets `p`, if it grants anything. -/
def grantTo? (p : ω → Bool) : (Instant × Call ω) × Answer → Option Grant
  | ((now, .request op _ _), .permits answer) =>
    if p op && 0 < answer.granted then some ⟨now, answer.granted⟩ else none
  | _ => none

/-- The grants that a run makes to the operations that meet `p`, in order. -/
def grantsTo (p : ω → Bool) (trace : List ((Instant × Call ω) × Answer)) : List Grant :=
  trace.filterMap (grantTo? p)

theorem grantsTo_append_singleton (p : ω → Bool) (trace : List ((Instant × Call ω) × Answer))
    (x : (Instant × Call ω) × Answer) :
    grantsTo p (trace ++ [x]) = grantsTo p trace ++ (grantTo? p x).toList := by
  unfold grantsTo
  rw [List.filterMap_append]
  cases h : grantTo? p x <;> simp [h]

theorem grantsTo_append_of_none {p : ω → Bool} (trace : List ((Instant × Call ω) × Answer))
    {x : (Instant × Call ω) × Answer} (hx : grantTo? p x = none) :
    grantsTo p (trace ++ [x]) = grantsTo p trace := by
  rw [grantsTo_append_singleton, hx, Option.toList_none, List.append_nil]

/-- A call that gives nothing back. -/
def Call.Keeps (c : Call ω) : Prop := ∀ op n, c ≠ .giveBack op n

/-- A limiter on the rules of a list under the fixed policy, and the windows in which it has
granted permits to one group so far. -/
structure GrantsInWindows (rules : List (Rule ω)) (r : Rule ω) (g : Grouping ω)
    (rate : BurstRate) (group : GroupKey) (last : Instant) (l : Limiter ω)
    (trace : List ((Instant × Call ω) × Answer)) : Prop where
  rules_eq : l.rules = rules
  policy : l.store.policy = .fixed
  wf : l.store.Wf
  windows : ∃ windows,
    Anchored rate.window last (l.store.cell (rateKey r g group rate)) windows ∧
      Splits rate.window rate.permits windows (grantsTo (inGroup r g group) trace)

namespace GrantsInWindows

variable {rules : List (Rule ω)} {r : Rule ω} {g : Grouping ω} {rate : BurstRate}
  {group : GroupKey} {last now : Instant} {l : Limiter ω}
  {trace : List ((Instant × Call ω) × Answer)}

theorem new (rules : List (Rule ω)) (r : Rule ω) (g : Grouping ω) (rate : BurstRate)
    (group : GroupKey) (last : Instant) :
    GrantsInWindows rules r g rate group last (.new rules .fixed) [] where
  rules_eq := rfl
  policy := rfl
  wf := Store.wf_empty .fixed
  windows := by
    refine ⟨[], ?_, Splits.nil _ _⟩
    show Anchored _ _ ((Store.empty .fixed).cell _) _
    rw [Store.cell_empty]
    exact Anchored.empty rate.window last .fixed

theorem request (hnames : DistinctNames rules) (hr : r ∈ rules) (hg : g ∈ r.groupings)
    (hrate : rate ∈ g.rates) (h : GrantsInWindows rules r g rate group now l trace)
    (op : ω) (n : Count) (partly : Bool) :
    GrantsInWindows rules r g rate group now (l.request op n partly now).1
      (trace ++ [((now, .request op n partly), .permits (l.request op n partly now).2)]) := by
  obtain ⟨rules', store⟩ := l
  obtain ⟨rfl, hpolicy, hwf, windows, hanchored, hsplits⟩ := h
  refine ⟨rfl, Store.policy_acquire.trans hpolicy, hwf.acquire rules' op n partly now, ?_⟩
  have hgrant : grantTo? (inGroup r g group)
      ((now, .request op n partly), .permits (Limiter.request ⟨rules', store⟩ op n partly now).2) =
      if rateKey r g group rate ∈ implicated rules' op ∧
          0 < store.granted rules' op n partly now then
        some ⟨now, store.granted rules' op n partly now⟩ else none := by
    simp only [grantTo?, Limiter.granted_request, Bool.and_eq_true, decide_eq_true_eq,
      hnames.mem_implicated_iff hr hg hrate]
  rw [grantsTo_append_singleton, hgrant]
  show ∃ windows, Anchored rate.window now
    ((store.acquire rules' op n partly now).1.cell (rateKey r g group rate)) windows ∧ _
  rw [Store.cell_acquire]
  by_cases hcommit : rateKey r g group rate ∈ implicated rules' op ∧
      0 < store.granted rules' op n partly now
  · rw [if_pos hcommit, if_pos hcommit]
    exact hanchored.record ((hwf _).policy_eq.trans hpolicy) rate.window_pos hsplits hcommit.2
      (hnames.counted_add_granted_le hr hg hrate hcommit.1 hcommit.2)
  · rw [if_neg hcommit, if_neg hcommit, Option.toList_none, List.append_nil]
    exact ⟨windows, hanchored, hsplits⟩

/-- A call that gives nothing back keeps the windows. -/
theorem step (hnames : DistinctNames rules) (hr : r ∈ rules) (hg : g ∈ r.groupings)
    (hrate : rate ∈ g.rates) (h : GrantsInWindows rules r g rate group last l trace)
    (e : Instant × Call ω) (hle : last ≤ e.1) (hkeeps : e.2.Keeps) :
    GrantsInWindows rules r g rate group e.1 (l.step e).1 (trace ++ [(e, (l.step e).2)]) := by
  obtain ⟨now, c⟩ := e
  obtain ⟨windows, hanchored, hsplits⟩ := h.windows
  have hanchored : Anchored rate.window now _ windows := hanchored.mono hle rate.window_pos
  have hnow : GrantsInWindows rules r g rate group now l trace :=
    ⟨h.rules_eq, h.policy, h.wf, windows, hanchored, hsplits⟩
  cases c with
  | request op n partly => exact hnow.request hnames hr hg hrate op n partly
  | giveBack op n => exact absurd rfl (hkeeps op n)
  | available op =>
    refine ⟨h.rules_eq, h.policy, h.wf, windows, hanchored, ?_⟩
    rw [grantsTo_append_of_none trace rfl]
    exact hsplits
  | sweep =>
    refine ⟨h.rules_eq, h.policy, h.wf.sweep now, windows, ?_, ?_⟩
    · show Anchored _ _ ((l.store.sweep now).cell _) _
      rw [Store.cell_sweep]
      exact hanchored.sweep l.store.policy
    · rw [grantsTo_append_of_none trace rfl]
      exact hsplits

end GrantsInWindows

/-- **The fixed guarantee.** On rules with distinct names and under a clock that never goes back,
a fixed limiter to which nothing is given back grants permits to each group in windows: each starts
with a grant that is made when the one before is over, and holds at most the permits of the rate.
No half-open interval of one window holds more than twice the permits. -/
theorem fixed_grants_split {rules : List (Rule ω)} (hnames : DistinctNames rules)
    {calls : List (Instant × Call ω)} (hclock : Chronological calls)
    (hkeeps : ∀ e ∈ calls, e.2.Keeps) {r : Rule ω} (hr : r ∈ rules) {g : Grouping ω}
    (hg : g ∈ r.groupings) {rate : BurstRate} (hrate : rate ∈ g.rates) (group : GroupKey) :
    let grants := grantsTo (inGroup r g group)
      (calls.zip (run Limiter.step (.new rules .fixed) calls).2)
    (∃ windows, Splits rate.window rate.permits windows grants) ∧
      ∀ start : Instant,
        Grant.tally (start.inWindow rate.window) grants ≤ 2 * rate.permits.toNat := by
  intro grants
  -- along the run, the windows are kept as long as nothing has been given back
  obtain ⟨last, hlast⟩ := run_trace
    (P := fun last l trace => (∀ x ∈ trace, x.1.2.Keeps) →
      GrantsInWindows rules r g rate group last l trace)
    (fun last l trace e h hle hall =>
      (h fun x hx => hall x (List.mem_append_left _ hx)).step hnames hr hg hrate e hle
        (hall (e, _) (List.mem_append_right _ List.mem_cons_self)))
    (fun last _ => GrantsInWindows.new rules r g rate group last) hclock
  have hrun := hlast fun x hx => hkeeps x.1 (List.of_mem_zip hx).1
  obtain ⟨windows, _, hsplits⟩ := hrun.windows
  exact ⟨⟨windows, hsplits⟩, fun start => hsplits.tally_inWindow_le rate.window_pos start⟩

/-- A window that starts at 0 s and one that starts when it is over, at 1 s and after a sweep: the
second from 0.9 s on gets five permits, which is more than three and at most six. -/
theorem fixed_grants_split_acrossWindows :
    let calls : List (Instant × Call Unit) :=
      [(⟨0⟩, .request () 1 false), (⟨900000000⟩, .request () 2 false), (⟨1000000000⟩, .sweep),
        (⟨1000000000⟩, .available ()), (⟨1000000000⟩, .request () 5 true)]
    let grants := grantsTo (fun _ => true)
      (calls.zip (run Limiter.step (.new threeASecond .fixed) calls).2)
    DistinctNames threeASecond ∧ Chronological calls ∧ (∀ e ∈ calls, e.2.Keeps) ∧
      grants = [⟨⟨0⟩, 1⟩, ⟨⟨900000000⟩, 2⟩, ⟨⟨1000000000⟩, 3⟩] ∧
      (∃ windows, Splits (.seconds 1) 3 windows grants) ∧
      Grant.tally (Instant.inWindow ⟨900000000⟩ (.seconds 1)) grants ≤ 2 * 3 := by
  intro calls grants
  have hnames : DistinctNames threeASecond := by
    refine ⟨by decide, fun r hr => ?_⟩
    rw [List.mem_singleton.mp hr]
    decide
  have hclock : Chronological calls := by
    unfold Chronological
    decide
  have hkeeps : ∀ e ∈ calls, e.2.Keeps := by
    simp [calls, Call.Keeps]
  have hgrants : grants = [⟨⟨0⟩, 1⟩, ⟨⟨900000000⟩, 2⟩, ⟨⟨1000000000⟩, 3⟩] := by decide +kernel
  have hsplit := fixed_grants_split hnames hclock hkeeps List.mem_cons_self
    List.mem_cons_self List.mem_cons_self .whole
  exact ⟨hnames, hclock, hkeeps, hgrants, hsplit.1, hsplit.2 ⟨900000000⟩⟩

end Admission
