import Admission.Proofs.Compiling
import Admission.Proofs.Expiring

/-!
# Reset times can be written down

A reset time is what is left of a window and, for a grant of the future, the time until its stamp.
A window comes from a configured rate, so it is no longer than the largest count of days
(`longestWindow`), and a stamp is a reading of the clock that some request was made at.  Two readings
of the calendar are at most so far apart that both together leave a span that can be written down by
far.  `Store.Dated` says this of all cells of a store, also of those whose rule is no longer there,
and every event keeps it.

* `fits_remaining` — the reset time of one counted stamp.
* `Limiter.dated_run` — the cells of a limiter whose rules are compiled from rule sets.
* `Limiter.view_never_overflows` — so there is always a view.
-/

namespace Admission

/-! ## One window and one stamp -/

/-- The longest window that can be configured. -/
def longestWindow : Span := TimeUnit.day.span.times 4294967295

/-- No unit times a count is longer. -/
theorem times_le_longestWindow (unit : TimeUnit) (units : Count) :
    unit.span.times units.toNat ≤ longestWindow := by
  have hunit : unit.span.nanos ≤ TimeUnit.day.span.nanos := by cases unit <;> decide
  exact Nat.mul_le_mul hunit units.toNat_le_most

theorem fits_of_le_longestWindow {window : Span} (h : window ≤ longestWindow) :
    window.fits = true := by
  have hnanos : window.nanos ≤ longestWindow.nanos := h
  apply decide_eq_true
  show window.nanos / Span.perSecond < Span.secondsBound
  simp only [longestWindow, TimeUnit.span, Span.seconds, Span.times, Span.perSecond,
    Span.secondsBound] at hnanos ⊢
  omega

/-- The calendar is no longer than a clock can be moved. -/
theorem elapsed_le_longestStep {a b : Instant} (ha : a.inCalendar = true)
    (hb : b.inCalendar = true) : elapsed a b ≤ Instant.longestStep := by
  obtain ⟨hlow, -⟩ := (Bool.and_eq_true _ _).mp ha
  obtain ⟨-, hhigh⟩ := (Bool.and_eq_true _ _).mp hb
  replace hlow : Instant.earliest.nanos ≤ a.nanos := of_decide_eq_true hlow
  replace hhigh : b.nanos ≤ Instant.latest.nanos := of_decide_eq_true hhigh
  show (b.nanos - a.nanos).toNat ≤ Instant.longestStep.nanos
  simp only [Instant.earliest, Instant.latest, Instant.ofParts, Span.perSecond,
    Instant.longestStep, Span.millis] at hlow hhigh ⊢
  omega

theorem fits_remaining {window : Span} (hwindow : window ≤ longestWindow) {stamp now : Instant}
    (hstamp : stamp.inCalendar = true) (hnow : now.inCalendar = true) :
    (WindowCell.remaining stamp now window).fits = true := by
  have hnanos : window.nanos ≤ longestWindow.nanos := hwindow
  have hfuture : (elapsed now stamp).nanos ≤ Instant.longestStep.nanos :=
    elapsed_le_longestStep hnow hstamp
  have hleft : (window.minus (elapsed stamp now)).nanos ≤ window.nanos := Nat.sub_le _ _
  apply decide_eq_true
  show ((window.minus (elapsed stamp now)).nanos + (elapsed now stamp).nanos) / Span.perSecond <
    Span.secondsBound
  simp only [longestWindow, TimeUnit.span, Span.seconds, Span.times, Span.perSecond,
    Span.secondsBound, Instant.longestStep, Span.millis] at hnanos hfuture hleft ⊢
  omega

/-! ## Cells -/

variable {ω : Type}

/-- Every window of a rule list is one that can be configured. -/
def Configurable (rules : List (Rule ω)) : Prop :=
  ∀ r ∈ rules, ∀ g ∈ r.groupings, ∀ rate ∈ g.rates, rate.window ≤ longestWindow

theorem RuleSet.configurable_of_compile {s : RuleSet} {rules : List (Rule Descriptor)}
    (h : s.compile = .ok rules) : Configurable rules := by
  intro r hr g hg rate hrate
  obtain ⟨_, _, hrule⟩ := exists_of_forall₂ (compile_eq_ok_iff.mp h).rules.flip hr
  obtain ⟨_, _, hgrouping⟩ := exists_of_forall₂ hrule.groupings.flip hg
  obtain ⟨spec, _, hmakes⟩ := exists_of_forall₂ hgrouping.rates.flip hrate
  rw [hmakes.window]
  exact times_le_longestWindow spec.unit spec.units

theorem Configurable.window_le {rules : List (Rule ω)} (h : Configurable rules) {op : ω}
    {key : CellKey} (hkey : key ∈ implicated rules op) : key.window ≤ longestWindow := by
  obtain ⟨c, hc, rfl⟩ := mem_implicated.mp hkey
  obtain ⟨r, hr, _, g, hg, hi, hc⟩ := mem_checks.mp hc
  rw [hc]
  exact h r hr g hg _ (List.getElem_mem hi)

namespace Store

/-- The window of every cell is one that can be configured, and its stamps are in the calendar. -/
def Dated (s : Store) : Prop := ∀ (key : CellKey) (cell : WindowCell), s.cells[key]? = some cell →
  key.window ≤ longestWindow ∧ ∀ g ∈ cell.kept, g.stamp.inCalendar = true

variable {s : Store} {rules : List (Rule ω)} {now : Instant}

theorem dated_empty (policy : WindowPolicy) : (empty policy).Dated := by
  intro key cell hcell
  rw [empty, Std.ExtTreeMap.getElem?_empty] at hcell
  cases hcell

/-- A cell that is looked up holds stamps of the calendar, whether or not it is there. -/
theorem Dated.cell (h : s.Dated) (key : CellKey) :
    ∀ g ∈ (s.cell key).kept, g.stamp.inCalendar = true := by
  cases hcell : s.cells[key]? with
  | some cell =>
    rw [cell_of_some hcell]
    exact (h key cell hcell).2
  | none =>
    rw [cell_of_none hcell, WindowCell.kept_empty]
    exact fun g hg => absurd hg List.not_mem_nil

theorem Dated.acquire (h : s.Dated) (hrules : Configurable rules) (op : ω) (n : Count)
    (partly : Bool) (hnow : now.inCalendar = true) :
    (s.acquire rules op n partly now).1.Dated := by
  intro key cell hcell
  rw [getElem?_acquire] at hcell
  split at hcell
  · next hkey =>
    obtain rfl := Option.some.inj hcell
    refine ⟨hrules.window_le hkey, ?_⟩
    split
    · exact WindowCell.forall_mem_record (P := fun t => t.inCalendar = true) hnow (h.cell key) _
    · exact h.cell key
  · exact h key cell hcell

theorem Dated.giveBack (h : s.Dated) (rules : List (Rule ω)) (op : ω) (n : Count) (now : Instant) :
    (s.giveBack rules op n now).Dated := by
  intro key cell hcell
  rw [getElem?_giveBack] at hcell
  split at hcell
  · obtain ⟨old, hold, rfl⟩ := Option.map_eq_some_iff.mp hcell
    obtain ⟨hwindow, hstamps⟩ := h key old hold
    exact ⟨hwindow, WindowCell.forall_mem_giveBack (P := fun t => t.inCalendar = true) hstamps⟩
  · exact h key cell hcell

theorem Dated.sweep (h : s.Dated) (now : Instant) : (s.sweep now).Dated := by
  intro key cell hcell
  rw [getElem?_sweep] at hcell
  exact h key cell (Option.filter_eq_some_iff.mp hcell).1

/-- What the reset time of a cell is computed from. -/
theorem Dated.oldest (h : s.Dated) {key : CellKey} {cell : WindowCell}
    (hcell : s.cells[key]? = some cell) {stamp : Instant}
    (hstamp : cell.oldest? now key.window = some stamp) :
    stamp.inCalendar = true ∧ elapsed stamp now < key.window := by
  rw [WindowCell.oldest?_eq, Option.map_eq_some_iff] at hstamp
  obtain ⟨g, hg, rfl⟩ := hstamp
  have hmem : g ∈ cell.present now key.window := List.mem_of_mem_head? hg
  refine ⟨(h key cell hcell).2 g (List.filter_sublist.subset hmem), ?_⟩
  exact of_decide_eq_true (WindowCell.counts_of_mem_present hmem)

theorem Dated.exists_view (h : s.Dated) (hnow : now.inCalendar = true) :
    ∃ views, s.view now = .ok views := by
  apply exists_mapM_eq_ok
  rintro ⟨key, cell⟩ hentry
  have hcell := Std.ExtTreeMap.mem_toList_iff_getElem?_eq_some.mp hentry
  refine ⟨⟨key, cell.used now key.window, cell.nextExpiry? now key.window⟩, ?_⟩
  refine CellView.of_eq_ok_iff.mpr ⟨rfl, rfl, WindowCell.resetTime_eq_ok_iff.mpr ⟨rfl, ?_⟩⟩
  intro d hd
  obtain ⟨stamp, hstamp, rfl⟩ := Option.map_eq_some_iff.mp hd
  exact fits_remaining (h key cell hcell).1 (h.oldest hcell hstamp).1 hnow

end Store

/-! ## Runs -/

namespace Limiter

/-- An event at a reading of the calendar keeps the rules configurable and the store dated. -/
theorem dated_stepEvent {l : Limiter ω} (hrules : Configurable l.rules) (h : l.store.Dated)
    {e : Instant × Event ω} (hnow : e.1.inCalendar = true)
    (hpublished : ∀ rules, e.2 = .publish rules → Configurable rules) :
    Configurable (l.stepEvent e).1.rules ∧ (l.stepEvent e).1.store.Dated := by
  obtain ⟨now, event⟩ := e
  cases event with
  | publish rules => exact ⟨hpublished rules rfl, h.sweep now⟩
  | call c =>
    cases c with
    | request op n partly => exact ⟨hrules, h.acquire hrules op n partly hnow⟩
    | available op => exact ⟨hrules, h⟩
    | giveBack op n => exact ⟨hrules, h.giveBack l.rules op n now⟩
    | sweep => exact ⟨hrules, h.sweep now⟩

theorem dated_run {rules : List (Rule ω)} (hrules : Configurable rules) (policy : WindowPolicy)
    {events : List (Instant × Event ω)} (hreadings : ∀ e ∈ events, e.1.inCalendar = true)
    (hpublished : ∀ e ∈ events, ∀ rules, e.2 = .publish rules → Configurable rules) :
    (run Limiter.stepEvent (.new rules policy) events).1.store.Dated := by
  refine (run_keeps (P := fun l : Limiter ω => Configurable l.rules ∧ l.store.Dated) ?_ ?_).2
  · exact fun l e he h => dated_stepEvent h.1 h.2 (hreadings e he) (hpublished e he)
  · exact ⟨hrules, Store.dated_empty policy⟩

/-- **There is always a view.** No unit of time times a count is a span too long to be written down.
Take a limiter of either policy on the rules of any rule set, which may be replaced by those of
others, and use it at any readings of the calendar, in any order.  At every reading of the calendar,
the time between the reading and any stamp in a cell is within what a clock can be moved by.  The
time that has passed since the stamp from which a reset time is computed is shorter than the window,
and what is left of the window can be written down together with the time until that stamp; so there
is a view. -/
theorem view_never_overflows {s : RuleSet} {rules : List (Rule Descriptor)}
    (hcompiles : s.compile = .ok rules) (policy : WindowPolicy)
    {events : List (Instant × Event Descriptor)}
    (hreadings : ∀ e ∈ events, e.1.inCalendar = true)
    (hpublished : ∀ e ∈ events, ∀ rules, e.2 = .publish rules →
      ∃ s : RuleSet, s.compile = .ok rules)
    {now : Instant} (hnow : now.inCalendar = true) :
    let store := (run Limiter.stepEvent (.new rules policy) events).1.store
    (∀ spec : RateSpec, (spec.unit.span.times spec.units.toNat).fits = true) ∧
    (∀ (key : CellKey) (cell : WindowCell), store.cells[key]? = some cell →
      (∀ g ∈ cell.kept, elapsed g.stamp now ≤ Instant.longestStep ∧
        elapsed now g.stamp ≤ Instant.longestStep) ∧
      ∀ stamp, cell.oldest? now key.window = some stamp → elapsed stamp now < key.window ∧
        ((key.window.minus (elapsed stamp now)).plus (elapsed now stamp)).fits = true) ∧
    ∃ views, store.view now = .ok views := by
  intro store
  have hdated : store.Dated := by
    refine dated_run (RuleSet.configurable_of_compile hcompiles) policy hreadings ?_
    intro e he published hevent
    obtain ⟨s', hs'⟩ := hpublished e he published hevent
    exact RuleSet.configurable_of_compile hs'
  refine ⟨fun spec => ?_, fun key cell hcell => ?_, hdated.exists_view hnow⟩
  · exact fits_of_le_longestWindow (times_le_longestWindow spec.unit spec.units)
  · obtain ⟨hwindow, hstamps⟩ := hdated key cell hcell
    refine ⟨fun g hg => ?_, fun stamp holdest => ?_⟩
    · exact ⟨elapsed_le_longestStep (hstamps g hg) hnow, elapsed_le_longestStep hnow (hstamps g hg)⟩
    · obtain ⟨hstamp, hpassed⟩ := hdated.oldest hcell holdest
      exact ⟨hpassed, fits_remaining hwindow hstamp hnow⟩

/-- A rate with the longest window. -/
def slowest : RuleSet := ⟨none, [⟨"api", [], [⟨"all", [], [⟨1, .day, 4294967295⟩]⟩]⟩]⟩

/-- A permit is granted at the end of the calendar, and its rule is gone once the clock is back at
the beginning. -/
def acrossTheCalendar : List (Instant × Event Descriptor) :=
  [(.latest, .call (.request ⟨"edge", []⟩ 1 false)), (.earliest, .publish [])]

/-- The reset time is the longest window and the whole calendar. -/
theorem view_never_overflows_acrossTheCalendar :
    ∃ rules, slowest.compile = .ok rules ∧
      (∀ e ∈ acrossTheCalendar, e.1.inCalendar = true) ∧
      (∀ e ∈ acrossTheCalendar, ∀ rules, e.2 = .publish rules →
        ∃ s : RuleSet, s.compile = .ok rules) ∧
      Instant.earliest.inCalendar = true ∧
      ∃ views,
        (run Limiter.stepEvent (.new rules .sliding) acrossTheCalendar).1.store.view .earliest =
          .ok views ∧
        views = [⟨⟨"api", "all", .whole, longestWindow⟩, 1,
          some (longestWindow.plus (elapsed .earliest .latest))⟩] := by
  have hreadings : ∀ e ∈ acrossTheCalendar, e.1.inCalendar = true := by decide
  have hpublished : ∀ e ∈ acrossTheCalendar, ∀ rules, e.2 = .publish rules →
      ∃ s : RuleSet, s.compile = .ok rules := by
    intro e he rules hevent
    rcases List.mem_pair.mp he with rfl | rfl
    · cases hevent
    · obtain rfl := Event.publish.inj hevent
      exact ⟨⟨none, []⟩, rfl⟩
  have hnow : Instant.earliest.inCalendar = true := by decide
  refine ⟨_, rfl, hreadings, hpublished, hnow, ?_⟩
  obtain ⟨-, -, views, hviews⟩ :=
    view_never_overflows (s := slowest) rfl .sliding hreadings hpublished hnow
  refine ⟨views, hviews, Except.ok.inj (hviews.symm.trans ?_)⟩
  decide +kernel

end Limiter

end Admission
