import Admission.Limiter
import Admission.Proofs.Commit
import Admission.Proofs.Traversal

/-!
# What a denial leaves in the view

A view has a line for every cell, also for one in which nothing was ever counted.  A request opens
all the cells that it has to read before it knows whether it will be granted, so a denial, which
counts nothing anywhere, may still leave cells behind.

* `Store.mem_view` — the lines of a view are the cells of the store.
* `Store.view_create` — opening cells adds a line for each one that was missing.
* `Limiter.view_after_denial` — a denial does no more (`Store.acquire_of_denied`), so the view
  after it has all the lines of the view before it, and one line that counts nothing for each
  implicated cell that was missing.  It is the same view if and only if no cell was missing.
* `Limiter.denial_leaves_cell` — a caller that was never seen is denied for the sake of a rate that
  another one has used up, and gets a line.
-/

namespace Admission

variable {ω : Type} {now : Instant} {key : CellKey}

/-! ## The line of a cell -/

namespace CellView

theorem key_of {cell : WindowCell} {v : CellView} (h : CellView.of now key cell = .ok v) :
    v.key = key := by
  unfold CellView.of at h
  cases hreset : cell.resetTime now key.window with
  | error cause =>
    rw [hreset] at h
    cases h
  | ok resetsIn =>
    rw [hreset] at h
    rw [← Except.ok.inj h]

/-- A cell in which nothing was counted has nothing to wait for. -/
theorem of_empty (now : Instant) (key : CellKey) (policy : WindowPolicy) :
    CellView.of now key (.empty policy) = .ok ⟨key, 0, none⟩ := by
  cases policy <;> rfl

end CellView

namespace Store

variable {s : Store} {views : List CellView}

theorem mem_cells_iff : key ∈ s.cells ↔ ∃ cell, s.cells[key]? = some cell := by
  rw [Std.ExtTreeMap.mem_iff_isSome_getElem?, Option.isSome_iff_exists]

/-- The lines of a view are the cells of the store. -/
theorem mem_view (h : s.view now = .ok views) {v : CellView} :
    v ∈ views ↔ ∃ cell, s.cells[v.key]? = some cell ∧ CellView.of now v.key cell = .ok v := by
  rw [mem_of_mapM_eq_ok h]
  constructor
  · rintro ⟨⟨key, cell⟩, hentry, hview⟩
    obtain rfl : v.key = key := CellView.key_of hview
    exact ⟨cell, Std.ExtTreeMap.mem_toList_iff_getElem?_eq_some.mp hentry, hview⟩
  · rintro ⟨cell, hcell, hview⟩
    exact ⟨(v.key, cell), Std.ExtTreeMap.mem_toList_iff_getElem?_eq_some.mpr hcell, hview⟩

theorem mem_cells_of_mem_view (h : s.view now = .ok views) {v : CellView} (hv : v ∈ views) :
    v.key ∈ s.cells := by
  obtain ⟨cell, hcell, _⟩ := (mem_view h).mp hv
  exact mem_cells_iff.mpr ⟨cell, hcell⟩

/-- A store that holds some of the cells of another shows the lines of these. -/
theorem view_of_filter {t : Store} (h : t.view now = .ok views)
    (hsome : s.cells = t.cells.filter fun key _ => s.cells.contains key) :
    s.view now = .ok (views.filter fun v => s.cells.contains v.key) := by
  have hlist : s.cells.toList = t.cells.toList.filter fun e => s.cells.contains e.1 :=
    (congrArg Std.ExtTreeMap.toList hsome).trans Std.ExtTreeMap.toList_filter
  unfold view
  rw [hlist]
  apply mapM_filter_eq_ok h
  rintro ⟨key, cell⟩ v hview
  rw [CellView.key_of hview]

/-! ## Cells that are opened -/

variable {keys : List CellKey} {before after : List CellView}

theorem getElem?_create_of_not_mem (h : key ∉ s.cells) :
    (s.create keys).cells[key]? = if key ∈ keys then some (.empty s.policy) else none := by
  have hnone : s.cells[key]? = none := by
    rw [← Option.not_isSome_iff_eq_none, ← Std.ExtTreeMap.mem_iff_isSome_getElem?]
    exact h
  rw [getElem?_create, cell_of_none hnone, hnone]

/-- The cells that were there are found again among those that are opened. -/
theorem cells_eq_filter_create (s : Store) (keys : List CellKey) :
    s.cells = (s.create keys).cells.filter fun key _ => s.cells.contains key := by
  apply Std.ExtTreeMap.ext_getElem?
  intro key
  rw [Std.ExtTreeMap.getElem?_filter']
  by_cases hold : key ∈ s.cells
  · obtain ⟨cell, hcell⟩ := mem_cells_iff.mp hold
    rw [getElem?_create_of_mem hcell, hcell]
    simp [Option.filter, hold]
  · rw [Std.ExtTreeMap.getElem?_eq_none hold]
    cases (s.create keys).cells[key]? <;> simp [Option.filter, hold]

/-- Cells that are opened count nothing, so their lines can always be written down. -/
theorem exists_view_create (h : s.view now = .ok before) (keys : List CellKey) :
    ∃ after, (s.create keys).view now = .ok after := by
  apply exists_mapM_eq_ok
  rintro ⟨key, cell⟩ hentry
  have hcell := Std.ExtTreeMap.mem_toList_iff_getElem?_eq_some.mp hentry
  by_cases hold : key ∈ s.cells
  · -- the cell was there, and it had a line in the view before
    obtain ⟨old, hfound⟩ := mem_cells_iff.mp hold
    rw [getElem?_create_of_mem hfound] at hcell
    obtain rfl := Option.some.inj hcell
    exact exists_of_mapM_eq_ok h (Std.ExtTreeMap.mem_toList_iff_getElem?_eq_some.mpr hfound)
  · rw [getElem?_create_of_not_mem hold] at hcell
    split at hcell
    · obtain rfl := Option.some.inj hcell
      exact ⟨_, CellView.of_empty now key s.policy⟩
    · cases hcell

/-- What is not a line of the cells that were there is one of those that were opened. -/
theorem mem_view_create (h : s.view now = .ok before)
    (hafter : (s.create keys).view now = .ok after) {v : CellView} :
    v ∈ after ↔ v ∈ before ∨ ∃ key ∈ keys, key ∉ s.cells ∧ v = ⟨key, 0, none⟩ := by
  rw [mem_view h, mem_view hafter]
  by_cases hold : v.key ∈ s.cells
  · obtain ⟨cell, hcell⟩ := mem_cells_iff.mp hold
    rw [getElem?_create_of_mem hcell, hcell]
    refine ⟨.inl, ?_⟩
    rintro (hv | ⟨key, _, hnew, rfl⟩)
    · exact hv
    · exact absurd hold hnew
  · rw [getElem?_create_of_not_mem hold, Std.ExtTreeMap.getElem?_eq_none hold]
    constructor
    · rintro ⟨cell, hcell, hview⟩
      split at hcell
      · next hkey =>
        obtain rfl := Option.some.inj hcell
        rw [CellView.of_empty] at hview
        exact .inr ⟨v.key, hkey, hold, (Except.ok.inj hview).symm⟩
      · cases hcell
    · rintro (⟨cell, hcell, _⟩ | ⟨key, hkey, _, rfl⟩)
      · cases hcell
      · rw [if_pos hkey]
        exact ⟨.empty s.policy, rfl, CellView.of_empty now key s.policy⟩

/-- Opening cells adds a line that counts nothing for each cell that was missing. -/
theorem view_create (h : s.view now = .ok before) (keys : List CellKey) :
    ∃ after, (s.create keys).view now = .ok after ∧ before.Sublist after ∧
      (∀ v, v ∈ after ↔ v ∈ before ∨ ∃ key ∈ keys, key ∉ s.cells ∧ v = ⟨key, 0, none⟩) ∧
      (after = before ↔ ∀ key ∈ keys, key ∈ s.cells) := by
  obtain ⟨after, hafter⟩ := exists_view_create h keys
  have hlines : ∀ v, v ∈ after ↔
      v ∈ before ∨ ∃ key ∈ keys, key ∉ s.cells ∧ v = ⟨key, 0, none⟩ :=
    fun v => mem_view_create h hafter
  have hbefore : before = after.filter fun v => s.cells.contains v.key :=
    Except.ok.inj (h.symm.trans (view_of_filter hafter (cells_eq_filter_create s keys)))
  refine ⟨after, hafter, ?_, hlines, ?_⟩
  · rw [hbefore]
    exact List.filter_sublist
  · constructor
    · rintro rfl key hkey
      apply Classical.byContradiction
      intro hold
      have hopened := (hlines ⟨key, 0, none⟩).mpr (.inr ⟨key, hkey, hold, rfl⟩)
      exact hold (mem_cells_of_mem_view h hopened)
    · intro hall
      rw [hbefore, eq_comm, List.filter_eq_self]
      intro v hv
      rw [Std.ExtTreeMap.contains_iff_mem]
      rcases (hlines v).mp hv with hv | ⟨key, hkey, hold, _⟩
      · exact mem_cells_of_mem_view h hv
      · exact absurd (hall key hkey) hold

end Store

/-! ## Denials -/

namespace Limiter

/-- **What a denial leaves.** After a request that is granted nothing the view has every line that
it had before, in the same order, and besides these one line that counts nothing for each cell that
the operation implicates and that did not exist.  So the view is what it was before the request if
and only if all of the implicated cells existed. -/
theorem view_after_denial {l : Limiter ω} {op : ω} {n : Count} {partly : Bool}
    (hdenied : (l.request op n partly now).2.granted = 0) {before : List CellView}
    (hview : l.store.view now = .ok before) :
    ∃ after, (l.request op n partly now).1.store.view now = .ok after ∧ before.Sublist after ∧
      (∀ v, v ∈ after ↔ v ∈ before ∨
        ∃ key ∈ implicated l.rules op, key ∉ l.store.cells ∧ v = ⟨key, 0, none⟩) ∧
      (after = before ↔ ∀ key ∈ implicated l.rules op, key ∈ l.store.cells) := by
  have hgranted : l.store.granted l.rules op n partly now = 0 :=
    (l.store.granted_acquire l.rules op n partly now).symm.trans hdenied
  have hafter : (l.request op n partly now).1.store = l.store.create (implicated l.rules op) :=
    Store.acquire_of_denied hgranted
  rw [hafter]
  exact Store.view_create hview _

/-- Three permits a second for all callers together, and three for each. -/
def sharedAndOwn : List (Rule String) :=
  [.everything "api" [.undivided "all" [.perUnit 3 .second],
    ⟨"caller", .value, [.perUnit 3 .second]⟩]]

/-- A limiter of which the first caller has taken all permits. -/
def takenByFirst : Limiter String :=
  ((new sharedAndOwn .sliding).request "first" 3 false ⟨0⟩).1

def allLine : CellView := ⟨⟨"api", "all", .whole, .seconds 1⟩, 3, some (.seconds 1)⟩

/-- The line of a caller that has taken so many permits. -/
def callerLine (name : String) (used : Count) (resetsIn : Option Span) : CellView :=
  ⟨⟨"api", "caller", .value name, .seconds 1⟩, used, resetsIn⟩

theorem view_takenByFirst :
    takenByFirst.store.view ⟨0⟩ = .ok [allLine, callerLine "first" 3 (some (.seconds 1))] := by
  rfl

theorem denied_takenByFirst : (takenByFirst.request "second" 1 false ⟨0⟩).2.granted = 0 := by
  rfl

/-- The second caller is denied, and its cell is a new line. -/
theorem view_after_denial_unseenCaller :
    (takenByFirst.request "second" 1 false ⟨0⟩).2.granted = 0 ∧
      takenByFirst.store.view ⟨0⟩ = .ok [allLine, callerLine "first" 3 (some (.seconds 1))] ∧
      ∃ after, (takenByFirst.request "second" 1 false ⟨0⟩).1.store.view ⟨0⟩ = .ok after ∧
        callerLine "second" 0 none ∈ after := by
  obtain ⟨after, hafter, _, hlines, _⟩ := view_after_denial denied_takenByFirst view_takenByFirst
  refine ⟨denied_takenByFirst, view_takenByFirst, after, hafter, ?_⟩
  refine (hlines _).mpr (.inr ⟨(callerLine "second" 0 none).key, ?_, ?_, rfl⟩)
  · decide
  · decide

/-- A denial leaves a cell in the view for a caller that was never seen before. -/
theorem denial_leaves_cell :
    (takenByFirst.request "second" 1 false ⟨0⟩).2.granted = 0 ∧
      takenByFirst.store.view ⟨0⟩ = .ok [allLine, callerLine "first" 3 (some (.seconds 1))] ∧
      (takenByFirst.request "second" 1 false ⟨0⟩).1.store.view ⟨0⟩ =
        .ok [allLine, callerLine "first" 3 (some (.seconds 1)), callerLine "second" 0 none] := by
  exact ⟨denied_takenByFirst, view_takenByFirst, rfl⟩

end Limiter

end Admission
