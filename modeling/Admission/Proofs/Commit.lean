import Admission.Proofs.Store

/-!
# A grant is counted everywhere or nowhere

One request reaches several rates, and several rates may share a cell.  Whatever the store holds,
also usage above a rate that was lowered, a grant raises every implicated cell by the same number,
once, and leaves every implicated rate within its permits; a denial changes nothing that counts.
-/

namespace Admission

namespace Store

variable {ω : Type} {rules : List (Rule ω)} {op : ω} {n : Count} {partly : Bool}
variable {s : Store} {now : Instant} {key : CellKey}

/-- What an implicated cell counts after a grant, in counts that can be written down. -/
theorem toNat_used_acquire (hkey : key ∈ implicated rules op)
    (hgranted : 0 < s.granted rules op n partly now) :
    ((s.acquire rules op n partly now).1.used now key).toNat =
      (s.used now key).toNat + (s.granted rules op n partly now).toNat := by
  have hle := counted_add_granted_le_most hkey hgranted
  rw [toNat_used, toNat_used, counted_acquire hkey hgranted]
  omega

theorem used_acquire_le_permits {c : Check} (hc : c ∈ checks rules op)
    (hgranted : 0 < s.granted rules op n partly now) :
    (s.acquire rules op n partly now).1.used now c.key ≤ c.rate.permits := by
  have hle := counted_add_granted_le hc hgranted
  have hcounted := counted_acquire (mem_implicated.mpr ⟨c, hc, rfl⟩) hgranted
  rw [UInt32.le_iff_toNat_le, toNat_used, hcounted]
  omega

/-- A request that is granted nothing opens its cells and does no more. -/
theorem acquire_of_denied (hgranted : s.granted rules op n partly now = 0) :
    (s.acquire rules op n partly now).1 = s.create (implicated rules op) := by
  unfold acquire
  split
  · next hchecks =>
    rw [implicated_of_checks_nil (List.isEmpty_iff.mp hchecks)]
    rfl
  · have hzero : ¬ 0 < s.granted rules op n partly now := by
      rw [hgranted]
      decide
    exact if_neg hzero

/-- A request that is granted nothing leaves every cell as it was. -/
theorem cell_acquire_of_denied (hgranted : s.granted rules op n partly now = 0)
    (key : CellKey) : (s.acquire rules op n partly now).1.cell key = s.cell key := by
  rw [acquire_of_denied hgranted, cell_create]

theorem getElem?_acquire_of_denied (hgranted : s.granted rules op n partly now = 0)
    {cell : WindowCell} (h : s.cells[key]? = some cell) :
    (s.acquire rules op n partly now).1.cells[key]? = some cell := by
  rw [acquire_of_denied hgranted]
  exact getElem?_create_of_mem h

/-- **All or nothing.** A grant raises every implicated cell by exactly the permits granted, keeps
every implicated rate, and leaves all other cells untouched.  Without a grant no cell's usage
changes at any reading, and no cell that exists changes at all. -/
theorem acquire_all_or_nothing (s : Store) (rules : List (Rule ω)) (op : ω) (n : Count)
    (partly : Bool) (now : Instant) :
    let after := (s.acquire rules op n partly now).1
    let granted := (s.acquire rules op n partly now).2.granted
    (0 < granted →
      (∀ key ∈ implicated rules op,
        (after.used now key).toNat = (s.used now key).toNat + granted.toNat) ∧
      (∀ c ∈ checks rules op, after.used now c.key ≤ c.rate.permits) ∧
      (∀ key : CellKey, key ∉ implicated rules op → after.cells[key]? = s.cells[key]?)) ∧
    (granted = 0 →
      (∀ key t, after.used t key = s.used t key) ∧
      (∀ (key : CellKey) (cell : WindowCell),
        s.cells[key]? = some cell → after.cells[key]? = some cell)) := by
  intro after granted
  -- the answer and the store are computed from one and the same count
  have hanswer : granted = s.granted rules op n partly now := by
    show (s.acquire rules op n partly now).2.granted = _
    rw [acquire_answer]
  rw [hanswer]
  refine ⟨fun hgranted => ⟨fun key hkey => ?_, fun c hc => ?_, fun key hkey => ?_⟩,
    fun hdenied => ⟨fun key t => ?_, ?_⟩⟩
  · exact toNat_used_acquire hkey hgranted
  · exact used_acquire_le_permits hc hgranted
  · show (s.acquire rules op n partly now).1.cells[key]? = _
    rw [getElem?_acquire, if_neg hkey]
  · show (s.acquire rules op n partly now).1.used t key = _
    rw [used_eq, used_eq, cell_acquire_of_denied hdenied]
  · intro key cell hcell
    exact getElem?_acquire_of_denied hdenied hcell

/-- Two rates of one grouping and one window, which share a cell. -/
def sharedCell : List (Rule Unit) :=
  [.everything "api" [.undivided "global" [.perUnit 3 .second, .perUnit 5 .second]]]

/-- The shared cell counts a grant of two permits once. -/
theorem acquire_all_or_nothing_sharedCell :
    0 < ((empty .sliding).acquire sharedCell () 2 false ⟨0⟩).2.granted ∧
      (((empty .sliding).acquire sharedCell () 2 false ⟨0⟩).1.used ⟨0⟩
        ⟨"api", "global", .whole, .seconds 1⟩).toNat = 2 := by
  have hgranted : ((empty .sliding).acquire sharedCell () 2 false ⟨0⟩).2.granted = 2 := by
    rw [acquire_answer]
    decide
  have hpos : 0 < ((empty .sliding).acquire sharedCell () 2 false ⟨0⟩).2.granted := by
    rw [hgranted]
    decide
  obtain ⟨hraised, _, _⟩ :=
    (acquire_all_or_nothing (empty .sliding) sharedCell () 2 false ⟨0⟩).1 hpos
  refine ⟨hpos, (hraised _ (by decide)).trans ?_⟩
  rw [hgranted, used_eq, cell_empty]
  rfl

end Store

end Admission
