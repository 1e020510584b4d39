import Admission.Proofs.Cell
import Admission.Store

/-!
# The cells of a store

`s.cell key` is the cell under a key, empty where the store has none: whether a cell that counts
nothing exists decides no answer.  Each operation of a store is read off from here by one equation
on the look-up (`getElem?_acquire`, `getElem?_giveBack`, `getElem?_sweep`) and one on the cells
(`cell_acquire`, `cell_giveBack`, `cell_sweep`).
-/

namespace Admission

/-! ## The cells an operation counts in -/

private theorem nodup_eraseDups {α : Type} [DecidableEq α] :
    ∀ (n : Nat) (xs : List α), xs.length ≤ n → xs.eraseDups.Nodup := by
  -- `eraseDups` recurses on a filtered tail, so the induction is on the length
  intro n
  induction n with
  | zero =>
    intro xs h
    rw [List.eq_nil_of_length_eq_zero (Nat.le_zero.mp h)]
    exact List.Pairwise.nil
  | succ n ih =>
    intro xs h
    cases xs with
    | nil => exact List.Pairwise.nil
    | cons a rest =>
      rw [List.eraseDups_cons]
      refine List.nodup_cons.mpr ⟨fun ha => ?_, ih _ ?_⟩
      · have := (List.mem_filter.mp (List.mem_eraseDups.mp ha)).2
        simp at this
      · exact Nat.le_trans (List.length_filter_le _ _) (Nat.le_of_succ_le_succ h)

variable {ω : Type} {rules : List (Rule ω)} {op : ω}

theorem nodup_implicated : (implicated rules op).Nodup :=
  nodup_eraseDups _ _ (Nat.le_refl _)

theorem mem_implicated {key : CellKey} :
    key ∈ implicated rules op ↔ ∃ c ∈ checks rules op, c.key = key := by
  unfold implicated
  rw [List.mem_eraseDups, List.mem_map]

theorem implicated_of_checks_nil (h : checks rules op = []) : implicated rules op = [] := by
  unfold implicated
  rw [h]
  rfl

/-- The window of a rate is not empty, so neither is that of a cell an operation counts in. -/
theorem window_pos_of_mem_implicated {key : CellKey} (h : key ∈ implicated rules op) :
    0 < key.window.nanos := by
  obtain ⟨c, _, rfl⟩ := mem_implicated.mp h
  exact c.rate.window_pos

/-- A check comes from a rate of a grouping of a rule that applies. -/
theorem mem_checks {c : Check} :
    c ∈ checks rules op ↔ ∃ r ∈ rules, r.appliesTo op = true ∧ ∃ g ∈ r.groupings,
      ∃ h : c.index < g.rates.length,
        c = ⟨r.name, g.name, g.groupOf op, c.index, g.rates[c.index]⟩ := by
  unfold checks
  rw [List.mem_flatMap]
  constructor
  · rintro ⟨r, hr, hc⟩
    unfold Rule.checks at hc
    split at hc
    · next happlies =>
      obtain ⟨g, hg, hc⟩ := List.mem_flatMap.mp hc
      obtain ⟨i, hi, rfl⟩ := List.mem_mapIdx.mp hc
      exact ⟨r, hr, happlies, g, hg, hi, rfl⟩
    · exact absurd hc List.not_mem_nil
  · rintro ⟨r, hr, happlies, g, hg, hi, hc⟩
    refine ⟨r, hr, ?_⟩
    unfold Rule.checks
    rw [if_pos happlies]
    refine List.mem_flatMap.mpr ⟨g, hg, ?_⟩
    rw [hc]
    exact List.mem_mapIdx.mpr ⟨c.index, hi, rfl⟩

/-! ## Minima of counts -/

private theorem le_foldl_min {a b : Count} {xs : List Count} :
    a ≤ xs.foldl min b ↔ a ≤ b ∧ ∀ x ∈ xs, a ≤ x := by
  induction xs generalizing b with
  | nil => simp
  | cons x rest ih =>
    rw [List.foldl_cons, ih, List.forall_mem_cons, ← and_assoc]
    simp only [UInt32.le_iff_toNat_le, Count.toNat_min, Nat.le_min]

theorem grantable_le_available (available n : Count) (partly : Bool) :
    grantable available n partly ≤ available := by
  unfold grantable
  split
  · assumption
  · split
    · exact UInt32.le_refl _
    · exact UInt32.zero_le

namespace Store

/-- The room of a list of checks is the largest count that each of them has left. -/
theorem le_room {s : Store} {now : Instant} {cs : List Check} {n : Count} :
    n ≤ s.room now cs ↔ ∀ c ∈ cs, n ≤ s.left now c := by
  unfold room
  rw [le_foldl_min, List.forall_mem_map]
  refine and_iff_right ?_
  rw [UInt32.le_iff_toNat_le]
  exact Count.toNat_le_most n

/-! ## Cells -/

/-- The cell under a key, empty if there is none. -/
def cell (s : Store) (key : CellKey) : WindowCell := s.cells[key]?.getD (.empty s.policy)

variable {s : Store} {now : Instant} {key : CellKey}

/-- Stores of one policy that have the same cells are the same. -/
theorem eq_of_cells {t : Store} (hpolicy : s.policy = t.policy)
    (hcells : ∀ key : CellKey, s.cells[key]? = t.cells[key]?) : s = t := by
  obtain ⟨policy, cells⟩ := s
  obtain ⟨policy', cells'⟩ := t
  obtain rfl : policy = policy' := hpolicy
  obtain rfl : cells = cells' := Std.ExtTreeMap.ext_getElem? fun key => hcells key
  rfl

theorem cell_of_some {c : WindowCell} (h : s.cells[key]? = some c) : s.cell key = c := by
  unfold cell
  rw [h]
  rfl

theorem cell_of_none (h : s.cells[key]? = none) : s.cell key = .empty s.policy := by
  unfold cell
  rw [h]
  rfl

@[simp] theorem cell_empty (policy : WindowPolicy) (key : CellKey) :
    (empty policy).cell key = .empty policy :=
  cell_of_none Std.ExtTreeMap.getElem?_empty

theorem used_eq (s : Store) (now : Instant) (key : CellKey) :
    s.used now key = (s.cell key).used now key.window := by
  unfold used
  cases h : s.cells[key]? with
  | some c => rw [cell_of_some h]
  | none =>
    rw [cell_of_none h]
    cases s.policy <;> rfl

/-- The permits that the cell under a key counts at `now`, added up without a bound. -/
def counted (s : Store) (now : Instant) (key : CellKey) : Nat :=
  Grant.tally (live now key.window) (s.cell key).kept

theorem toNat_used (s : Store) (now : Instant) (key : CellKey) :
    (s.used now key).toNat = min (s.counted now key) 4294967295 := by
  rw [used_eq, WindowCell.toNat_used]
  rfl

theorem toNat_left (s : Store) (now : Instant) (c : Check) :
    (s.left now c).toNat = c.rate.permits.toNat - s.counted now c.key := by
  unfold left
  rw [Count.toNat_minus, toNat_used]
  have := Count.toNat_le_most c.rate.permits
  omega

/-! ### Creating and updating -/

private theorem getElem?_foldl_insertIfNew (m : Std.ExtTreeMap CellKey WindowCell)
    (keys : List CellKey) (c : WindowCell) (key : CellKey) :
    (keys.foldl (fun m k => m.insertIfNew k c) m)[key]? =
      if key ∈ keys then some (m[key]?.getD c) else m[key]? := by
  induction keys generalizing m with
  | nil => simp
  | cons k rest ih =>
    rw [List.foldl_cons, ih, Std.ExtTreeMap.getElem?_insertIfNew]
    by_cases hk : k = key
    · subst hk
      by_cases hm : k ∈ m <;> simp [hm]
    · simp [hk, Ne.symm hk]

private theorem getElem?_foldl_modify (m : Std.ExtTreeMap CellKey WindowCell)
    {keys : List CellKey} (hkeys : keys.Nodup) (f : CellKey → WindowCell → WindowCell)
    (key : CellKey) :
    (keys.foldl (fun m k => m.modify k (f k)) m)[key]? =
      if key ∈ keys then m[key]?.map (f key) else m[key]? := by
  induction keys generalizing m with
  | nil => simp
  | cons k rest ih =>
    obtain ⟨hk, hrest⟩ := List.nodup_cons.mp hkeys
    rw [List.foldl_cons, ih _ hrest, Std.ExtTreeMap.getElem?_modify]
    by_cases heq : k = key
    · subst heq
      simp [hk]
    · simp [heq, Ne.symm heq]

theorem getElem?_create (s : Store) (keys : List CellKey) (key : CellKey) :
    (s.create keys).cells[key]? = if key ∈ keys then some (s.cell key) else s.cells[key]? :=
  getElem?_foldl_insertIfNew s.cells keys _ key

/-- Opening cells leaves those that are there alone. -/
theorem getElem?_create_of_mem {keys : List CellKey} {cell : WindowCell}
    (h : s.cells[key]? = some cell) : (s.create keys).cells[key]? = some cell := by
  rw [getElem?_create, cell_of_some h, h, ite_self]

/-- A cell that is opened is empty, as it was taken to be. -/
theorem cell_create (s : Store) (keys : List CellKey) (key : CellKey) :
    (s.create keys).cell key = s.cell key := by
  have hfound := s.getElem?_create keys key
  split at hfound
  · exact cell_of_some hfound
  · unfold cell
    rw [hfound]
    rfl

theorem getElem?_update (s : Store) {keys : List CellKey} (hkeys : keys.Nodup)
    (f : CellKey → WindowCell → WindowCell) (key : CellKey) :
    (s.update keys f).cells[key]? =
      if key ∈ keys then s.cells[key]?.map (f key) else s.cells[key]? :=
  getElem?_foldl_modify s.cells hkeys f key

/-- Cells that are created where there were none and then changed are changed as they were. -/
theorem getElem?_update_create (s : Store) {keys : List CellKey} (hkeys : keys.Nodup)
    (f : CellKey → WindowCell → WindowCell) (key : CellKey) :
    ((s.create keys).update keys f).cells[key]? =
      if key ∈ keys then some (f key (s.cell key)) else s.cells[key]? := by
  rw [getElem?_update _ hkeys, getElem?_create]
  split <;> rfl

theorem cell_update_create (s : Store) {keys : List CellKey} (hkeys : keys.Nodup)
    (f : CellKey → WindowCell → WindowCell) (key : CellKey) :
    ((s.create keys).update keys f).cell key =
      if key ∈ keys then f key (s.cell key) else s.cell key := by
  have hfound := getElem?_update_create s hkeys f key
  split
  · next hkey => exact cell_of_some (by rw [hfound, if_pos hkey])
  · next hkey =>
    rw [if_neg hkey] at hfound
    unfold cell
    rw [hfound]
    rfl

/-! ## Requests -/

variable {n : Count} {partly : Bool}

/-- What a request is granted. -/
def granted (s : Store) (rules : List (Rule ω)) (op : ω) (n : Count) (partly : Bool)
    (now : Instant) : Count := grantable (s.available rules op now) n partly

/-- Where no rate is in the way the room is the largest count. -/
theorem available_of_checks_nil (h : checks rules op = []) :
    s.available rules op now = .most := by
  unfold available room
  rw [h]
  rfl

/-- Where no rate is in the way all is granted. -/
theorem granted_of_checks_nil (h : checks rules op = []) :
    s.granted rules op n partly now = n := by
  unfold granted grantable
  rw [available_of_checks_nil h, if_pos]
  rw [UInt32.le_iff_toNat_le]
  exact Count.toNat_le_most n

/-- The answer to a request, also where no rate is implicated: then the room is without limit. -/
theorem acquire_answer (s : Store) (rules : List (Rule ω)) (op : ω) (n : Count) (partly : Bool)
    (now : Instant) :
    (s.acquire rules op n partly now).2 =
      ⟨n, s.available rules op now, s.granted rules op n partly now,
        ((checks rules op).find? fun c => s.left now c < n).map Check.violation⟩ := by
  unfold acquire
  split
  · next h =>
    rw [List.isEmpty_iff] at h
    rw [available_of_checks_nil h, granted_of_checks_nil h, h]
    rfl
  · rfl

theorem granted_acquire (s : Store) (rules : List (Rule ω)) (op : ω) (n : Count) (partly : Bool)
    (now : Instant) :
    (s.acquire rules op n partly now).2.granted = s.granted rules op n partly now := by
  rw [acquire_answer]

@[simp] theorem policy_acquire :
    (s.acquire rules op n partly now).1.policy = s.policy := by
  unfold acquire
  split
  · rfl
  · dsimp only
    split <;> rfl

theorem getElem?_acquire (s : Store) (rules : List (Rule ω)) (op : ω) (n : Count) (partly : Bool)
    (now : Instant) (key : CellKey) :
    (s.acquire rules op n partly now).1.cells[key]? =
      if key ∈ implicated rules op then
        some (if 0 < s.granted rules op n partly now then
          (s.cell key).record now key.window (s.granted rules op n partly now) else s.cell key)
      else s.cells[key]? := by
  unfold acquire
  split
  · next h =>
    rw [implicated_of_checks_nil (List.isEmpty_iff.mp h), if_neg List.not_mem_nil]
  · show (if 0 < s.granted rules op n partly now then _ else _ : Store).cells[key]? = _
    split
    · exact getElem?_update_create s nodup_implicated _ key
    · rw [getElem?_create]

/-- A request leaves every cell alone but those it is granted permits in. -/
theorem cell_acquire (s : Store) (rules : List (Rule ω)) (op : ω) (n : Count) (partly : Bool)
    (now : Instant) (key : CellKey) :
    (s.acquire rules op n partly now).1.cell key =
      if key ∈ implicated rules op ∧ 0 < s.granted rules op n partly now then
        (s.cell key).record now key.window (s.granted rules op n partly now)
      else s.cell key := by
  by_cases hkey : key ∈ implicated rules op
  · by_cases hgranted : 0 < s.granted rules op n partly now
    · rw [if_pos ⟨hkey, hgranted⟩, cell_of_some (by
        rw [getElem?_acquire, if_pos hkey, if_pos hgranted])]
    · rw [if_neg fun h => hgranted h.2, cell_of_some (by
        rw [getElem?_acquire, if_pos hkey, if_neg hgranted])]
  · rw [if_neg fun h => hkey h.1]
    unfold cell
    rw [getElem?_acquire, if_neg hkey, policy_acquire]

/-- What is granted is left in every rate, so the exact sum stays within the rate. -/
theorem counted_add_granted_le {c : Check} (hc : c ∈ checks rules op)
    (hgranted : 0 < s.granted rules op n partly now) :
    s.counted now c.key + (s.granted rules op n partly now).toNat ≤ c.rate.permits.toNat := by
  have hleft : s.granted rules op n partly now ≤ s.left now c :=
    le_room.mp (grantable_le_available _ _ _) c hc
  rw [UInt32.le_iff_toNat_le, toNat_left] at hleft
  rw [Count.pos_iff] at hgranted
  omega

theorem counted_add_granted_le_most (hkey : key ∈ implicated rules op)
    (hgranted : 0 < s.granted rules op n partly now) :
    s.counted now key + (s.granted rules op n partly now).toNat ≤ 4294967295 := by
  obtain ⟨c, hc, rfl⟩ := mem_implicated.mp hkey
  exact Nat.le_trans (counted_add_granted_le hc hgranted) (Count.toNat_le_most _)

/-- A grant adds exactly its permits to what every implicated cell counts. -/
theorem counted_acquire (hkey : key ∈ implicated rules op)
    (hgranted : 0 < s.granted rules op n partly now) :
    (s.acquire rules op n partly now).1.counted now key =
      s.counted now key + (s.granted rules op n partly now).toNat := by
  have hle := counted_add_granted_le_most hkey hgranted
  unfold counted at hle ⊢
  rw [cell_acquire, if_pos ⟨hkey, hgranted⟩]
  exact WindowCell.tally_record (window_pos_of_mem_implicated hkey) hle

/-! ### What an answer depends on -/

section Congruence

variable {t : Store} (hleft : ∀ c ∈ checks rules op, s.left now c = t.left now c)
include hleft

theorem available_congr : s.available rules op now = t.available rules op now := by
  unfold available room
  rw [List.map_congr_left hleft]

theorem granted_congr (n : Count) (partly : Bool) :
    s.granted rules op n partly now = t.granted rules op n partly now := by
  unfold granted
  rw [available_congr hleft]

/-- Stores that leave the checks of an operation the same answer a request alike. -/
theorem answer_congr (n : Count) (partly : Bool) :
    (s.acquire rules op n partly now).2 = (t.acquire rules op n partly now).2 := by
  have hfind : (checks rules op).find? (fun c => s.left now c < n) =
      (checks rules op).find? fun c => t.left now c < n := by
    rw [← List.head?_filter, ← List.head?_filter]
    congr 1
    apply List.filter_congr
    intro c hc
    rw [hleft c hc]
  rw [acquire_answer, acquire_answer, available_congr hleft, granted_congr hleft, hfind]

end Congruence

/-! ## Giving back and sweeping -/

@[simp] theorem policy_giveBack : (s.giveBack rules op n now).policy = s.policy := by
  unfold giveBack
  split <;> rfl

theorem getElem?_giveBack (s : Store) (rules : List (Rule ω)) (op : ω) (n : Count)
    (now : Instant) (key : CellKey) :
    (s.giveBack rules op n now).cells[key]? =
      if n ≠ 0 ∧ key ∈ implicated rules op then
        s.cells[key]?.map (·.giveBack now key.window n)
      else s.cells[key]? := by
  unfold giveBack
  by_cases hn : n = 0
  · rw [if_pos hn, if_neg fun h => h.1 hn]
  · rw [if_neg hn, getElem?_update _ nodup_implicated]
    simp only [hn, ne_eq, not_false_eq_true, true_and]

theorem cell_giveBack (s : Store) (rules : List (Rule ω)) (op : ω) (n : Count) (now : Instant)
    (key : CellKey) :
    (s.giveBack rules op n now).cell key =
      if n ≠ 0 ∧ key ∈ implicated rules op then (s.cell key).giveBack now key.window n
      else s.cell key := by
  unfold cell
  rw [getElem?_giveBack, policy_giveBack]
  split
  · cases s.cells[key]? with
    | some c => rfl
    | none => cases s.policy <;> rfl
  · rfl

theorem getElem?_sweep (s : Store) (now : Instant) (key : CellKey) :
    (s.sweep now).cells[key]? =
      s.cells[key]?.filter fun cell => !cell.isDrained now key.window :=
  Std.ExtTreeMap.getElem?_filter'

/-- A sweep empties the cells in which nothing counts and leaves the others alone. -/
theorem cell_sweep (s : Store) (now : Instant) (key : CellKey) :
    (s.sweep now).cell key =
      if (s.cell key).isDrained now key.window then .empty s.policy else s.cell key := by
  cases h : s.cells[key]? with
  | none =>
    -- an absent cell stays absent and reads as empty either way
    have hsweep : (s.sweep now).cells[key]? = none := by rw [getElem?_sweep, h]; rfl
    rw [cell_of_none hsweep, cell_of_none h, ite_self]
    rfl
  | some c =>
    rw [cell_of_some h]
    split
    · next hdrained =>
      refine cell_of_none ?_
      rw [getElem?_sweep, h]
      simp [Option.filter, hdrained]
    · next hdrained =>
      refine cell_of_some ?_
      rw [getElem?_sweep, h]
      simp [Option.filter, hdrained]

/-- A drained cell counts nothing. -/
theorem counted_eq_zero_of_isDrained (h : (s.cell key).isDrained now key.window = true) :
    s.counted now key = 0 := by
  unfold WindowCell.isDrained at h
  have hused := s.toNat_used now key
  rw [used_eq, of_decide_eq_true h, UInt32.toNat_zero] at hused
  omega

/-! ## Well-formed stores -/

/-- Every cell of a store is one that its policy makes. -/
def Wf (s : Store) : Prop := ∀ key, (s.cell key).Wf s.policy

theorem wf_empty (policy : WindowPolicy) : (empty policy).Wf := by
  intro key
  rw [cell_empty]
  exact WindowCell.wf_empty policy

theorem Wf.acquire (h : s.Wf) (rules : List (Rule ω)) (op : ω) (n : Count) (partly : Bool)
    (now : Instant) : (s.acquire rules op n partly now).1.Wf := by
  intro key
  rw [cell_acquire, policy_acquire]
  split
  · next hkey => exact (h key).record hkey.2
  · exact h key

theorem Wf.giveBack (h : s.Wf) (rules : List (Rule ω)) (op : ω) (n : Count) (now : Instant) :
    (s.giveBack rules op n now).Wf := by
  intro key
  rw [cell_giveBack, policy_giveBack]
  split
  · exact (h key).giveBack n
  · exact h key

theorem Wf.sweep (h : s.Wf) (now : Instant) : (s.sweep now).Wf := by
  intro key
  rw [cell_sweep]
  split
  · exact WindowCell.wf_empty s.policy
  · exact h key

end Store

end Admission
