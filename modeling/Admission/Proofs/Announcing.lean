import Admission.Proofs.Restoring
import Admission.Proofs.Traversal

/-!
# What buckets announce

Whoever follows the state of buckets is handed a snapshot after each operation that changed it.
Each operation notices a change in its own way: a request compares its level before and after, or
looks at what it granted where there was no level, a return compares, and a sweep counts what it
dropped.  All of them come to the same (`Change.Told`): a snapshot is handed over exactly if the
snapshots before and after differ.

* `Buckets.same_snapshot_iff` — snapshots are equal if every key has equal levels in both, or none.
* `Buckets.told_take`, `Buckets.told_giveBack`, `Buckets.told_sweep` — one for each operation.
* `announces_changes` — so every call announces what it changes and nothing else, and what was
  announced last is the state.
-/

namespace Admission

open Amount LawfulAmount

variable {α : Type} [Amount α]

/-! ## Equal snapshots -/

/-- Whether two snapshots are equal: the same keys, with equal levels. -/
def Snapshot.same : Snapshot α → Snapshot α → Bool
  | [], [] => true
  | a :: s, b :: t => a.1 = b.1 && a.2.same b.2 && Snapshot.same s t
  | [], _ :: _ | _ :: _, [] => false

theorem Snapshot.same_iff (s t : Snapshot α) :
    s.same t = true ↔ List.Forall₂ (fun a b => a.1 = b.1 ∧ a.2.same b.2 = true) s t := by
  fun_induction Snapshot.same s t with
  | case1 => exact iff_of_true rfl .nil
  | case2 a s b t ih =>
    rw [Bool.and_eq_true, Bool.and_eq_true, decide_eq_true_iff, ih, List.forall₂_cons]
  | case3 => exact iff_of_false Bool.false_ne_true nofun
  | case4 => exact iff_of_false Bool.false_ne_true nofun

/-- The entries of two maps correspond if they do so key by key. -/
theorem forall₂_toList_iff {β : Type} {R : β → β → Prop} (m m' : Std.ExtTreeMap String β) :
    List.Forall₂ (fun a b => a.1 = b.1 ∧ R a.2 b.2) m.toList m'.toList ↔
      ∀ k : String, Option.Rel R m[k]? m'[k]? := by
  constructor
  · intro h k
    cases hx : m[k]? with
    | some x =>
      have hmem := Std.ExtTreeMap.mem_toList_iff_getElem?_eq_some.mpr hx
      obtain ⟨⟨k', y⟩, hy, rfl, hR⟩ := exists_of_forall₂ h hmem
      rw [Std.ExtTreeMap.mem_toList_iff_getElem?_eq_some.mp hy]
      exact .some hR
    | none =>
      cases hy : m'[k]? with
      | none => exact .none
      | some y =>
        have hmem := Std.ExtTreeMap.mem_toList_iff_getElem?_eq_some.mpr hy
        obtain ⟨⟨k', x⟩, hx', rfl, _⟩ := exists_of_forall₂ h.flip hmem
        rw [Std.ExtTreeMap.mem_toList_iff_getElem?_eq_some.mp hx'] at hx
        cases hx
  · intro h
    -- the maps have the same keys, so their entries correspond one by one
    have hkeys : m.toList.map Prod.fst = m'.toList.map Prod.fst := by
      have hstored : ∀ x y : Option β, Option.Rel R x y →
          x.map (fun _ => ()) = y.map (fun _ => ()) := by
        rintro _ _ (_ | _) <;> rfl
      have hbare : m.map (fun _ _ => ()) = m'.map (fun _ _ => ()) := by
        refine Std.ExtTreeMap.ext_getElem? fun k => ?_
        rw [Std.ExtTreeMap.getElem?_map, Std.ExtTreeMap.getElem?_map]
        exact hstored _ _ (h k)
      rw [Std.ExtTreeMap.map_fst_toList_eq_keys, Std.ExtTreeMap.map_fst_toList_eq_keys,
        ← Std.ExtTreeMap.keys_map (t := m), hbare, Std.ExtTreeMap.keys_map]
    have hfst : List.Forall₂ (fun a b => a.1 = b.1) m.toList m'.toList := by
      rw [← List.forall₂_eq_eq_eq, List.forall₂_map_left_iff, List.forall₂_map_right_iff] at hkeys
      exact hkeys
    rw [List.forall₂_iff_zip] at hfst ⊢
    refine ⟨hfst.1, fun {a b} hab => ?_⟩
    have hkey := hfst.2 hab
    obtain ⟨ha, hb⟩ := List.of_mem_zip hab
    have hR := h a.1
    rw [Std.ExtTreeMap.mem_toList_iff_getElem?_eq_some.mp ha, hkey,
      Std.ExtTreeMap.mem_toList_iff_getElem?_eq_some.mp hb] at hR
    cases hR with
    | some hR => exact ⟨hkey, hR⟩

namespace Level

variable [LawfulAmount α] [NumericAmount α] {l m : Level α}

theorem same_refl {u : Extent} (h : worth l.tokens = some u) : l.same l = true := by
  unfold same
  rw [beq_refl h]
  exact decide_eq_true rfl

theorem same_trans {k : Level α} (hlm : l.same m = true) (hmk : m.same k = true) :
    l.same k = true := by
  unfold same at hlm hmk ⊢
  rw [Bool.and_eq_true, decide_eq_true_iff] at hlm hmk ⊢
  exact ⟨beq_trans hlm.1 hmk.1, hlm.2.trans hmk.2⟩

end Level

theorem Snapshot.same_trans [LawfulAmount α] [NumericAmount α] {s t u : Snapshot α}
    (hst : s.same t = true) (htu : t.same u = true) : s.same u = true := by
  rw [Snapshot.same_iff] at hst htu ⊢
  induction hst generalizing u with
  | nil => exact htu
  | cons hab _ ih =>
    cases htu with
    | cons hbc hrest =>
      exact .cons ⟨hab.1.trans hbc.1, Level.same_trans hab.2 hbc.2⟩ (ih hrest)

namespace Buckets

variable {b c : Buckets α} {key : String} {n : Count} {partly : Bool} {now : Instant}

theorem same_snapshot_iff (b c : Buckets α) :
    b.snapshot.same c.snapshot = true ↔
      ∀ k : String, Option.Rel (fun l m => l.same m = true) b.levels[k]? c.levels[k]? := by
  rw [Snapshot.same_iff]
  exact forall₂_toList_iff (R := fun l m => l.same m = true) b.levels c.levels

/-- A snapshot with a level for a key that had none is another one. -/
theorem same_insert_of_none (hnone : b.levels[key]? = none) (l : Level α) :
    b.snapshot.same (snapshot { b with levels := b.levels.insert key l }) = false := by
  rw [Bool.eq_false_iff, Ne, same_snapshot_iff]
  intro hsame
  have hkey := hsame key
  rw [hnone] at hkey
  dsimp only at hkey
  rw [Std.ExtTreeMap.getElem?_insert_self] at hkey
  cases hkey

variable [LawfulAmount α]

/-- Every amount is a number. -/
def Numeric (b : Buckets α) : Prop :=
  ∀ (key : String) (l : Level α), b.levels[key]? = some l → ∃ u, worth l.tokens = some u

theorem InRange.numeric (h : b.InRange) : b.Numeric := fun key l hl => by
  obtain ⟨u, hu, _⟩ := (h key l hl).exists_worth
  exact ⟨u, hu⟩

variable [NumericAmount α]

theorem Numeric.same_refl (h : b.Numeric) : b.snapshot.same b.snapshot = true := by
  refine (same_snapshot_iff b b).mpr fun k => ?_
  cases hl : b.levels[k]? with
  | none => exact .none
  | some l =>
    obtain ⟨u, hu⟩ := h k l hl
    exact .some (Level.same_refl hu)

/-- A snapshot with another level for one key is equal to the one before exactly if that level is
equal to the one before. -/
theorem Numeric.same_insert (h : b.Numeric) {l : Level α} (hl : b.levels[key]? = some l)
    (l' : Level α) :
    b.snapshot.same (snapshot { b with levels := b.levels.insert key l' }) = l.same l' := by
  rw [Bool.eq_iff_iff, same_snapshot_iff]
  constructor
  · intro hsame
    have hkey := hsame key
    rw [hl] at hkey
    dsimp only at hkey
    rw [Std.ExtTreeMap.getElem?_insert_self] at hkey
    cases hkey with
    | some hkey => exact hkey
  · intro hsame k
    dsimp only
    rw [Std.ExtTreeMap.getElem?_insert]
    split
    · next hk =>
      obtain rfl : key = k := Std.compare_eq_iff_eq.mp hk
      rw [hl]
      exact .some hsame
    · exact (same_snapshot_iff b b).mp h.same_refl k

/-- A snapshot without some levels is equal to the one before exactly if none is missing. -/
theorem Numeric.same_filter (h : b.Numeric) (kept : String → Level α → Bool) :
    b.snapshot.same (snapshot { b with levels := b.levels.filter kept }) =
      !decide (0 < b.levels.size - (b.levels.filter kept).size) := by
  have hsize := Std.ExtTreeMap.size_filter_le_size (t := b.levels) (f := kept)
  by_cases hall : (b.levels.filter kept).size = b.levels.size
  · have hlist : (b.levels.filter kept).toList = b.levels.toList := by
      rw [← Std.ExtTreeMap.length_toList, ← Std.ExtTreeMap.length_toList,
        Std.ExtTreeMap.toList_filter] at hall
      rw [Std.ExtTreeMap.toList_filter]
      exact List.filter_sublist.eq_of_length hall
    have hsame : snapshot { b with levels := b.levels.filter kept } = b.snapshot := hlist
    rw [hsame, h.same_refl, hall, Nat.sub_self]
    rfl
  · have hless : 0 < b.levels.size - (b.levels.filter kept).size := by omega
    rw [decide_eq_true hless, Bool.not_true, Bool.eq_false_iff, Ne, Snapshot.same_iff]
    intro hsame
    have hlength : b.levels.toList.length = (b.levels.filter kept).toList.length :=
      hsame.length_eq
    rw [Std.ExtTreeMap.length_toList, Std.ExtTreeMap.length_toList] at hlength
    exact hall hlength.symm

end Buckets

/-! ## One operation -/

/-- An operation on `b` announced what it led to, if that is another state, and else nothing. -/
def Change.Told {β : Type} (b : Buckets α) (change : Change α β) : Prop :=
  change.announced =
    if b.snapshot.same change.after.snapshot then none else some change.after.snapshot

theorem Change.told_of {β : Type} {b after : Buckets α} {answer : β} {changed : Bool}
    (h : b.snapshot.same after.snapshot = !changed) : (Change.of after answer changed).Told b := by
  show (if changed then some after.snapshot else none) =
    if b.snapshot.same after.snapshot then none else some after.snapshot
  rw [h]
  cases changed <;> rfl

namespace Buckets

variable [LawfulAmount α] [NumericAmount α] {b : Buckets α}

theorem told_take (h : b.Numeric) (key : String) (n : Count) (partly : Bool) (now : Instant) :
    (b.take key n partly now).Told b := by
  unfold take
  cases hl : b.levels[key]? with
  | some l =>
    refine Change.told_of ?_
    rw [Bool.not_not]
    exact h.same_insert hl _
  | none =>
    dsimp only
    split
    · exact Change.told_of (same_insert_of_none hl _)
    · exact Change.told_of h.same_refl

theorem told_giveBack (h : b.Numeric) (key : String) (n : Count) (now : Instant) :
    (b.giveBack key n now).Told b := by
  unfold giveBack
  cases hl : b.levels[key]? with
  | none => exact Change.told_of h.same_refl
  | some l =>
    dsimp only
    split
    · exact Change.told_of h.same_refl
    · refine Change.told_of ?_
      rw [Bool.not_not]
      exact h.same_insert hl _

theorem told_sweep (h : b.Numeric) (force : Bool) (now : Instant) :
    (b.sweep force now).Told b :=
  Change.told_of (h.same_filter _)

end Buckets

/-! ## Runs -/

namespace Announcing

/-- Buckets that announce what changes answer a call at a reading of the clock. -/
def step (a : Announcing α) : Instant × BucketCall → Announcing α × BucketAnswer
  | (now, .request key n partly) =>
    (a.after (a.buckets.request key n partly now)).map id .granted
  | (now, .require key n) => (a.after (a.buckets.require key n now)).map id .required
  | (now, .acquire key n partly) =>
    (a.after (a.buckets.acquire key n partly now)).map id .permits
  | (now, .available key) => (a, .room (a.buckets.available key now))
  | (now, .giveBack key n) =>
    (a.after (a.buckets.giveBack key n now)).map id fun _ => .done
  | (now, .sweep force) => (a.after (a.buckets.sweep force now)).map id .dropped

/-- Announcing changes neither what a call leads to nor what it answers. -/
theorem buckets_step (a : Announcing α) (e : Instant × BucketCall) :
    (a.step e).1.buckets = (a.buckets.step e).1 ∧ (a.step e).2 = (a.buckets.step e).2 := by
  obtain ⟨now, call⟩ := e
  cases call <;> exact ⟨rfl, rfl⟩

variable {a : Announcing α}

theorem announced_after {β : Type} {change : Change α β} (h : change.Told a.buckets) :
    (a.after change).1.announced = a.announced ++
      if a.buckets.snapshot.same change.after.snapshot then [] else [change.after.snapshot] := by
  show a.announced ++ change.announced.toList = _
  rw [h]
  split <;> rfl

variable [LawfulAmount α] [NumericAmount α]

/-- A call announces the state that it leads to, if that is another one. -/
theorem announced_step (h : a.buckets.Numeric) (e : Instant × BucketCall) :
    (a.step e).1.announced = a.announced ++
      if a.buckets.snapshot.same (a.step e).1.buckets.snapshot then []
      else [(a.step e).1.buckets.snapshot] := by
  obtain ⟨now, call⟩ := e
  cases call with
  | request key n partly => exact announced_after (Buckets.told_take h key n partly now)
  | require key n => exact announced_after (Buckets.told_take h key n false now)
  | acquire key n partly => exact announced_after (Buckets.told_take h key n partly now)
  | available key =>
    show a.announced = a.announced ++ if a.buckets.snapshot.same a.buckets.snapshot then [] else _
    rw [h.same_refl, if_pos rfl, List.append_nil]
  | giveBack key n => exact announced_after (Buckets.told_giveBack h key n now)
  | sweep force => exact announced_after (Buckets.told_sweep h force now)

/-- The snapshot that was announced last, or else the one from before. -/
def lastKnown (before : Snapshot α) (a : Announcing α) : Snapshot α :=
  a.announced.getLast?.getD before

/-- Whoever knows the state before a call knows it after the call. -/
theorem lastKnown_step {before : Snapshot α} (h : a.buckets.InRange)
    (hknown : (a.lastKnown before).same a.buckets.snapshot = true) (e : Instant × BucketCall) :
    ((a.step e).1.lastKnown before).same (a.step e).1.buckets.snapshot = true := by
  unfold lastKnown at hknown ⊢
  rw [announced_step h.numeric e]
  by_cases hsame : a.buckets.snapshot.same (a.step e).1.buckets.snapshot = true
  · rw [if_pos hsame, List.append_nil]
    exact Snapshot.same_trans hknown hsame
  · rw [if_neg hsame, List.getLast?_concat, Option.getD_some, (a.buckets_step e).1]
    exact (h.step e).numeric.same_refl

theorem lastKnown_run {b : Buckets α} (h : b.InRange) (events : List (Instant × BucketCall)) :
    ((run step ⟨b, []⟩ events).1.lastKnown b.snapshot).same
      (run step ⟨b, []⟩ events).1.buckets.snapshot = true := by
  refine (run_invariant (P := fun (a : Announcing α) => a.buckets.InRange ∧
    (a.lastKnown b.snapshot).same a.buckets.snapshot = true) ?_ ⟨h, ?_⟩ events).2
  · rintro a e ⟨hrange, hknown⟩
    refine ⟨?_, lastKnown_step hrange hknown e⟩
    rw [(a.buckets_step e).1]
    exact hrange.step e
  · exact h.numeric.same_refl

end Announcing

/-- **Buckets announce every change and nothing else.** Whatever numbers buckets hold, a call at
any reading of the clock announces exactly once what it leads to if the snapshots before and after
it differ, and announces nothing if they are equal.  So if the amounts are in range, as those of
buckets always are (`in_range_and_restored`), then after every run the snapshot that was announced
last, or the one at the start if none was, is equal to the state. -/
theorem announces_changes {b : Buckets Float}
    (hnumbers : ∀ (key : String) (l : Level Float), b.levels[key]? = some l →
      l.tokens.isNaN = false) :
    (∀ (told : List (Snapshot Float)) (e : Instant × BucketCall),
      let next := (Announcing.step ⟨b, told⟩ e).1
      next.announced = told ++
        if b.snapshot.same next.buckets.snapshot then [] else [next.buckets.snapshot]) ∧
    ((∀ (key : String) (l : Level Float), b.levels[key]? = some l →
        zero ≤ l.tokens ∧ l.tokens ≤ ofCount b.plan.capacity) →
      ∀ events : List (Instant × BucketCall),
        let last := (run Announcing.step ⟨b, []⟩ events).1
        (last.announced.getLast?.getD b.snapshot).same last.buckets.snapshot = true) := by
  refine ⟨?_, ?_⟩
  · intro told e
    refine Announcing.announced_step (a := ⟨b, told⟩) (fun key l hl => ?_) e
    exact Double.exists_worth_of_isNaN (hnumbers key l hl)
  · intro hrange events
    exact Announcing.lastKnown_run hrange events

/-- Two and a half of four tokens are there at first, and half a token more every second. -/
def followed : Buckets Float :=
  .restore restoredPlan [("edge", ⟨2.5, ⟨0⟩⟩)]

/-- A request is denied and only refills, one finds no level and is denied as well, one finds none
and is granted something, a return finds a level, and a sweep drops what is full. -/
def followedCalls : List (Instant × BucketCall) :=
  [(⟨500000000⟩, .request "edge" 3 false), (⟨500000000⟩, .require "core" 5),
    (⟨500000000⟩, .acquire "core" 1 false), (⟨600000000⟩, .giveBack "edge" 2),
    (⟨600000000⟩, .available "edge"), (⟨600000000⟩, .sweep true)]

/-- Of six calls four change something, and the last of them leads to the state at the end. -/
theorem announces_changes_fourOfSix :
    let last := (run Announcing.step ⟨followed, []⟩ followedCalls).1
    (∀ (key : String) (l : Level Float), followed.levels[key]? = some l →
      l.tokens.isNaN = false) ∧
    (∀ (key : String) (l : Level Float), followed.levels[key]? = some l →
      zero ≤ l.tokens ∧ l.tokens ≤ ofCount followed.plan.capacity) ∧
    (Announcing.step ⟨followed, []⟩ (⟨500000000⟩, .request "edge" 3 false)).1.announced.length = 1 ∧
    last.announced.length = 4 ∧
    (last.announced.getLast?.getD followed.snapshot).same last.buckets.snapshot = true := by
  intro last
  have hlevel : ∀ (key : String) (l : Level Float), followed.levels[key]? = some l →
      l = ⟨2.5, ⟨0⟩⟩ := by
    intro key l hl
    have hlevels : followed.levels =
        (∅ : Std.ExtTreeMap String (Level Float)).insert "edge" ⟨2.5, ⟨0⟩⟩ := rfl
    rw [hlevels, Std.ExtTreeMap.getElem?_insert] at hl
    split at hl
    · exact (Option.some.inj hl).symm
    · rw [Std.ExtTreeMap.getElem?_empty] at hl
      cases hl
  have hnumbers : ∀ (key : String) (l : Level Float), followed.levels[key]? = some l →
      l.tokens.isNaN = false := by
    intro key l hl
    rw [hlevel key l hl]
    decide +kernel
  have hrange : ∀ (key : String) (l : Level Float), followed.levels[key]? = some l →
      zero ≤ l.tokens ∧ l.tokens ≤ ofCount followed.plan.capacity := by
    intro key l hl
    rw [hlevel key l hl]
    decide +kernel
  obtain ⟨hone, hrun⟩ := announces_changes hnumbers
  refine ⟨hnumbers, hrange, ?_, ?_, hrun hrange followedCalls⟩
  · rw [hone [] (⟨500000000⟩, .request "edge" 3 false)]
    decide +kernel
  · decide +kernel

end Admission
