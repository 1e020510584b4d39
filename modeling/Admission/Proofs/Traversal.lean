import Mathlib.Data.List.Forall2
import Mathlib.Data.List.Nodup

/-!
# Lists that are worked through up to a fault

A function that may fail is taken along a list, and the first fault ends it.  Without a fault the
results stand in the order of the list, one for each of its elements.

* `bind_eq_ok_iff`, `bind_eq_error_iff` — what comes out of two steps, and where a fault is from.
* `mapM_eq_ok_iff` — what comes out of a list without a fault.
* `mapM_filter_eq_ok` — elements that are left out of the list are left out of the results.
* `eachNamed` — a list whose elements have names, none of which may come twice.
  `eachNamed_eq_ok_iff` says when there is no fault and what comes out, and `FirstFault` what stands
  before the first fault.
-/

namespace Admission

/-! ## Two steps -/

section Steps

variable {α β ε : Type} {first : Except ε α} {next : α → Except ε β}

theorem bind_eq_ok_iff {b : β} :
    first >>= next = .ok b ↔ ∃ a, first = .ok a ∧ next a = .ok b := by
  cases first with
  | error cause => simp [bind, Except.bind]
  | ok a => simp [bind, Except.bind]

theorem bind_eq_error_iff {cause : ε} :
    first >>= next = .error cause ↔
      first = .error cause ∨ ∃ a, first = .ok a ∧ next a = .error cause := by
  cases first with
  | error cause => simp [bind, Except.bind]
  | ok a => simp [bind, Except.bind]

end Steps

/-! ## One function along a list -/

section Mapped

variable {α β ε : Type} {f : α → Except ε β} {xs : List α} {ys : List β}

theorem mapM_cons_eq_ok {x : α} :
    (x :: xs).mapM f = .ok ys ↔
      ∃ y tail, f x = .ok y ∧ xs.mapM f = .ok tail ∧ ys = y :: tail := by
  rw [List.mapM_cons, bind_eq_ok_iff]
  constructor
  · rintro ⟨y, hx, hnext⟩
    obtain ⟨tail, hrest, hcons⟩ := bind_eq_ok_iff.mp hnext
    exact ⟨y, tail, hx, hrest, (Except.ok.inj hcons).symm⟩
  · rintro ⟨y, tail, hx, hrest, rfl⟩
    exact ⟨y, hx, bind_eq_ok_iff.mpr ⟨tail, hrest, rfl⟩⟩

/-- What is made of a list without a fault is made of each of its elements. -/
theorem mapM_eq_ok_iff : xs.mapM f = .ok ys ↔ xs.map f = ys.map .ok := by
  induction xs generalizing ys with
  | nil =>
    rw [List.mapM_nil, List.map_nil, eq_comm (a := []), List.map_eq_nil_iff]
    exact ⟨fun h => (Except.ok.inj h).symm, fun h => h ▸ rfl⟩
  | cons x rest ih =>
    rw [mapM_cons_eq_ok, List.map_cons]
    constructor
    · rintro ⟨y, tail, hx, hrest, rfl⟩
      rw [List.map_cons, hx, ih.mp hrest]
    · intro h
      obtain ⟨y, tail, rfl, hx, hrest⟩ := List.map_eq_cons_iff.mp h.symm
      exact ⟨y, tail, hx.symm, ih.mpr hrest.symm, rfl⟩

theorem mem_of_mapM_eq_ok (h : xs.mapM f = .ok ys) {y : β} :
    y ∈ ys ↔ ∃ x ∈ xs, f x = .ok y := by
  rw [← List.mem_map, mapM_eq_ok_iff.mp h, List.mem_map]
  constructor
  · intro hy
    exact ⟨y, hy, rfl⟩
  · rintro ⟨z, hz, heq⟩
    rw [← Except.ok.inj heq]
    exact hz

/-- Without a fault in a list there is none in any of its elements. -/
theorem exists_of_mapM_eq_ok (h : xs.mapM f = .ok ys) {x : α} (hx : x ∈ xs) : ∃ y, f x = .ok y := by
  have hmem : f x ∈ ys.map .ok := by
    rw [← mapM_eq_ok_iff.mp h]
    exact List.mem_map_of_mem hx
  obtain ⟨y, _, hy⟩ := List.mem_map.mp hmem
  exact ⟨y, hy.symm⟩

/-- There is no fault in a list if there is none in any of its elements. -/
theorem exists_mapM_eq_ok (h : ∀ x ∈ xs, ∃ y, f x = .ok y) : ∃ ys, xs.mapM f = .ok ys := by
  induction xs with
  | nil => exact ⟨[], rfl⟩
  | cons x rest ih =>
    obtain ⟨⟨y, hx⟩, hrest⟩ := List.forall_mem_cons.mp h
    obtain ⟨tail, htail⟩ := ih hrest
    exact ⟨y :: tail, mapM_cons_eq_ok.mpr ⟨y, tail, hx, htail, rfl⟩⟩

/-- A list of which some elements are left out makes the results that are made of the others. -/
theorem mapM_filter_eq_ok {p : α → Bool} {q : β → Bool} (h : xs.mapM f = .ok ys)
    (hsame : ∀ x y, f x = .ok y → q y = p x) : (xs.filter p).mapM f = .ok (ys.filter q) := by
  induction xs generalizing ys with
  | nil =>
    obtain rfl := Except.ok.inj h
    rfl
  | cons x rest ih =>
    obtain ⟨y, tail, hx, hrest, rfl⟩ := mapM_cons_eq_ok.mp h
    rw [List.filter_cons, List.filter_cons, hsame x y hx]
    split
    · exact mapM_cons_eq_ok.mpr ⟨y, tail.filter q, hx, ih hrest, rfl⟩
    · exact ih hrest

end Mapped

/-! ## Lists that are related element by element -/

section Related

variable {β γ δ : Type} {R : β → γ → Prop} {xs : List β} {ys : List γ}

theorem exists_of_forall₂ (h : List.Forall₂ R xs ys) {x : β} (hx : x ∈ xs) : ∃ y ∈ ys, R x y := by
  induction h with
  | nil => cases hx
  | @cons a b rest others hab _ ih =>
    rcases List.mem_cons.mp hx with rfl | hx
    · exact ⟨b, List.mem_cons_self, hab⟩
    · obtain ⟨y, hy, hxy⟩ := ih hx
      exact ⟨y, List.mem_cons_of_mem _ hy, hxy⟩

theorem map_eq_of_forall₂ {f : β → δ} {g : γ → δ} (hR : ∀ x y, R x y → f x = g y)
    (h : List.Forall₂ R xs ys) : xs.map f = ys.map g := by
  induction h with
  | nil => rfl
  | cons hab _ ih => rw [List.map_cons, List.map_cons, hR _ _ hab, ih]

end Related

/-! ## Lists of named elements -/

section Named

variable {σ β ε : Type}

/-- Makes something of each element of a list, whose names must differ from each other and from
those seen. -/
def eachNamed (name : σ → String) (duplicate : σ → ε) (make : σ → Except ε β) :
    List String → List σ → Except ε (List β)
  | _, [] => .ok []
  | seen, x :: rest =>
    if name x ∈ seen then .error (duplicate x)
    else do
      let y ← make x
      return y :: (← eachNamed name duplicate make (name x :: seen) rest)

variable {name : σ → String} {duplicate : σ → ε} {make : σ → Except ε β}
variable {seen : List String} {xs : List σ} {ys : List β}

/-- Names are new behind an element if they differ from its name and were new before it. -/
theorem forall_not_mem_cons_iff {x : σ} :
    (∀ z ∈ xs, name z ∉ name x :: seen) ↔
      name x ∉ xs.map name ∧ ∀ z ∈ xs, name z ∉ seen := by
  constructor
  · intro h
    refine ⟨fun hmem => ?_, fun z hz hseen => h z hz (List.mem_cons_of_mem _ hseen)⟩
    obtain ⟨z, hz, heq⟩ := List.mem_map.mp hmem
    exact h z hz (heq ▸ List.mem_cons_self)
  · rintro ⟨hfresh, hnew⟩ z hz hmem
    rcases List.mem_cons.mp hmem with heq | hseen
    · exact hfresh (heq ▸ List.mem_map_of_mem hz)
    · exact hnew z hz hseen

/-- There is no fault if no name comes twice and something is made of each element. -/
theorem eachNamed_eq_ok_iff {R : σ → β → Prop} (hmake : ∀ x y, make x = .ok y ↔ R x y) :
    eachNamed name duplicate make seen xs = .ok ys ↔
      (xs.map name).Nodup ∧ (∀ x ∈ xs, name x ∉ seen) ∧ List.Forall₂ R xs ys := by
  induction xs generalizing seen ys with
  | nil =>
    rw [List.forall₂_nil_left_iff]
    exact ⟨fun h => ⟨List.nodup_nil, List.forall_mem_nil _, (Except.ok.inj h).symm⟩,
      fun h => h.2.2 ▸ rfl⟩
  | cons x rest ih =>
    rw [eachNamed, List.map_cons, List.nodup_cons, List.forall_mem_cons,
      List.forall₂_cons_left_iff]
    by_cases hseen : name x ∈ seen
    · rw [if_pos hseen]
      exact iff_of_false (fun h => by cases h) fun h => h.2.1.1 hseen
    · rw [if_neg hseen, bind_eq_ok_iff]
      constructor
      · rintro ⟨y, hy, hnext⟩
        obtain ⟨tail, hrest, hcons⟩ := bind_eq_ok_iff.mp hnext
        obtain ⟨hnodup, hlater, hmade⟩ := ih.mp hrest
        obtain ⟨hfresh, hnew⟩ := forall_not_mem_cons_iff.mp hlater
        exact ⟨⟨hfresh, hnodup⟩, ⟨hseen, hnew⟩, y, tail, (hmake x y).mp hy, hmade,
          (Except.ok.inj hcons).symm⟩
      · rintro ⟨⟨hfresh, hnodup⟩, ⟨_, hnew⟩, y, tail, hy, hmade, rfl⟩
        have hlater := forall_not_mem_cons_iff.mpr ⟨hfresh, hnew⟩
        have hrest := ih.mpr ⟨hnodup, hlater, hmade⟩
        exact ⟨y, (hmake x y).mpr hy, bind_eq_ok_iff.mpr ⟨tail, hrest, rfl⟩⟩

/-- The first fault of a list of named elements: all before it have names of their own and are
valid; then a name comes a second time, or an element has a fault of its own. -/
inductive FirstFault (name : σ → String) (duplicate : σ → ε) (valid : σ → Prop)
    (fault : σ → ε → Prop) (xs : List σ) (cause : ε) : Prop where
  | duplicate {before : List σ} {x : σ} {after : List σ} (hxs : xs = before ++ x :: after)
      (hnames : (before.map name).Nodup) (hvalid : ∀ y ∈ before, valid y)
      (htwice : name x ∈ before.map name) (hcause : cause = duplicate x)
  | own {before : List σ} {x : σ} {after : List σ} (hxs : xs = before ++ x :: after)
      (hnames : ((before ++ [x]).map name).Nodup) (hvalid : ∀ y ∈ before, valid y)
      (hfault : fault x cause)

variable {valid : σ → Prop} {fault : σ → ε → Prop} {cause : ε}

/-- What ends the walk through a list is its first fault. -/
theorem FirstFault.of_eachNamed (hok : ∀ x y, make x = .ok y → valid x)
    (herror : ∀ x cause, make x = .error cause → fault x cause) (before : List σ)
    (hnames : (before.map name).Nodup) (hvalid : ∀ y ∈ before, valid y)
    (h : eachNamed name duplicate make (before.map name).reverse xs = .error cause) :
    FirstFault name duplicate valid fault (before ++ xs) cause := by
  -- the names seen are those of the elements that went well
  induction xs generalizing before with
  | nil => cases h
  | cons x rest ih =>
    rw [eachNamed] at h
    by_cases htwice : name x ∈ (before.map name).reverse
    · rw [if_pos htwice] at h
      exact .duplicate rfl hnames hvalid (List.mem_reverse.mp htwice) (Except.error.inj h).symm
    · rw [if_neg htwice] at h
      have hnext : ((before ++ [x]).map name).Nodup := by
        rw [List.map_append, List.map_singleton, ← List.concat_eq_append]
        exact hnames.concat fun hmem => htwice (List.mem_reverse.mpr hmem)
      rcases bind_eq_error_iff.mp h with hmake | ⟨y, hmake, hmore⟩
      · exact .own rfl hnext hvalid (herror x cause hmake)
      · rcases bind_eq_error_iff.mp hmore with htail | ⟨tail, _, hpure⟩
        · rw [List.append_cons]
          refine ih (before ++ [x]) hnext ?_ ?_
          · intro z hz
            rcases List.mem_append.mp hz with hz | hz
            · exact hvalid z hz
            · rw [List.mem_singleton.mp hz]
              exact hok x y hmake
          · rw [List.map_append, List.reverse_append]
            exact htail
        · cases hpure

theorem FirstFault.not_valid (h : FirstFault name duplicate valid fault xs cause)
    (hfault : ∀ x cause, fault x cause → ¬ valid x) :
    ¬ ((xs.map name).Nodup ∧ ∀ x ∈ xs, valid x) := by
  rintro ⟨hnodup, hvalid⟩
  cases h with
  | @duplicate before x after hxs _ _ htwice _ =>
    rw [hxs, List.map_append, List.map_cons] at hnodup
    exact (List.nodup_append.mp hnodup).2.2 _ htwice _ List.mem_cons_self rfl
  | @own before x after hxs _ _ hown =>
    refine hfault x cause hown (hvalid x ?_)
    rw [hxs]
    exact List.mem_append_right _ List.mem_cons_self

end Named

end Admission
