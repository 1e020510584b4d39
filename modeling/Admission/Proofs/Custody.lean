import Admission.Proofs.Ceiling

/-!
# Permits in the hands of callers

A caller that gives permits back says how many, not which, and the cell undoes its newest grants.
So a cell keeps count of how many permits are out, and not of when those that are out were granted.

* `Lot`, `Custody` — the permits that a run hands out, each with the reading of its grant and that
  of its return.  What is given back was granted to the same operation and is still held; which of
  the lots it is taken from is left open.
* `Backed` — what the permits of a group and its cell have to do with each other: of the permits
  granted from a counted stamp on, all that the cell does not hold have been given back since.
* `kept_le_permits_add_returned` — hence the permits of a group that are granted within one window
  and never returned exceed the rate at most by what is returned within that window and was granted
  before it.  They do exceed it (`kept_exceeds_permits`): the cell forgets a grant of the window in
  the place of the older one.
-/

namespace Admission

variable {ω : Type}

/-! ## Lots -/

/-- Permits that were granted to an operation together, and the reading at which they were given
back, if they were. -/
structure Lot (ω : Type) where
  op : ω
  granted : Instant
  permits : Nat
  returned : Option Instant

namespace Lot

/-- The permits of the lots that meet `q`. -/
def sum (q : Lot ω → Bool) : List (Lot ω) → Nat
  | [] => 0
  | lot :: rest => (if q lot then lot.permits else 0) + sum q rest

variable {q : Lot ω → Bool} {lots : List (Lot ω)}

@[simp] theorem sum_nil : sum q [] = 0 := rfl

@[simp] theorem sum_cons (lot : Lot ω) (rest : List (Lot ω)) :
    sum q (lot :: rest) = (if q lot then lot.permits else 0) + sum q rest := rfl

theorem sum_append_singleton (lots : List (Lot ω)) (lot : Lot ω) :
    sum q (lots ++ [lot]) = sum q lots + (if q lot then lot.permits else 0) := by
  induction lots with
  | nil => simp
  | cons first rest ih =>
    rw [List.cons_append, sum_cons, sum_cons, ih, Nat.add_assoc]

theorem sum_congr {p : Lot ω → Bool} (h : ∀ lot ∈ lots, q lot = p lot) :
    sum q lots = sum p lots := by
  induction lots with
  | nil => rfl
  | cons lot rest ih =>
    rw [sum_cons, sum_cons, h lot List.mem_cons_self,
      ih fun x hx => h x (List.mem_cons_of_mem _ hx)]

theorem sum_eq_zero (h : ∀ lot ∈ lots, q lot = false) : sum q lots = 0 := by
  induction lots with
  | nil => rfl
  | cons lot rest ih =>
    rw [sum_cons, h lot List.mem_cons_self, ih fun x hx => h x (List.mem_cons_of_mem _ hx)]
    rfl

/-- A lot as it is granted. -/
def fresh (op : ω) (now : Instant) (permits : Nat) : Lot ω := ⟨op, now, permits, none⟩

/-- Granted to an operation that meets `p`, at a reading that meets `r`. -/
def grantedIn (p : ω → Bool) (r : Instant → Bool) (lot : Lot ω) : Bool :=
  p lot.op && r lot.granted

/-- Given back by an operation that meets `p`, at a reading that meets `r`. -/
def returnedIn (p : ω → Bool) (r : Instant → Bool) (lot : Lot ω) : Bool :=
  p lot.op && lot.returned.any r

/-- Granted at a reading that meets `r` and never given back. -/
def keptIn (p : ω → Bool) (r : Instant → Bool) (lot : Lot ω) : Bool :=
  lot.grantedIn p r && lot.returned.isNone

/-- Given back within one window and granted before it. -/
def carriedInto (p : ω → Bool) (start : Instant) (window : Span) (lot : Lot ω) : Bool :=
  lot.returnedIn p (start.inWindow window) && lot.granted < start

theorem sum_grantedIn_fresh (p : ω → Bool) (r : Instant → Bool) (lots : List (Lot ω)) (op : ω)
    (now : Instant) (permits : Nat) :
    sum (grantedIn p r) (lots ++ [fresh op now permits]) =
      sum (grantedIn p r) lots + (if p op && r now then permits else 0) :=
  sum_append_singleton lots _

theorem sum_returnedIn_fresh (p : ω → Bool) (r : Instant → Bool) (lots : List (Lot ω)) (op : ω)
    (now : Instant) (permits : Nat) :
    sum (returnedIn p r) (lots ++ [fresh op now permits]) = sum (returnedIn p r) lots := by
  have hheld : returnedIn p r (fresh op now permits) = false := Bool.and_false _
  rw [sum_append_singleton, hheld]
  rfl

/-- A lot is granted, and given back after that, at readings up to `last`. -/
def Past (last : Instant) (lot : Lot ω) : Prop :=
  lot.granted ≤ last ∧ ∀ t ∈ lot.returned, lot.granted ≤ t ∧ t ≤ last

theorem Past.mono {last now : Instant} {lot : Lot ω} (h : lot.Past last) (hle : last ≤ now) :
    lot.Past now :=
  ⟨Int.le_trans h.1 hle, fun t ht => ⟨(h.2 t ht).1, Int.le_trans (h.2 t ht).2 hle⟩⟩

theorem past_fresh (op : ω) (now : Instant) (permits : Nat) : (fresh op now permits).Past now :=
  ⟨Int.le_refl _, fun _ ht => absurd ht (by simp [fresh])⟩

/-- A lot that is given back within one window was granted there, unless it is carried into it. -/
theorem Past.grantedIn_of_returnedIn {last start : Instant} {window : Span} {p : ω → Bool}
    {lot : Lot ω} (h : lot.Past last) (hreturned : lot.returnedIn p (start.inWindow window) = true)
    (hcarried : lot.carriedInto p start window = false) :
    lot.grantedIn p (start.inWindow window) = true := by
  rw [carriedInto, hreturned, Bool.true_and, decide_eq_false_iff_not] at hcarried
  obtain ⟨hp, hin⟩ := Bool.and_eq_true_iff.mp hreturned
  obtain ⟨t, ht, hin⟩ := (Option.any_eq_true _ _).mp hin
  have hle := (h.2 t ht).1
  rw [grantedIn, hp, Bool.true_and, Instant.inWindow_iff]
  rw [Instant.inWindow_iff] at hin
  simp only [Instant.le_iff_nanos, Instant.lt_iff_nanos] at hle hcarried
  omega

/-- Within one window a lot is granted and either kept or given back some time, or it is carried
into the window. -/
theorem Past.permits_le {last : Instant} {lot : Lot ω} (h : lot.Past last) (p : ω → Bool)
    (start : Instant) (window : Span) :
    (if lot.keptIn p (start.inWindow window) then lot.permits else 0) +
        (if lot.returnedIn p (start.inWindow window) then lot.permits else 0) ≤
      (if lot.grantedIn p (start.inWindow window) then lot.permits else 0) +
        (if lot.carriedInto p start window then lot.permits else 0) := by
  by_cases hreturned : lot.returnedIn p (start.inWindow window) = true
  · have hkept : lot.keptIn p (start.inWindow window) = false := by
      obtain ⟨t, ht, _⟩ := (Option.any_eq_true _ _).mp (Bool.and_eq_true_iff.mp hreturned).2
      simp [keptIn, ht]
    rw [if_pos hreturned, hkept, if_neg Bool.false_ne_true, Nat.zero_add]
    by_cases hcarried : lot.carriedInto p start window = true
    · rw [if_pos hcarried]
      exact Nat.le_add_left _ _
    · rw [if_pos (h.grantedIn_of_returnedIn hreturned (Bool.eq_false_iff.mpr hcarried))]
      exact Nat.le_add_right _ _
  · rw [if_neg hreturned, Nat.add_zero]
    by_cases hkept : lot.keptIn p (start.inWindow window) = true
    · rw [if_pos hkept, if_pos (Bool.and_eq_true_iff.mp hkept).1]
      exact Nat.le_add_right _ _
    · rw [if_neg hkept]
      exact Nat.zero_le _

theorem sum_keptIn_add_returnedIn_le {last : Instant} (p : ω → Bool) (start : Instant)
    (window : Span) (h : ∀ lot ∈ lots, lot.Past last) :
    sum (keptIn p (start.inWindow window)) lots + sum (returnedIn p (start.inWindow window)) lots ≤
      sum (grantedIn p (start.inWindow window)) lots + sum (carriedInto p start window) lots := by
  induction lots with
  | nil => exact Nat.le_refl _
  | cons lot rest ih =>
    obtain ⟨hlot, hrest⟩ := List.forall_mem_cons.mp h
    have hhead := hlot.permits_le p start window
    have htail := ih hrest
    simp only [sum_cons]
    omega

/-- Nothing lies beyond the reading, so in a window that holds it lies all that lies from the start
of the window on. -/
theorem sum_inWindow_of_past {now start : Instant} {window : Span}
    (hpast : ∀ lot ∈ lots, lot.Past now) (hnow : start.inWindow window now = true)
    (p : ω → Bool) :
    sum (grantedIn p (start.inWindow window)) lots = sum (grantedIn p (start ≤ ·)) lots ∧
      sum (returnedIn p (start.inWindow window)) lots = sum (returnedIn p (start ≤ ·)) lots := by
  have hin : ∀ t, t ≤ now → start.inWindow window t = decide (start ≤ t) := by
    intro t ht
    rw [Instant.inWindow_iff] at hnow
    rw [Bool.eq_iff_iff, Instant.inWindow_iff, decide_eq_true_eq, Instant.le_iff_nanos]
    rw [Instant.le_iff_nanos] at ht
    omega
  constructor
  · refine sum_congr fun lot hlot => ?_
    rw [grantedIn, grantedIn, hin _ (hpast lot hlot).1]
  · refine sum_congr fun lot hlot => ?_
    have hreturned := (hpast lot hlot).2
    rw [returnedIn, returnedIn]
    cases hback : lot.returned with
    | none => rfl
    | some t => rw [Option.any_some, Option.any_some, hin t (hreturned t hback).2]

end Lot

/-- An operation gives back `n` permits at a reading, out of lots that it holds: each of them is
left alone or split into a part that is kept and one that is returned. -/
inductive GivesBack (op : ω) (now : Instant) : Nat → List (Lot ω) → List (Lot ω) → Prop where
  | nil : GivesBack op now 0 [] []
  | leave (lot : Lot ω) {n : Nat} {lots after : List (Lot ω)} (h : GivesBack op now n lots after) :
      GivesBack op now n (lot :: lots) (lot :: after)
  | split (granted : Instant) (kept back : Nat) {n : Nat} {lots after : List (Lot ω)}
      (h : GivesBack op now n lots after) :
      GivesBack op now (back + n) (⟨op, granted, kept + back, none⟩ :: lots)
        (⟨op, granted, kept, none⟩ :: ⟨op, granted, back, some now⟩ :: after)

namespace GivesBack

variable {op : ω} {now : Instant} {n : Nat} {lots after : List (Lot ω)}

/-- Giving back changes nothing about what was granted. -/
theorem sum_grantedIn (h : GivesBack op now n lots after) (p : ω → Bool) (r : Instant → Bool) :
    Lot.sum (Lot.grantedIn p r) after = Lot.sum (Lot.grantedIn p r) lots := by
  induction h with
  | nil => rfl
  | leave lot _ ih => rw [Lot.sum_cons, Lot.sum_cons, ih]
  | split granted kept back _ ih =>
    have hlot (k : Nat) (back? : Option Instant) :
        Lot.grantedIn p r ⟨op, granted, k, back?⟩ = (p op && r granted) := rfl
    rw [Lot.sum_cons, Lot.sum_cons, Lot.sum_cons, hlot, hlot, hlot, ih]
    dsimp only
    split <;> omega

theorem sum_returnedIn (h : GivesBack op now n lots after) (p : ω → Bool) (r : Instant → Bool) :
    Lot.sum (Lot.returnedIn p r) after =
      Lot.sum (Lot.returnedIn p r) lots + (if p op && r now then n else 0) := by
  induction h with
  | nil => simp
  | leave lot _ ih => rw [Lot.sum_cons, Lot.sum_cons, ih, Nat.add_assoc]
  | split granted kept back _ ih =>
    have hheld (k : Nat) : Lot.returnedIn p r ⟨op, granted, k, none⟩ = false := Bool.and_false _
    have hback : Lot.returnedIn p r ⟨op, granted, back, some now⟩ = (p op && r now) := rfl
    rw [Lot.sum_cons, Lot.sum_cons, Lot.sum_cons, hheld, hheld, hback, ih,
      if_neg Bool.false_ne_true, if_neg Bool.false_ne_true]
    dsimp only
    split <;> omega

theorem past (h : GivesBack op now n lots after) (hpast : ∀ lot ∈ lots, lot.Past now) :
    ∀ lot ∈ after, lot.Past now := by
  induction h with
  | nil => exact hpast
  | leave lot _ ih =>
    obtain ⟨hlot, hrest⟩ := List.forall_mem_cons.mp hpast
    exact List.forall_mem_cons.mpr ⟨hlot, ih hrest⟩
  | split granted kept back _ ih =>
    obtain ⟨hlot, hrest⟩ := List.forall_mem_cons.mp hpast
    refine List.forall_mem_cons.mpr ⟨⟨hlot.1, fun _ ht => absurd ht (by simp)⟩,
      List.forall_mem_cons.mpr ⟨⟨hlot.1, fun t ht => ?_⟩, ih hrest⟩⟩
    rw [← Option.mem_some_iff.mp ht]
    exact ⟨hlot.1, Int.le_refl _⟩

end GivesBack

/-! ## Custody over a run -/

/-- What a call and its answer do to the lots: a request adds what it is granted, and what is given
back is taken from lots that the operation holds. -/
def Handed : (Instant × Call ω) × Answer → List (Lot ω) → List (Lot ω) → Prop
  | ((now, .request op _ _), .permits answer), lots, after =>
    after = lots ++ [.fresh op now answer.granted.toNat]
  | ((now, .giveBack op n), _), lots, after => GivesBack op now n.toNat lots after
  | _, lots, after => after = lots

/-- The lots that calls and their answers leave behind, where no operation gives back more than it
holds. -/
inductive Custody : List ((Instant × Call ω) × Answer) → List (Lot ω) → Prop where
  | nil : Custody [] []
  | snoc {trace : List ((Instant × Call ω) × Answer)} {lots after : List (Lot ω)}
      (h : Custody trace lots) (x : (Instant × Call ω) × Answer) (hx : Handed x lots after) :
      Custody (trace ++ [x]) after

theorem Custody.of_nil {lots : List (Lot ω)} (h : Custody [] lots) : lots = [] := by
  generalize heq : [] = trace at h
  cases h with
  | nil => rfl
  | snoc => simp at heq

theorem Custody.of_append_singleton {trace : List ((Instant × Call ω) × Answer)}
    {x : (Instant × Call ω) × Answer} {after : List (Lot ω)} (h : Custody (trace ++ [x]) after) :
    ∃ lots, Custody trace lots ∧ Handed x lots after := by
  generalize heq : trace ++ [x] = whole at h
  cases h with
  | nil => exact absurd heq (by simp)
  | snoc h y hy =>
    obtain ⟨rfl, hxy⟩ := List.append_inj' heq rfl
    rw [List.singleton_inj.mp hxy]
    exact ⟨_, h, hy⟩

/-! ## The lots of a group and its cell -/

namespace Store

variable {s : Store} {rules : List (Rule ω)} {op : ω} {n : Count} {partly : Bool}
  {now t : Instant}

/-- From a counted stamp on, a request adds what it is granted to the cells it counts in. -/
theorem tally_since_acquire (key : CellKey) (hpolicy : s.policy = .sliding) (hwf : s.Wf)
    (hw : 0 < key.window.nanos) (ht : now.cutoff key.window ≤ t) :
    Grant.tally (t ≤ ·) ((s.acquire rules op n partly now).1.cell key).kept =
      Grant.tally (t ≤ ·) (s.cell key).kept +
        (if key ∈ implicated rules op ∧ t ≤ now then (s.granted rules op n partly now).toNat
          else 0) := by
  rw [cell_acquire]
  by_cases hkey : key ∈ implicated rules op
  · by_cases hgranted : 0 < s.granted rules op n partly now
    · have hle := counted_add_granted_le_most hkey hgranted
      simp only [hkey, hgranted, true_and, if_true]
      exact WindowCell.tally_since_record hw ((hwf key).policy_eq.trans hpolicy) ht hle
    · rw [Count.pos_iff, Nat.pos_iff_ne_zero, not_not] at hgranted
      rw [if_neg (by simp [Count.pos_iff, hgranted]), hgranted, ite_self, Nat.add_zero]
  · simp [hkey]

/-- From a counted stamp on, giving back takes as many permits as are given back, down to none. -/
theorem tally_since_giveBack (key : CellKey) (hwf : s.Wf) (hw : 0 < key.window.nanos)
    (ht : now.cutoff key.window ≤ t) :
    Grant.tally (t ≤ ·) ((s.giveBack rules op n now).cell key).kept =
      Grant.tally (t ≤ ·) (s.cell key).kept -
        (if key ∈ implicated rules op then n.toNat else 0) := by
  rw [cell_giveBack]
  by_cases hkey : key ∈ implicated rules op
  · by_cases hn : n = 0
    · simp [hn]
    · simp only [hkey, hn, ne_eq, not_false_eq_true, and_self, if_true]
      exact WindowCell.tally_giveBack (hwf key).ordered (fun _ hs => live_of_cutoff_le hw ht hs) n
  · simp [hkey]

/-- From a counted stamp on, a sweep takes nothing: a cell that it drops counts nothing. -/
theorem tally_since_sweep (key : CellKey) (hw : 0 < key.window.nanos)
    (ht : now.cutoff key.window ≤ t) :
    Grant.tally (t ≤ ·) ((s.sweep now).cell key).kept = Grant.tally (t ≤ ·) (s.cell key).kept := by
  rw [cell_sweep]
  split
  · next hdrained =>
    have hmono : Grant.tally (t ≤ ·) (s.cell key).kept ≤ s.counted now key :=
      Grant.tally_mono (fun _ hs => live_of_cutoff_le hw ht (of_decide_eq_true hs)) _
    rw [counted_eq_zero_of_isDrained hdrained, Nat.le_zero] at hmono
    rw [hmono, WindowCell.kept_empty, Grant.tally_nil]
  · rfl

end Store

/-- A sliding limiter on the rules of a list, and the lots that it has handed out. -/
structure Backed (rules : List (Rule ω)) (r : Rule ω) (g : Grouping ω) (rate : BurstRate)
    (group : GroupKey) (last : Instant) (l : Limiter ω) (lots : List (Lot ω)) : Prop where
  rules_eq : l.rules = rules
  policy : l.store.policy = .sliding
  wf : l.store.Wf
  past : ∀ lot ∈ lots, lot.Past last
  /-- What was granted from a counted stamp on is in the cell or has been given back since. -/
  granted_le : ∀ t, last.cutoff rate.window ≤ t →
    Lot.sum (Lot.grantedIn (inGroup r g group) (t ≤ ·)) lots ≤
      Grant.tally (t ≤ ·) (l.store.cell (rateKey r g group rate)).kept +
        Lot.sum (Lot.returnedIn (inGroup r g group) (t ≤ ·)) lots
  /-- What was granted within one window is within the rate or has been given back there. -/
  within : ∀ start : Instant,
    Lot.sum (Lot.grantedIn (inGroup r g group) (start.inWindow rate.window)) lots ≤
      rate.permits.toNat +
        Lot.sum (Lot.returnedIn (inGroup r g group) (start.inWindow rate.window)) lots

namespace Backed

variable {rules : List (Rule ω)} {r : Rule ω} {g : Grouping ω} {rate : BurstRate}
  {group : GroupKey} {last now : Instant} {l : Limiter ω} {lots after : List (Lot ω)}

theorem new (rules : List (Rule ω)) (r : Rule ω) (g : Grouping ω) (rate : BurstRate)
    (group : GroupKey) (last : Instant) :
    Backed rules r g rate group last (.new rules .sliding) [] where
  rules_eq := rfl
  policy := rfl
  wf := Store.wf_empty .sliding
  past := fun _ hlot => absurd hlot List.not_mem_nil
  granted_le := fun _ _ => Nat.zero_le _
  within := fun _ => Nat.zero_le _

theorem mono (h : Backed rules r g rate group last l lots) (hle : last ≤ now) :
    Backed rules r g rate group now l lots where
  rules_eq := h.rules_eq
  policy := h.policy
  wf := h.wf
  past := fun lot hlot => (h.past lot hlot).mono hle
  granted_le := fun t ht => h.granted_le t (Int.le_trans (Instant.cutoff_mono rate.window hle) ht)
  within := h.within

/-- A grant in a window that holds the reading: all permits of the group from its start on that the
cell does not hold have been given back, and the cell has room for the grant. -/
theorem within_request (hnames : DistinctNames rules) (hr : r ∈ rules) (hg : g ∈ r.groupings)
    (hrate : rate ∈ g.rates) (h : Backed rules r g rate group now l lots) {op : ω} {n : Count}
    {partly : Bool} (hop : inGroup r g group op = true) {start : Instant}
    (hnow : start.inWindow rate.window now = true) :
    Lot.sum (Lot.grantedIn (inGroup r g group) (start.inWindow rate.window)) lots +
        (l.store.granted l.rules op n partly now).toNat ≤
      rate.permits.toNat +
        Lot.sum (Lot.returnedIn (inGroup r g group) (start.inWindow rate.window)) lots := by
  obtain ⟨rfl, _, _, hpast, hgranted_le, hwithin⟩ := h
  by_cases hgranted : 0 < l.store.granted l.rules op n partly now
  · have hkey := (hnames.mem_implicated_iff hr hg hrate).mpr hop
    have hroom := hnames.counted_add_granted_le hr hg hrate hkey hgranted
    have hcutoff : now.cutoff rate.window ≤ start := by
      rw [Instant.inWindow_iff] at hnow
      show now.nanos - rate.window.nanos + 1 ≤ start.nanos
      omega
    have hcell : Grant.tally (start ≤ ·) (l.store.cell (rateKey r g group rate)).kept ≤
        l.store.counted now (rateKey r g group rate) :=
      Grant.tally_mono (fun _ ht =>
        live_of_cutoff_le rate.window_pos hcutoff (of_decide_eq_true ht)) _
    have hheld := hgranted_le start hcutoff
    obtain ⟨hfrom, hback⟩ := Lot.sum_inWindow_of_past hpast hnow (inGroup r g group)
    rw [hfrom, hback]
    omega
  · have hold := hwithin start
    rw [Count.pos_iff] at hgranted
    omega

theorem request (hnames : DistinctNames rules) (hr : r ∈ rules) (hg : g ∈ r.groupings)
    (hrate : rate ∈ g.rates) (h : Backed rules r g rate group now l lots) (op : ω) (n : Count)
    (partly : Bool) :
    Backed rules r g rate group now ⟨l.rules, (l.store.acquire l.rules op n partly now).1⟩
      (lots ++ [.fresh op now (l.store.granted l.rules op n partly now).toNat]) where
  rules_eq := h.rules_eq
  policy := Store.policy_acquire.trans h.policy
  wf := h.wf.acquire l.rules op n partly now
  past := by
    intro lot hlot
    rcases List.mem_append.mp hlot with hlot | hlot
    · exact h.past lot hlot
    · rw [List.mem_singleton.mp hlot]
      exact Lot.past_fresh op now _
  granted_le := by
    intro t ht
    have hold := h.granted_le t ht
    rw [Store.tally_since_acquire (rateKey r g group rate) h.policy h.wf rate.window_pos ht,
      Lot.sum_grantedIn_fresh, Lot.sum_returnedIn_fresh]
    simp only [h.rules_eq, hnames.mem_implicated_iff hr hg hrate, Bool.and_eq_true,
      decide_eq_true_eq]
    omega
  within := by
    intro start
    rw [Lot.sum_grantedIn_fresh, Lot.sum_returnedIn_fresh]
    split
    · next hin =>
      obtain ⟨hop, hnow⟩ := Bool.and_eq_true_iff.mp hin
      exact h.within_request hnames hr hg hrate hop hnow
    · exact h.within start

theorem giveBack (hnames : DistinctNames rules) (hr : r ∈ rules) (hg : g ∈ r.groupings)
    (hrate : rate ∈ g.rates) (h : Backed rules r g rate group now l lots) {op : ω} {n : Count}
    (hback : GivesBack op now n.toNat lots after) :
    Backed rules r g rate group now ⟨l.rules, l.store.giveBack l.rules op n now⟩ after where
  rules_eq := h.rules_eq
  policy := Store.policy_giveBack.trans h.policy
  wf := h.wf.giveBack l.rules op n now
  past := hback.past h.past
  granted_le := by
    intro t ht
    have hold := h.granted_le t ht
    rw [Store.tally_since_giveBack (rateKey r g group rate) h.wf rate.window_pos ht,
      hback.sum_grantedIn, hback.sum_returnedIn]
    by_cases htnow : t ≤ now
    · -- what the cell loses is what has been given back
      simp only [h.rules_eq, hnames.mem_implicated_iff hr hg hrate, htnow, decide_true,
        Bool.and_true]
      omega
    · have hnone : Lot.sum (Lot.grantedIn (inGroup r g group) (t ≤ ·)) lots = 0 := by
        refine Lot.sum_eq_zero fun lot hlot => ?_
        have hlate : ¬ t ≤ lot.granted := fun htl => htnow (Int.le_trans htl (h.past lot hlot).1)
        simp [Lot.grantedIn, hlate]
      rw [hnone]
      exact Nat.zero_le _
  within := by
    intro start
    have hold := h.within start
    rw [hback.sum_grantedIn, hback.sum_returnedIn]
    omega

theorem sweep (h : Backed rules r g rate group now l lots) :
    Backed rules r g rate group now ⟨l.rules, l.store.sweep now⟩ lots where
  rules_eq := h.rules_eq
  policy := h.policy
  wf := h.wf.sweep now
  past := h.past
  granted_le := by
    intro t ht
    rw [Store.tally_since_sweep (rateKey r g group rate) rate.window_pos ht]
    exact h.granted_le t ht
  within := h.within

/-- A call keeps the lots of a group and its cell in step. -/
theorem step (hnames : DistinctNames rules) (hr : r ∈ rules) (hg : g ∈ r.groupings)
    (hrate : rate ∈ g.rates) (h : Backed rules r g rate group last l lots)
    (e : Instant × Call ω) (hle : last ≤ e.1) (hx : Handed (e, (l.step e).2) lots after) :
    Backed rules r g rate group e.1 (l.step e).1 after := by
  obtain ⟨now, c⟩ := e
  have hnow : Backed rules r g rate group now l lots := h.mono hle
  cases c with
  | request op n partly =>
    have hafter : after = lots ++ [.fresh op now (l.request op n partly now).2.granted.toNat] := hx
    rw [hafter, Limiter.granted_request]
    exact hnow.request hnames hr hg hrate op n partly
  | available op =>
    have hafter : after = lots := hx
    rw [hafter]
    exact hnow
  | giveBack op n => exact hnow.giveBack hnames hr hg hrate hx
  | sweep =>
    have hafter : after = lots := hx
    rw [hafter]
    exact hnow.sweep

end Backed

/-- **Kept permits exceed a rate only by what is carried into the window.** On rules with distinct
names and under a clock that never goes back, where no operation gives back more than it holds: the
permits that a sliding limiter grants to a group within one window, and that are never given back,
are at most those of the rate and those that are given back within the window and were granted
before it. -/
theorem kept_le_permits_add_returned {rules : List (Rule ω)} (hnames : DistinctNames rules)
    {calls : List (Instant × Call ω)} (hclock : Chronological calls) {lots : List (Lot ω)}
    (hlots : Custody (calls.zip (run Limiter.step (.new rules .sliding) calls).2) lots)
    {r : Rule ω} (hr : r ∈ rules) {g : Grouping ω} (hg : g ∈ r.groupings) {rate : BurstRate}
    (hrate : rate ∈ g.rates) (group : GroupKey) (start : Instant) :
    Lot.sum (Lot.keptIn (inGroup r g group) (start.inWindow rate.window)) lots ≤
      rate.permits.toNat +
        Lot.sum (Lot.carriedInto (inGroup r g group) start rate.window) lots := by
  obtain ⟨last, hlast⟩ := run_trace
    (P := fun last l trace => ∀ lots, Custody trace lots →
      Backed rules r g rate group last l lots)
    (fun last l trace e h hle after hafter => by
      obtain ⟨lots, hlots, hx⟩ := hafter.of_append_singleton
      exact (h lots hlots).step hnames hr hg hrate e hle hx)
    (fun last lots hlots => by
      rw [hlots.of_nil]
      exact Backed.new rules r g rate group last)
    hclock
  have hbacked := hlast lots hlots
  have hsplit := Lot.sum_keptIn_add_returnedIn_le (inGroup r g group) start rate.window hbacked.past
  have hwithin := hbacked.within start
  omega

/-! ### A return of an older grant

Three permits a second for two callers.  The first takes two at 0 s and the second takes one at
0.9 s; at 0.95 s the first gives one of its two back, and the cell undoes the one of 0.9 s. -/

namespace LateReturn

def grouping : Grouping Bool := .undivided "global" [.perUnit 3 .second]

def rule : Rule Bool := .everything "api" [grouping]

def calls : List (Instant × Call Bool) :=
  [(⟨0⟩, .request true 2 false), (⟨900000000⟩, .request false 1 false),
    (⟨950000000⟩, .giveBack true 1), (⟨1000000000⟩, .request true 3 true)]

def lots : List (Lot Bool) :=
  [⟨true, ⟨0⟩, 1, none⟩, ⟨true, ⟨0⟩, 1, some ⟨950000000⟩⟩, ⟨false, ⟨900000000⟩, 1, none⟩,
    ⟨true, ⟨1000000000⟩, 3, none⟩]

theorem distinctNames : DistinctNames [rule] := by
  refine ⟨by decide, fun r hr => ?_⟩
  rw [List.mem_singleton.mp hr]
  decide

theorem chronological : Chronological calls := by
  unfold Chronological
  decide

theorem answers : (run Limiter.step (.new [rule] .sliding) calls).2 =
    [.permits ⟨2, 3, 2, none⟩, .permits ⟨1, 1, 1, none⟩, .done, .permits ⟨3, 3, 3, none⟩] := by
  decide +kernel

theorem custody : Custody (calls.zip (run Limiter.step (.new [rule] .sliding) calls).2) lots := by
  rw [answers]
  have hfirst := Custody.nil.snoc
    ((⟨0⟩, .request true 2 false), .permits ⟨2, 3, 2, none⟩) rfl
  have hsecond := hfirst.snoc
    ((⟨900000000⟩, .request false 1 false), .permits ⟨1, 1, 1, none⟩) rfl
  have hback := hsecond.snoc ((⟨950000000⟩, .giveBack true 1), .done)
    (GivesBack.split ⟨0⟩ 1 1 (.leave ⟨false, ⟨900000000⟩, 1, none⟩ .nil))
  exact hback.snoc ((⟨1000000000⟩, .request true 3 true), .permits ⟨3, 3, 3, none⟩) rfl

end LateReturn

/-- In the second from 0.9 s on, one permit is given back that was granted before it, so at most
three and one are out. -/
theorem kept_le_permits_add_returned_lateReturn :
    DistinctNames [LateReturn.rule] ∧ Chronological LateReturn.calls ∧
      Custody (LateReturn.calls.zip
        (run Limiter.step (.new [LateReturn.rule] .sliding) LateReturn.calls).2) LateReturn.lots ∧
      Lot.sum (Lot.keptIn (inGroup LateReturn.rule LateReturn.grouping .whole)
        (Instant.inWindow ⟨900000000⟩ (.seconds 1))) LateReturn.lots ≤ 3 + 1 := by
  have hcarried : Lot.sum (Lot.carriedInto (inGroup LateReturn.rule LateReturn.grouping .whole)
      ⟨900000000⟩ (.seconds 1)) LateReturn.lots = 1 := by decide
  have hkept := kept_le_permits_add_returned LateReturn.distinctNames LateReturn.chronological
    LateReturn.custody List.mem_cons_self List.mem_cons_self List.mem_cons_self .whole ⟨900000000⟩
  exact ⟨LateReturn.distinctNames, LateReturn.chronological, LateReturn.custody,
    Nat.le_trans hkept (Nat.le_of_eq (congrArg (3 + ·) hcarried))⟩

/-- The second from 0.9 s on ends up with more permits out than the rate has: four of three. -/
theorem kept_exceeds_permits :
    DistinctNames [LateReturn.rule] ∧ Chronological LateReturn.calls ∧
      Custody (LateReturn.calls.zip
        (run Limiter.step (.new [LateReturn.rule] .sliding) LateReturn.calls).2) LateReturn.lots ∧
      ∃ rate ∈ LateReturn.grouping.rates, rate.permits.toNat <
        Lot.sum (Lot.keptIn (inGroup LateReturn.rule LateReturn.grouping .whole)
          (Instant.inWindow ⟨900000000⟩ rate.window)) LateReturn.lots :=
  ⟨LateReturn.distinctNames, LateReturn.chronological, LateReturn.custody,
    .perUnit 3 .second, List.mem_cons_self, by decide⟩

end Admission
