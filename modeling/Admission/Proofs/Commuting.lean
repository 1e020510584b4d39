import Admission.Proofs.Run
import Admission.Proofs.Store

/-!
# Operations that share no cell

The cells that an operation implicates are all that a call about it reads and all that it changes,
the cells that it opens included.  So two calls about operations that have no cell in common do not
notice each other.

* `Limiter.getElem?_step_of_not_mem` — a call leaves all other cells alone, also their existence.
* `Store.AgreeOn.step` — limiters that agree on the cells of an operation answer a call about it
  alike and agree on these cells afterwards.
* `Limiter.apart_calls_commute` — two calls about operations that are apart can be made in either
  order, with the same answers and the same limiter in the end.
-/

namespace Admission

variable {ω : Type}

/-- The operation that a call is about; a sweep is about none. -/
def Call.op? : Call ω → Option ω
  | request op _ _ | available op | giveBack op _ => some op
  | sweep => none

/-- Two operations have no cell in common. -/
def Apart (rules : List (Rule ω)) (a b : ω) : Prop :=
  ∀ key ∈ implicated rules a, key ∉ implicated rules b

theorem Apart.symm {rules : List (Rule ω)} {a b : ω} (h : Apart rules a b) : Apart rules b a :=
  fun key hb ha => h key ha hb

/-! ## What a call leaves alone -/

namespace Limiter

variable {l : Limiter ω} {e : Instant × Call ω} {op : ω} {key : CellKey}

theorem policy_step (l : Limiter ω) (e : Instant × Call ω) :
    (l.step e).1.store.policy = l.store.policy := by
  obtain ⟨now, call⟩ := e
  cases call with
  | request op n partly => exact Store.policy_acquire
  | available op => rfl
  | giveBack op n => exact Store.policy_giveBack
  | sweep => rfl

theorem getElem?_step_of_not_mem (hop : e.2.op? = some op) (hkey : key ∉ implicated l.rules op) :
    (l.step e).1.store.cells[key]? = l.store.cells[key]? := by
  obtain ⟨now, call⟩ := e
  cases call with
  | request op' n partly =>
    obtain rfl := Option.some.inj hop
    show (l.store.acquire l.rules op' n partly now).1.cells[key]? = _
    rw [Store.getElem?_acquire, if_neg hkey]
  | available op' => rfl
  | giveBack op' n =>
    obtain rfl := Option.some.inj hop
    show (l.store.giveBack l.rules op' n now).cells[key]? = _
    rw [Store.getElem?_giveBack, if_neg fun h => hkey h.2]
  | sweep => cases hop

/-- The same of the second of two calls. -/
theorem getElem?_step_step_of_not_mem {d : Instant × Call ω} (hop : e.2.op? = some op)
    (hkey : key ∉ implicated l.rules op) :
    ((l.step d).1.step e).1.store.cells[key]? = (l.step d).1.store.cells[key]? := by
  apply getElem?_step_of_not_mem hop
  rw [rules_step]
  exact hkey

/-- Limiters on the same rules with the same store are the same. -/
theorem eq_of_store {m : Limiter ω} (hrules : l.rules = m.rules) (hstore : l.store = m.store) :
    l = m := by
  obtain ⟨rules, s⟩ := l
  obtain ⟨rules', t⟩ := m
  obtain rfl : rules = rules' := hrules
  obtain rfl : s = t := hstore
  rfl

end Limiter

/-! ## What a call depends on -/

namespace Store

/-- Two stores of one policy that have the same cells under the given keys. -/
structure AgreeOn (keys : List CellKey) (s t : Store) : Prop where
  policy : s.policy = t.policy
  cells : ∀ key ∈ keys, s.cells[key]? = t.cells[key]?

namespace AgreeOn

variable {s t : Store} {rules : List (Rule ω)} {op : ω} {now : Instant} {key : CellKey}

theorem cell_eq (h : AgreeOn (implicated rules op) s t) (hkey : key ∈ implicated rules op) :
    s.cell key = t.cell key := by
  unfold Store.cell
  rw [h.policy, h.cells key hkey]

theorem left_eq (h : AgreeOn (implicated rules op) s t) (now : Instant) (c : Check)
    (hc : c ∈ checks rules op) : s.left now c = t.left now c := by
  unfold Store.left
  rw [used_eq, used_eq, h.cell_eq (mem_implicated.mpr ⟨c, hc, rfl⟩)]

theorem acquire (h : AgreeOn (implicated rules op) s t) (n : Count) (partly : Bool)
    (now : Instant) :
    AgreeOn (implicated rules op) (s.acquire rules op n partly now).1
        (t.acquire rules op n partly now).1 ∧
      (s.acquire rules op n partly now).2 = (t.acquire rules op n partly now).2 := by
  refine ⟨⟨?_, fun key hkey => ?_⟩, ?_⟩
  · rw [policy_acquire, policy_acquire, h.policy]
  · rw [getElem?_acquire, getElem?_acquire, if_pos hkey, if_pos hkey,
      granted_congr (h.left_eq now), h.cell_eq hkey]
  · exact answer_congr (h.left_eq now) n partly

theorem giveBack (h : AgreeOn (implicated rules op) s t) (n : Count) :
    AgreeOn (implicated rules op) (s.giveBack rules op n now) (t.giveBack rules op n now) where
  policy := by rw [policy_giveBack, policy_giveBack, h.policy]
  cells := by
    intro key hkey
    rw [getElem?_giveBack, getElem?_giveBack, h.cells key hkey]

/-- Limiters that agree on the cells of an operation answer a call about it alike, and agree on
these cells afterwards. -/
theorem step {l m : Limiter ω} {e : Instant × Call ω} (hop : e.2.op? = some op)
    (hrules : l.rules = m.rules) (h : AgreeOn (implicated l.rules op) l.store m.store) :
    AgreeOn (implicated l.rules op) (l.step e).1.store (m.step e).1.store ∧
      (l.step e).2 = (m.step e).2 := by
  obtain ⟨rules, s⟩ := l
  obtain ⟨rules', t⟩ := m
  obtain rfl : rules = rules' := hrules
  replace h : AgreeOn (implicated rules op) s t := h
  obtain ⟨now, call⟩ := e
  cases call with
  | request op' n partly =>
    obtain rfl := Option.some.inj hop
    obtain ⟨hafter, hanswer⟩ := h.acquire n partly now
    exact ⟨hafter, congrArg Answer.permits hanswer⟩
  | available op' =>
    obtain rfl := Option.some.inj hop
    exact ⟨h, congrArg Answer.room (available_congr (h.left_eq now))⟩
  | giveBack op' n =>
    obtain rfl := Option.some.inj hop
    exact ⟨h.giveBack n, rfl⟩
  | sweep => cases hop

end AgreeOn

end Store

namespace Limiter

variable {l : Limiter ω} {a b : ω} {first second : Instant × Call ω}

/-- A call about one of two operations that are apart leaves the cells of the other as they are. -/
theorem agreeOn_step (h : Apart l.rules a b) (ha : first.2.op? = some a) :
    Store.AgreeOn (implicated l.rules b) (l.step first).1.store l.store where
  policy := policy_step l first
  cells := fun key hkey => getElem?_step_of_not_mem ha (h.symm key hkey)

/-- A call is answered as if a call about an operation that is apart had not been made, and does
the same to its own cells. -/
theorem step_after_apart (h : Apart l.rules a b) (ha : first.2.op? = some a)
    (hb : second.2.op? = some b) :
    Store.AgreeOn (implicated l.rules b) ((l.step first).1.step second).1.store
        (l.step second).1.store ∧
      ((l.step first).1.step second).2 = (l.step second).2 := by
  have hrules := rules_step l first
  have hagree := agreeOn_step h ha
  rw [← hrules] at hagree ⊢
  exact hagree.step hb hrules

/-- **Calls that are apart commute.** Whatever the cells hold: two calls about operations that have
no cell in common, each at a reading of its own, are answered alike in either order, and either order
leaves the same limiter. -/
theorem apart_calls_commute (h : Apart l.rules a b) (ha : first.2.op? = some a)
    (hb : second.2.op? = some b) :
    ((l.step first).1.step second).2 = (l.step second).2 ∧
      ((l.step second).1.step first).2 = (l.step first).2 ∧
      ((l.step first).1.step second).1 = ((l.step second).1.step first).1 := by
  obtain ⟨hsecond, hanswer⟩ := step_after_apart h ha hb
  obtain ⟨hfirst, hanswer'⟩ := step_after_apart h.symm hb ha
  refine ⟨hanswer, hanswer', eq_of_store ?_ (Store.eq_of_cells ?_ fun key => ?_)⟩
  · rw [rules_step, rules_step, rules_step, rules_step]
  · rw [policy_step, policy_step, policy_step, policy_step]
  · -- a cell belongs to one of the operations, and the call about the other leaves it alone, or to
    -- none
    by_cases hkey : key ∈ implicated l.rules a
    · rw [getElem?_step_step_of_not_mem hb (h key hkey), hfirst.cells key hkey]
    · rw [getElem?_step_step_of_not_mem ha hkey]
      by_cases hkey' : key ∈ implicated l.rules b
      · exact hsecond.cells key hkey'
      · rw [getElem?_step_step_of_not_mem hb hkey', getElem?_step_of_not_mem ha hkey,
          getElem?_step_of_not_mem hb hkey']

/-- Three permits a second for each caller. -/
def ownOnly : List (Rule String) :=
  [.everything "api" [⟨"caller", .value, [.perUnit 3 .second]⟩]]

/-- A limiter of which one caller has taken two permits. -/
def takenByOne : Limiter String := ((new ownOnly .sliding).request "one" 2 false ⟨0⟩).1

/-- One caller takes what is left for it, and another one, which was never seen, asks for too
much. -/
theorem apart_calls_commute_callers :
    let first : Instant × Call String := (⟨500000000⟩, .request "one" 2 true)
    let second : Instant × Call String := (⟨500000000⟩, .request "other" 4 false)
    let limit : BurstRate := .perUnit 3 .second
    Apart takenByOne.rules "one" "other" ∧ first.2.op? = some "one" ∧
      second.2.op? = some "other" ∧
      ((takenByOne.step second).1.step first).2 =
        .permits ⟨2, 1, 1, some (.rate "api" "caller" 0 (.value "one") limit)⟩ ∧
      ((takenByOne.step first).1.step second).2 =
        .permits ⟨4, 3, 0, some (.rate "api" "caller" 0 (.value "other") limit)⟩ ∧
      ((takenByOne.step first).1.step second).1 = ((takenByOne.step second).1.step first).1 := by
  intro first second limit
  have hapart : Apart takenByOne.rules "one" "other" := by
    unfold Apart
    decide
  have hfirst : first.2.op? = some "one" := rfl
  have hsecond : second.2.op? = some "other" := rfl
  obtain ⟨hanswer, hanswer', hsame⟩ := apart_calls_commute hapart hfirst hsecond
  refine ⟨hapart, hfirst, hsecond, hanswer'.trans ?_, hanswer.trans ?_, hsame⟩
  · decide +kernel
  · decide +kernel

end Limiter

end Admission
