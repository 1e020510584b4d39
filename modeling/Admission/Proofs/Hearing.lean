import Admission.Watched
import Admission.Proofs.Run
import Mathlib.Data.List.Nodup

/-!
# What subscribers hear

Subscriptions come and go while a value is replaced.  A subscriber hears of a value exactly if it is
set after the subscription was made and before it was dropped, so what becomes of the subscriber can
be read off the calls alone: off the values set between the two (`valuesSet`).

An `Audience` is a watched value together with those who have left it, as they were when they did.
Numbers of subscriptions are never given out twice, which is what keeps a subscriber apart from
those who come after it (`Audience.Numbered`).

* `Audience.hears` — a subscriber through any calls: as long as it is not dropped it reacts to what
  is set, and once it is dropped nothing reaches it.
* `Audience.hears_once_subscribed` — the subscriber of any subscription in any run.
-/

namespace Admission

variable {α σ : Type}

/-! ## Looking up subscribers -/

namespace Watched

variable {w : Watched α σ} {id n : Nat} {s : σ}

/-- No two subscriptions have one number, and the next number is new. -/
structure Wf (w : Watched α σ) : Prop where
  nodup : (w.subscribers.map (·.1)).Nodup
  lt_nextId : ∀ entry ∈ w.subscribers, entry.1 < w.nextId

theorem wf_new (value : α) : (new value : Watched α σ).Wf := ⟨List.nodup_nil, nofun⟩

theorem mem_of_subscriber? (h : w.subscriber? id = some s) : (id, s) ∈ w.subscribers := by
  obtain ⟨⟨n, t⟩, hfind, rfl⟩ := Option.map_eq_some_iff.mp h
  have hn := List.find?_some hfind
  obtain rfl := of_decide_eq_true hn
  exact List.mem_of_find?_eq_some hfind

theorem subscriber?_eq_some_iff (h : w.Wf) :
    w.subscriber? id = some s ↔ (id, s) ∈ w.subscribers := by
  refine ⟨mem_of_subscriber?, fun hmem => ?_⟩
  have hnodup := h.nodup
  unfold subscriber?
  generalize w.subscribers = subscribers at hmem hnodup
  induction subscribers with
  | nil => cases hmem
  | cons entry rest ih =>
    obtain ⟨hentry, hrest⟩ := List.nodup_cons.mp hnodup
    rw [List.find?_cons]
    rcases List.mem_cons.mp hmem with rfl | hmem
    · rw [decide_eq_true rfl]
      rfl
    · have hne : entry.1 ≠ id := by
        intro heq
        apply hentry
        show entry.1 ∈ rest.map Prod.fst
        rw [heq]
        exact List.mem_map_of_mem hmem
      rw [decide_eq_false hne]
      exact ih hmem hrest

theorem subscriber?_eq_none_of_le (h : w.Wf) (hle : w.nextId ≤ id) : w.subscriber? id = none := by
  unfold subscriber?
  rw [Option.map_eq_none_iff, List.find?_eq_none]
  intro entry hentry heq
  have hlt := h.lt_nextId entry hentry
  rw [decide_eq_true_eq] at heq
  omega

theorem subscriber?_subscribe (h : w.Wf) (s : σ) (id : Nat) :
    (w.subscribe s).2.subscriber? id = if id = w.nextId then some s else w.subscriber? id := by
  have hfind : (w.subscribe s).2.subscriber? id =
      (w.subscriber? id).or (if w.nextId = id then some s else none) := by
    unfold subscriber? subscribe
    rw [List.find?_append, Option.map_or, List.find?_singleton]
    by_cases heq : w.nextId = id <;> simp [heq]
  rw [hfind]
  by_cases heq : id = w.nextId
  · rw [if_pos heq, if_pos heq.symm, subscriber?_eq_none_of_le h (Nat.le_of_eq heq.symm)]
    rfl
  · rw [if_neg heq, if_neg fun h => heq h.symm, Option.or_none]

theorem subscriber?_unsubscribe (w : Watched α σ) (n id : Nat) :
    (w.unsubscribe n).subscriber? id = if id = n then none else w.subscriber? id := by
  unfold subscriber? unsubscribe
  dsimp only
  rw [List.find?_filter]
  split
  · next heq =>
    rw [Option.map_eq_none_iff, List.find?_eq_none]
    intro entry _ h
    simp [heq] at h
  · next hne =>
    congr 2
    funext entry
    by_cases heq : entry.1 = id
    · simp [heq, hne]
    · simp [heq]

theorem Wf.subscribe (h : w.Wf) (s : σ) : (w.subscribe s).2.Wf where
  nodup := by
    unfold Watched.subscribe
    rw [List.map_append, List.nodup_append]
    refine ⟨h.nodup, List.nodup_singleton _, ?_⟩
    intro a ha b hb heq
    obtain ⟨entry, hentry, rfl⟩ := List.mem_map.mp ha
    have hlt := h.lt_nextId entry hentry
    rw [List.mem_singleton.mp hb] at heq
    exact Nat.ne_of_lt hlt heq
  lt_nextId := by
    intro entry hentry
    rcases List.mem_append.mp hentry with hentry | hentry
    · exact Nat.lt_succ_of_lt (h.lt_nextId entry hentry)
    · rw [List.mem_singleton.mp hentry]
      exact Nat.lt_succ_self _

theorem Wf.unsubscribe (h : w.Wf) (n : Nat) : (w.unsubscribe n).Wf where
  nodup := h.nodup.sublist (List.filter_sublist.map _)
  lt_nextId := fun entry hentry => h.lt_nextId entry (List.mem_filter.mp hentry).1

theorem Wf.set (h : w.Wf) (react : α → σ → σ) (value : α) : (w.set react value).Wf where
  nodup := by
    unfold Watched.set
    rw [List.map_map]
    exact h.nodup
  lt_nextId := by
    intro entry hentry
    obtain ⟨before, hbefore, rfl⟩ := List.mem_map.mp hentry
    exact h.lt_nextId before hbefore

end Watched

/-! ## Calls -/

/-- What is done to a watched value, through any of the handles on it. -/
inductive WatchCall (α σ : Type) where
  | set (value : α)
  | update (f : α → α)
  | subscribe (subscriber : σ)
  | drop (id : Nat)

namespace WatchCall

def subscribes : WatchCall α σ → Bool
  | subscribe _ => true
  | _ => false

def drops (id : Nat) : WatchCall α σ → Bool
  | drop n => n = id
  | _ => false

end WatchCall

/-- The values that calls set one after the other, where `current` was set before them. -/
def valuesSet (current : α) : List (WatchCall α σ) → List α
  | [] => []
  | .set value :: rest => value :: valuesSet value rest
  | .update f :: rest => f current :: valuesSet (f current) rest
  | .subscribe _ :: rest => valuesSet current rest
  | .drop _ :: rest => valuesSet current rest

/-- The value that was set last. -/
def lastSet (current : α) (calls : List (WatchCall α σ)) : α :=
  (valuesSet current calls).getLastD current

theorem valuesSet_cons (current : α) (c : WatchCall α σ) (rest : List (WatchCall α σ)) :
    valuesSet current (c :: rest) =
      valuesSet current [c] ++ valuesSet (lastSet current [c]) rest := by
  cases c <;> rfl

/-- The values that calls set before they drop a subscription. -/
def valuesHeard (id : Nat) (current : α) (calls : List (WatchCall α σ)) : List α :=
  valuesSet current (calls.takeWhile fun c => !c.drops id)

/-- A subscriber after it has reacted to values one by one. -/
def reactAll (react : α → σ → σ) (s : σ) (values : List α) : σ :=
  values.foldl (fun s value => react value s) s

/-- How many subscriptions were made, which is the number of the next one. -/
def subscriptions (calls : List (WatchCall α σ)) : Nat := calls.countP WatchCall.subscribes

/-- A watched value and the subscribers that have left it, as they were when they did. -/
structure Audience (α σ : Type) where
  watched : Watched α σ
  left : List (Nat × σ)

namespace Audience

variable {a : Audience α σ} {id : Nat} {s : σ}

def new (value : α) : Audience α σ := ⟨.new value, []⟩

def step (react : α → σ → σ) (a : Audience α σ) : WatchCall α σ → Audience α σ
  | .set value => { a with watched := a.watched.set react value }
  | .update f => { a with watched := a.watched.update react f }
  | .subscribe s => { a with watched := (a.watched.subscribe s).2 }
  | .drop id =>
    ⟨a.watched.unsubscribe id, a.left ++ ((a.watched.subscriber? id).map fun s => (id, s)).toList⟩

/-- A subscriber that has left, as it was when it did. -/
def leaver? (a : Audience α σ) (id : Nat) : Option σ :=
  (a.left.find? fun entry => entry.1 = id).map (·.2)

/-- The subscriber behind a number, also if it has left. -/
def member? (a : Audience α σ) (id : Nat) : Option σ := (a.watched.subscriber? id).or (a.leaver? id)

variable (react : α → σ → σ)

theorem current_foldl (a : Audience α σ) (calls : List (WatchCall α σ)) :
    (calls.foldl (step react) a).watched.current = lastSet a.watched.current calls := by
  unfold lastSet
  induction calls generalizing a with
  | nil => rfl
  | cons c rest ih =>
    rw [List.foldl_cons, ih]
    cases c with
    | set value => rw [valuesSet, List.getLastD_cons]; rfl
    | update f => rw [valuesSet, List.getLastD_cons]; rfl
    | subscribe s => rfl
    | drop n => rfl

theorem nextId_foldl (a : Audience α σ) (calls : List (WatchCall α σ)) :
    (calls.foldl (step react) a).watched.nextId = a.watched.nextId + subscriptions calls := by
  unfold subscriptions
  induction calls generalizing a with
  | nil => rfl
  | cons c rest ih =>
    rw [List.foldl_cons, ih, List.countP_cons]
    cases c with
    | subscribe s =>
      show a.watched.nextId + 1 + _ = a.watched.nextId + (_ + 1)
      omega
    | _ => rfl

/-- All numbers that were given out are below the next one, and who has left is gone. -/
structure Numbered (a : Audience α σ) : Prop where
  wf : a.watched.Wf
  left_lt : ∀ entry ∈ a.left, entry.1 < a.watched.nextId
  left_gone : ∀ entry ∈ a.left, a.watched.subscriber? entry.1 = none

theorem numbered_new (value : α) : (new value : Audience α σ).Numbered :=
  ⟨Watched.wf_new value, nofun, nofun⟩

theorem Numbered.set (h : a.Numbered) (value : α) : (a.step react (.set value)).Numbered where
  wf := h.wf.set react value
  left_lt := h.left_lt
  left_gone := fun entry hentry => by
    show (a.watched.set react value).subscriber? entry.1 = none
    rw [Watched.subscriber?_set, h.left_gone entry hentry]
    rfl

theorem Numbered.step (h : a.Numbered) (c : WatchCall α σ) : (a.step react c).Numbered := by
  cases c with
  | set value => exact h.set react value
  | update f => exact h.set react (f a.watched.current)
  | subscribe s =>
    refine ⟨h.wf.subscribe s, fun entry he => Nat.lt_succ_of_lt (h.left_lt entry he), ?_⟩
    intro entry hentry
    show (a.watched.subscribe s).2.subscriber? entry.1 = none
    rw [Watched.subscriber?_subscribe h.wf, if_neg (Nat.ne_of_lt (h.left_lt entry hentry))]
    exact h.left_gone entry hentry
  | drop n =>
    have hleft : ∀ entry ∈ (a.step react (.drop n)).left,
        entry ∈ a.left ∨ entry.1 = n ∧ a.watched.subscriber? n = some entry.2 := by
      intro entry hentry
      refine (List.mem_append.mp hentry).imp_right fun hentry => ?_
      obtain ⟨s, hs, rfl⟩ := Option.map_eq_some_iff.mp (Option.mem_toList.mp hentry)
      exact ⟨rfl, hs⟩
    refine ⟨h.wf.unsubscribe n, fun entry hentry => ?_, fun entry hentry => ?_⟩
    · rcases hleft entry hentry with hentry | ⟨rfl, hs⟩
      · exact h.left_lt entry hentry
      · exact h.wf.lt_nextId _ (Watched.mem_of_subscriber? hs)
    · show (a.watched.unsubscribe n).subscriber? entry.1 = none
      rw [Watched.subscriber?_unsubscribe]
      split
      · rfl
      · next hne =>
        rcases hleft entry hentry with hentry | ⟨heq, -⟩
        · exact h.left_gone entry hentry
        · exact absurd heq hne

theorem Numbered.foldl (h : a.Numbered) (calls : List (WatchCall α σ)) :
    (calls.foldl (Audience.step react) a).Numbered := by
  induction calls generalizing a with
  | nil => exact h
  | cons c rest ih => exact ih (h.step react c)

/-! ## What one call does to a subscriber -/

theorem leaver?_drop (a : Audience α σ) (n id : Nat) :
    (a.step react (.drop n)).leaver? id =
      (a.leaver? id).or (if id = n then a.watched.subscriber? n else none) := by
  unfold leaver? Audience.step
  dsimp only
  rw [List.find?_append, Option.map_or]
  congr 1
  cases a.watched.subscriber? n with
  | none => simp
  | some s => by_cases heq : id = n <;> simp [heq, eq_comm]

/-- Who has left before stays as it was. -/
theorem gone_step (h : a.Numbered) (hid : id < a.watched.nextId)
    (hgone : a.watched.subscriber? id = none) (c : WatchCall α σ) :
    (a.step react c).watched.subscriber? id = none ∧
      (a.step react c).leaver? id = a.leaver? id := by
  cases c with
  | set value | update f =>
    refine ⟨?_, rfl⟩
    show (a.watched.set react _).subscriber? id = none
    rw [Watched.subscriber?_set, hgone]
    rfl
  | subscribe s =>
    refine ⟨?_, rfl⟩
    show (a.watched.subscribe s).2.subscriber? id = none
    rw [Watched.subscriber?_subscribe h.wf, if_neg (Nat.ne_of_lt hid), hgone]
  | drop n =>
    constructor
    · show (a.watched.unsubscribe n).subscriber? id = none
      rw [Watched.subscriber?_unsubscribe, hgone, ite_self]
    · rw [leaver?_drop react]
      split
      · next heq => rw [← heq, hgone, Option.or_none]
      · exact Option.or_none

/-- A subscriber that is not dropped reacts to what is set. -/
theorem live_step (h : a.Numbered) (hlive : a.watched.subscriber? id = some s)
    {c : WatchCall α σ} (hc : c.drops id = false) :
    (a.step react c).watched.subscriber? id =
      some (reactAll react s (valuesSet a.watched.current [c])) := by
  cases c with
  | set value | update f =>
    show (a.watched.set react _).subscriber? id = _
    rw [Watched.subscriber?_set, hlive]
    rfl
  | subscribe t =>
    have hlt := h.wf.lt_nextId _ (Watched.mem_of_subscriber? hlive)
    show (a.watched.subscribe t).2.subscriber? id = _
    rw [Watched.subscriber?_subscribe h.wf, if_neg (Nat.ne_of_lt hlt), hlive]
    rfl
  | drop n =>
    show (a.watched.unsubscribe n).subscriber? id = _
    rw [Watched.subscriber?_unsubscribe, if_neg fun heq => ?_, hlive]
    · rfl
    · exact Bool.false_ne_true (hc.symm.trans (decide_eq_true heq.symm))

/-- A subscriber leaves as it was. -/
theorem leave_step (h : a.Numbered) (hlive : a.watched.subscriber? id = some s) :
    (a.step react (.drop id)).watched.subscriber? id = none ∧
      (a.step react (.drop id)).leaver? id = some s := by
  constructor
  · show (a.watched.unsubscribe id).subscriber? id = none
    rw [Watched.subscriber?_unsubscribe, if_pos rfl]
  · have hnew : a.leaver? id = none := by
      unfold leaver?
      rw [Option.map_eq_none_iff, List.find?_eq_none]
      intro entry hentry heq
      have hgone := h.left_gone entry hentry
      rw [of_decide_eq_true heq, hlive] at hgone
      cases hgone
    rw [leaver?_drop react, hnew, if_pos rfl, hlive]
    rfl

/-! ## What calls do to a subscriber -/

/-- Nothing reaches who has left. -/
theorem gone (h : a.Numbered) (hid : id < a.watched.nextId)
    (hgone : a.watched.subscriber? id = none) (calls : List (WatchCall α σ)) :
    (calls.foldl (step react) a).watched.subscriber? id = none ∧
      (calls.foldl (step react) a).leaver? id = a.leaver? id := by
  induction calls generalizing a with
  | nil => exact ⟨hgone, rfl⟩
  | cons c rest ih =>
    obtain ⟨hstep, hsame⟩ := gone_step react h hid hgone c
    have hnext : (a.step react c).watched.nextId = a.watched.nextId + subscriptions [c] :=
      nextId_foldl react a [c]
    rw [List.foldl_cons, ← hsame]
    exact ih (h.step react c) (by omega) hstep

/-- A subscriber through any calls: as long as it is not dropped it reacts to what is set, and once
it is dropped nothing reaches it. -/
theorem hears (h : a.Numbered) (hlive : a.watched.subscriber? id = some s)
    (calls : List (WatchCall α σ)) :
    (calls.foldl (step react) a).member? id =
        some (reactAll react s (valuesHeard id a.watched.current calls)) ∧
      (calls.foldl (step react) a).watched.subscriber? id =
        if calls.any (WatchCall.drops id) then none
        else some (reactAll react s (valuesHeard id a.watched.current calls)) := by
  induction calls generalizing a s with
  | nil =>
    refine ⟨?_, hlive⟩
    unfold member?
    rw [List.foldl_nil, hlive]
    rfl
  | cons c rest ih =>
    rw [List.foldl_cons, List.any_cons, valuesHeard, List.takeWhile_cons]
    cases hc : c.drops id with
    | true =>
      obtain ⟨n, rfl⟩ : ∃ n, c = .drop n := by
        cases c with
        | drop n => exact ⟨n, rfl⟩
        | _ => cases hc
      obtain rfl : n = id := of_decide_eq_true hc
      obtain ⟨hgone, hleaver⟩ := leave_step react h hlive
      have hid : n < (a.step react (.drop n)).watched.nextId :=
        h.wf.lt_nextId _ (Watched.mem_of_subscriber? hlive)
      obtain ⟨hgone, hsame⟩ := gone react (h.step react _) hid hgone rest
      refine ⟨?_, hgone⟩
      unfold member?
      rw [hgone, hsame, hleaver]
      rfl
    | false =>
      have hcurrent : (a.step react c).watched.current = lastSet a.watched.current [c] :=
        current_foldl react a [c]
      have hrest := ih (h.step react c) (live_step react h hlive hc)
      rw [hcurrent, reactAll, reactAll, ← List.foldl_append, valuesHeard, ← valuesSet_cons] at hrest
      exact hrest

/-- The subscriber of any subscription in a run that begins with a new value. -/
theorem hears_once_subscribed (initial : α) (before after : List (WatchCall α σ)) (s : σ) :
    let a := (before ++ .subscribe s :: after).foldl (step react) (new initial)
    let id := subscriptions before
    let heard := valuesHeard id (lastSet initial before) after
    a.member? id = some (reactAll react s heard) ∧
      a.watched.subscriber? id =
        if after.any (WatchCall.drops id) then none else some (reactAll react s heard) := by
  intro a id heard
  let b := before.foldl (step react) (new initial)
  have hb : b.Numbered := (numbered_new initial).foldl react before
  have hid : b.watched.nextId = id := (nextId_foldl react _ before).trans (Nat.zero_add _)
  have hcurrent : (b.step react (.subscribe s)).watched.current = lastSet initial before :=
    current_foldl react _ before
  have hlive : (b.step react (.subscribe s)).watched.subscriber? id = some s := by
    show (b.watched.subscribe s).2.subscriber? id = _
    rw [Watched.subscriber?_subscribe hb.wf, hid, if_pos rfl]
  have hhears := hears react (hb.step react _) hlive after
  rw [hcurrent] at hhears
  have ha : a = after.foldl (step react) (b.step react (.subscribe s)) := List.foldl_append
  rw [ha]
  exact hhears

end Audience

end Admission
