import Admission.Limiter

/-!
# Runs

A run feeds events to a state one after the other and collects the answers.  `run_invariant` turns
what a step keeps into what a run keeps, `run_until` does so for what is said of the state and the
last reading, `run_both_until` for what is said of two machines, and `run_trace` for what is said
also of all that was answered before.
`run_answers_eq` turns a relation that two machines keep step by step into equal answers over runs
of any length, and `run_answersTo_eq` does so where one of them goes through more events than the
other.

Two machines are described here: a limiter on fixed rules takes a `Call`, and a limiter that
follows a feed also lives through the replacement of its rules.  `run_feed` says that nothing else
tells them apart: what a follower answers is decided by the rules in force and its own store.
-/

namespace Admission

section Runs

variable {σ τ ε α β : Type}

/-- Feeds events to a state in order: the state at the end, and every answer on the way. -/
def run (step : σ → ε → σ × α) : σ → List ε → σ × List α
  | s, [] => (s, [])
  | s, e :: rest =>
    let first := step s e
    let later := run step first.1 rest
    (later.1, first.2 :: later.2)

variable {step : σ → ε → σ × α}

@[simp] theorem run_nil (s : σ) : run step s [] = (s, []) := rfl

theorem run_cons (s : σ) (e : ε) (rest : List ε) :
    run step s (e :: rest) =
      ((run step (step s e).1 rest).1, (step s e).2 :: (run step (step s e).1 rest).2) := rfl

/-- What is kept by every step of a run holds at its end. -/
theorem run_keeps {P : σ → Prop} {events : List ε} (hstep : ∀ s, ∀ e ∈ events, P s → P (step s e).1)
    {s : σ} (h : P s) : P (run step s events).1 := by
  induction events generalizing s with
  | nil => exact h
  | cons e rest ih =>
    rw [run_cons]
    apply ih
    · intro s e he
      exact hstep s e (List.mem_cons_of_mem _ he)
    · exact hstep s e List.mem_cons_self h

/-- What every step keeps holds at the end of every run. -/
theorem run_invariant {P : σ → Prop} (hstep : ∀ s e, P s → P (step s e).1) {s : σ} (h : P s)
    (events : List ε) : P (run step s events).1 :=
  run_keeps (fun s e _ => hstep s e) h

/-- The clock never goes back during the events. -/
def Chronological (events : List (Instant × ε)) : Prop := events.Pairwise fun a b => a.1 ≤ b.1

/-- What holds of a start at every reading, with nothing behind it, and is kept by every step at a
reading that is not before the last one, holds of the end of every run whose clock never goes back,
with the events and their answers behind it. -/
theorem run_trace {P : Instant → σ → List ((Instant × ε) × α) → Prop}
    {step : σ → Instant × ε → σ × α}
    (hstep : ∀ last s trace e, P last s trace → last ≤ e.1 →
      P e.1 (step s e).1 (trace ++ [(e, (step s e).2)]))
    {s : σ} (h : ∀ last, P last s []) {events : List (Instant × ε)}
    (hclock : Chronological events) :
    ∃ last, P last (run step s events).1 (events.zip (run step s events).2) := by
  -- the induction is for every trace and every reading before the events that are left
  have hrun : ∀ (events : List (Instant × ε)) last s trace, P last s trace →
      Chronological events → (∀ e ∈ events, last ≤ e.1) →
      ∃ last, P last (run step s events).1 (trace ++ events.zip (run step s events).2) := by
    intro events
    induction events with
    | nil =>
      intro last s trace h _ _
      refine ⟨last, ?_⟩
      simpa using h
    | cons e rest ih =>
      intro last s trace h hclock hlast
      obtain ⟨he, hrest⟩ := List.pairwise_cons.mp hclock
      have hfirst := hstep last s trace e h (hlast e List.mem_cons_self)
      obtain ⟨now, hnow⟩ := ih e.1 _ _ hfirst hrest he
      refine ⟨now, ?_⟩
      rw [run_cons, List.zip_cons_cons]
      simpa using hnow
  cases events with
  | nil => exact ⟨⟨0⟩, h ⟨0⟩⟩
  | cons e rest =>
    obtain ⟨he, _⟩ := List.pairwise_cons.mp hclock
    exact hrun (e :: rest) e.1 s [] (h e.1) hclock
      (List.forall_mem_cons.mpr ⟨Int.le_refl _, he⟩)

/-- What relates the starts of two machines at every reading, and is kept by every event that both
go through at a reading that is not before the last one, relates their ends at a reading that is not
after any that follows the run. -/
theorem run_both_until (left : σ → Instant × ε → σ × α) (right : τ → Instant × ε → τ × β)
    {R : Instant → σ → τ → Prop}
    (hstep : ∀ last s t e, R last s t → last ≤ e.1 → R e.1 (left s e).1 (right t e).1)
    {s : σ} {t : τ} (h : ∀ last, R last s t) {events : List (Instant × ε)}
    (hclock : Chronological events) {now : Instant} (hnow : ∀ e ∈ events, e.1 ≤ now) :
    ∃ last, last ≤ now ∧ R last (run left s events).1 (run right t events).1 := by
  have hrun : ∀ (events : List (Instant × ε)) last s t, R last s t → last ≤ now →
      Chronological events → (∀ e ∈ events, last ≤ e.1) → (∀ e ∈ events, e.1 ≤ now) →
      ∃ last, last ≤ now ∧ R last (run left s events).1 (run right t events).1 := by
    intro events
    induction events with
    | nil =>
      intro last s t h hle _ _ _
      exact ⟨last, hle, h⟩
    | cons e rest ih =>
      intro last s t h _ hclock hlast hnow
      obtain ⟨he, hrest⟩ := List.pairwise_cons.mp hclock
      obtain ⟨hfirst, hlater⟩ := List.forall_mem_cons.mp hnow
      rw [run_cons, run_cons]
      exact ih e.1 _ _ (hstep last s t e h (hlast e List.mem_cons_self)) hfirst hrest he hlater
  cases events with
  | nil => exact ⟨now, Int.le_refl _, h now⟩
  | cons e rest =>
    obtain ⟨he, _⟩ := List.pairwise_cons.mp hclock
    exact hrun (e :: rest) e.1 s t (h e.1) (hnow e List.mem_cons_self) hclock
      (List.forall_mem_cons.mpr ⟨Int.le_refl _, he⟩) hnow

/-- What holds of a start at every reading, and is kept by every step at a reading that is not
before the last one, holds of the end of every run whose clock never goes back, at a reading that is
not after any that follows the run. -/
theorem run_until {P : Instant → σ → Prop} {step : σ → Instant × ε → σ × α}
    (hstep : ∀ last s e, P last s → last ≤ e.1 → P e.1 (step s e).1)
    {s : σ} (h : ∀ last, P last s) {events : List (Instant × ε)} (hclock : Chronological events)
    {now : Instant} (hnow : ∀ e ∈ events, e.1 ≤ now) :
    ∃ last, last ≤ now ∧ P last (run step s events).1 :=
  -- the other machine has a single state
  run_both_until step (fun t _ => (t, ())) (R := fun last s (_ : Unit) => P last s) (t := ())
    (fun last s _ e => hstep last s e) h hclock hnow

/-- Two machines give the same answers over every run with a clock that never goes back, if a
relation at the last reading makes the next answers equal and carries over to the next reading. -/
theorem run_answers_eq {R : Instant → σ → τ → Prop}
    {left : σ → Instant × ε → σ × α} {right : τ → Instant × ε → τ × α}
    (hstep : ∀ last s t e, R last s t → last ≤ e.1 →
      R e.1 (left s e).1 (right t e).1 ∧ (left s e).2 = (right t e).2)
    {last : Instant} {s : σ} {t : τ} (h : R last s t) {events : List (Instant × ε)}
    (hclock : Chronological events) (hlast : ∀ e ∈ events, last ≤ e.1) :
    (run left s events).2 = (run right t events).2 := by
  induction events generalizing last s t with
  | nil => rfl
  | cons e rest ih =>
    obtain ⟨he, hrest⟩ := List.pairwise_cons.mp hclock
    obtain ⟨hR, hanswer⟩ := hstep last s t e h (hlast e List.mem_cons_self)
    rw [run_cons, run_cons, hanswer, ih hR hrest he]

/-- The answers of a run to the events that are looked at. -/
def answersTo (looked : ε → Bool) (events : List ε) (answers : List α) : List α :=
  ((events.zip answers).filter fun x => looked x.1).map (·.2)

theorem answersTo_cons (looked : ε → Bool) (e : ε) (events : List ε) (answer : α)
    (answers : List α) :
    answersTo looked (e :: events) (answer :: answers) =
      if looked e then answer :: answersTo looked events answers
      else answersTo looked events answers := by
  unfold answersTo
  rw [List.zip_cons_cons, List.filter_cons]
  split <;> rfl

/-- A machine that goes through more events than another gives the same answers to those that both
go through, if a relation at the last reading is kept by these on both sides and by the others on
one. -/
theorem run_answersTo_eq {R : Instant → σ → τ → Prop} {looked : Instant × ε → Bool}
    {left : σ → Instant × ε → σ × α} {right : τ → Instant × ε → τ × α}
    (hboth : ∀ last s t e, R last s t → last ≤ e.1 → looked e = true →
      R e.1 (left s e).1 (right t e).1 ∧ (left s e).2 = (right t e).2)
    (hone : ∀ last s t e, R last s t → last ≤ e.1 → looked e = false → R e.1 (left s e).1 t)
    {last : Instant} {s : σ} {t : τ} (h : R last s t) {events : List (Instant × ε)}
    (hclock : Chronological events) (hlast : ∀ e ∈ events, last ≤ e.1) :
    answersTo looked events (run left s events).2 = (run right t (events.filter looked)).2 := by
  induction events generalizing last s t with
  | nil => rfl
  | cons e rest ih =>
    obtain ⟨he, hrest⟩ := List.pairwise_cons.mp hclock
    have hle := hlast e List.mem_cons_self
    rw [run_cons, answersTo_cons, List.filter_cons]
    cases hlooked : looked e with
    | true =>
      obtain ⟨hR, hanswer⟩ := hboth last s t e h hle hlooked
      rw [if_pos rfl, if_pos rfl, run_cons, hanswer, ih hR hrest he]
    | false =>
      rw [if_neg Bool.false_ne_true, if_neg Bool.false_ne_true]
      exact ih (hone last s t e h hle hlooked) hrest he

end Runs

variable {ω : Type}

/-! ## Limiters on fixed rules -/

/-- A use of a limiter. -/
inductive Call (ω : Type) where
  | request (op : ω) (n : Count) (partly : Bool)
  | available (op : ω)
  | giveBack (op : ω) (n : Count)
  | sweep

/-- What the caller learns from a call. -/
inductive Answer where
  | permits (p : Permits)
  | room (n : Count)
  | done
deriving DecidableEq, Repr

namespace Limiter

/-- A limiter answers a call at a reading of the clock. -/
def step (l : Limiter ω) : Instant × Call ω → Limiter ω × Answer
  | (now, .request op n partly) =>
    ((l.request op n partly now).1, .permits (l.request op n partly now).2)
  | (now, .available op) => (l, .room (l.available op now))
  | (now, .giveBack op n) => (l.giveBack op n now, .done)
  | (now, .sweep) => ((l.sweep now).1, .done)

theorem rules_step (l : Limiter ω) (e : Instant × Call ω) : (l.step e).1.rules = l.rules := by
  obtain ⟨now, call⟩ := e
  cases call <;> rfl

end Limiter

/-- Three permits a second for everything, the rules of the witnesses below this library's
theorems. -/
def threeASecond : List (Rule Unit) :=
  [.everything "api" [.undivided "global" [.perUnit 3 .second]]]

/-! ## Limiters that follow a feed -/

/-- What happens to a limiter whose rules may be replaced. -/
inductive Event (ω : Type) where
  | call (c : Call ω)
  | publish (rules : List (Rule ω))

/-- A limiter whose rules are replaced takes the new rules and sweeps its store. -/
def Limiter.stepEvent (l : Limiter ω) : Instant × Event ω → Limiter ω × Answer
  | (now, .call c) => l.step (now, c)
  | (now, .publish rules) => (⟨rules, l.store.sweep now⟩, .done)

/-- A limiter whose rules nobody replaces lives through its calls only. -/
theorem Limiter.run_calls (l : Limiter ω) (calls : List (Instant × Call ω)) :
    (run Limiter.step l calls).2 =
      (run Limiter.stepEvent l (calls.map fun e => (e.1, .call e.2))).2 := by
  induction calls generalizing l with
  | nil => rfl
  | cons e rest ih =>
    rw [List.map_cons, run_cons, run_cons, ih]
    rfl

namespace Watched

variable {α σ : Type}

theorem subscriber?_set (w : Watched α σ) (id : Nat) (react : α → σ → σ) (value : α) :
    (w.set react value).subscriber? id = (w.subscriber? id).map (react value) := by
  unfold subscriber? set
  dsimp only
  induction w.subscribers with
  | nil => rfl
  | cons entry rest ih =>
    by_cases h : entry.1 = id
    · simp [h]
    · simpa [h, List.find?_cons] using ih

end Watched

namespace RuleFeed

/-- A feed lives through an event of the limiter with a number. -/
def step (id : Nat) (feed : RuleFeed ω) : Instant × Event ω → RuleFeed ω × Answer
  | (now, .call c) =>
    match RuleFeed.limiter? feed id with
    | some l => (RuleFeed.put feed id (l.step (now, c)).1, (l.step (now, c)).2)
    | none => (feed, .done)
  | (now, .publish rules) => (RuleFeed.publish feed rules now, .done)

/-- An event at the feed is the event at the limiter that follows it. -/
theorem limiter?_step {id : Nat} {feed : RuleFeed ω} {l : Limiter ω}
    (h : RuleFeed.limiter? feed id = some l) (e : Instant × Event ω) :
    RuleFeed.limiter? (step id feed e).1 id = some (l.stepEvent e).1 ∧
      (step id feed e).2 = (l.stepEvent e).2 := by
  obtain ⟨store, hstore, rfl⟩ := Option.map_eq_some_iff.mp h
  obtain ⟨now, event⟩ := e
  cases event with
  | call c =>
    -- a call leaves the rules alone, so the feed reads back what was put in
    unfold step
    rw [h]
    refine ⟨?_, rfl⟩
    show ((Watched.modify feed id _).subscriber? id).map _ = _
    rw [Watched.subscriber?_modify, hstore]
    have hrules := Limiter.rules_step ⟨feed.current, store⟩ (now, c)
    exact congrArg (fun rules => some (Limiter.mk rules _)) hrules.symm
  | publish rules =>
    refine ⟨?_, rfl⟩
    show ((Watched.set feed _ rules).subscriber? id).map _ = _
    rw [Watched.subscriber?_set, hstore]
    rfl

/-- Over every run, a follower answers as a limiter with the rules in force and its own store. -/
theorem run_feed {id : Nat} {feed : RuleFeed ω} {l : Limiter ω}
    (h : RuleFeed.limiter? feed id = some l) (events : List (Instant × Event ω)) :
    (run (step id) feed events).2 = (run Limiter.stepEvent l events).2 := by
  induction events generalizing feed l with
  | nil => rfl
  | cons e rest ih =>
    obtain ⟨hnext, hanswer⟩ := limiter?_step h e
    rw [run_cons, run_cons, hanswer, ih hnext]

/-- A follower that was just built has counted nothing. -/
theorem limiter?_follow_new (rules : List (Rule ω)) (policy : WindowPolicy) :
    RuleFeed.limiter? (follow (Watched.new rules) policy).2 (follow (Watched.new rules) policy).1 =
      some (Limiter.new rules policy) := rfl

end RuleFeed

end Admission
