import Admission.Proofs.BucketRun
import Admission.Proofs.FloatAmounts

/-!
# Spending what a bucket holds

While the clock stands still nothing comes into a bucket, so it is spent like a purse: each request
is granted out of what the ones before it left.  Amounts are fractions and only whole tokens are
seen and granted, yet no rounding is seen either, whatever was stored and however the clock ran.

* `Buckets.available_step_taking` — a call that takes tokens, of this key or of another one: what it
  tells to have granted is missing from what the key had.
* `Buckets.available_run_taking` — so what is granted to a key during a run at one reading, and what
  is left of it, are together what it had.
* `Buckets.request_exact_local` — a request as a whole, also as to the entries that are stored.
-/

namespace Admission

namespace Buckets

variable {α : Type} [Amount α] [LawfulAmount α] {now : Instant}

/-- What a call that takes tokens grants to a key is missing from what the key had. -/
theorem available_step_taking {call : BucketCall} (h : call.taking?.isSome = true)
    (b : Buckets α) (key : String) (now : Instant) :
    (if call.key? = some key then (b.step (now, call)).2.tokens else 0) +
        ((b.step (now, call)).1.available key now).toNat =
      (b.available key now).toNat := by
  obtain ⟨⟨k, n, partly⟩, htaking⟩ := Option.isSome_iff_exists.mp h
  obtain ⟨hkey, _, _⟩ := of_taking htaking
  rw [step_taking htaking, hkey]
  by_cases hk : k = key
  · subst hk
    rw [if_pos rfl, tokens_told_take htaking, Nat.add_comm]
    exact available_take_add_granted b k n partly now
  · rw [if_neg fun heq => hk (Option.some.inj heq), Nat.zero_add]
    exact congrArg UInt32.toNat (available_take_of_ne (Ne.symm hk) b n partly now now)

/-- What is granted to a key at one reading is missing from what it had. -/
theorem available_run_taking {events : List (Instant × BucketCall)}
    (h : ∀ e ∈ events, e.1 = now ∧ e.2.taking?.isSome = true) (b : Buckets α) (key : String) :
    grantedTo key events (run step b events).2 +
        ((run step b events).1.available key now).toNat =
      (b.available key now).toNat := by
  induction events generalizing b with
  | nil => exact Nat.zero_add _
  | cons e rest ih =>
    obtain ⟨t, call⟩ := e
    obtain ⟨⟨rfl, htaking⟩, hrest⟩ := List.forall_mem_cons.mp h
    rw [run_cons, grantedTo_cons, Nat.add_assoc, ih hrest]
    exact available_step_taking htaking b key t

/-- **A request is exact and touches nothing else.** Whatever buckets hold, and at whatever reading
of the clock: a request is granted all that it asks for if the bucket of its key shows as much, else
what is shown if it is content with fewer, and nothing if it is not.  What it is granted is missing
afterwards; the entries of all other keys are as they were, and its own key gets one only if it is
granted something.  So whatever calls take tokens at this reading, of this key and of others, are
granted no more of this key together than was shown at first. -/
theorem request_exact_local (b : Buckets Float) (key : String) (n : Count) (partly : Bool)
    (now : Instant) :
    let before := b.available key now
    let granted := (b.request key n partly now).answer
    let after := (b.request key n partly now).after
    (n ≤ before → granted = n) ∧
    (before < n → granted = if partly then before else 0) ∧
    (after.available key now).toNat + granted.toNat = before.toNat ∧
    (∀ k ≠ key, after.levels[k]? = b.levels[k]?) ∧
    (after.levels[key]?.isSome ↔ b.levels[key]?.isSome ∨ 0 < granted) ∧
    ∀ events : List (Instant × BucketCall),
      (∀ e ∈ events, e.1 = now ∧ e.2.taking?.isSome = true) →
      grantedTo key events (run step b events).2 +
          ((run step b events).1.available key now).toNat =
        before.toNat := by
  intro before granted after
  have hanswer : granted = b.granted key n partly now := by
    show (b.take key n partly now).answer.granted = _
    rw [answer_take]
  have hgranted : granted = grantable before n partly := by
    rw [hanswer, granted_eq_grantable]
  refine ⟨?_, ?_, ?_, ?_, ?_, ?_⟩
  · intro hle
    rw [hgranted, grantable, if_pos hle]
  · intro hless
    rw [hgranted, grantable, if_neg (UInt32.not_le.mpr hless)]
  · rw [hanswer]
    exact available_take_add_granted b key n partly now
  · intro k hk
    show (b.take key n partly now).after.levels[k]? = _
    rw [getElem?_take, if_neg fun h => hk h.1]
  · rw [hanswer]
    exact isSome_getElem?_take
  · intro events hevents
    exact available_run_taking hevents b key

/-- Up to sixty tokens, three quarters of a token more every second. -/
def purse : Buckets Float :=
  .restore ⟨60, 0.75, none, by decide, rfl⟩ [("edge", ⟨2.75, ⟨0⟩⟩)]

/-- At one second the bucket holds three and a half tokens, and five calls want some. -/
def spending : List (Instant × BucketCall) :=
  [(⟨1000000000⟩, .request "edge" 2 true), (⟨1000000000⟩, .require "core" 40),
    (⟨1000000000⟩, .require "edge" 2), (⟨1000000000⟩, .acquire "edge" 5 true),
    (⟨1000000000⟩, .request "edge" 1 false)]

/-- Of three whole tokens one request gets two and another one the third; the others get none. -/
theorem request_exact_local_spending :
    let b := purse
    b.available "edge" ⟨1000000000⟩ = 3 ∧
      (b.request "edge" 4 true ⟨1000000000⟩).answer = 3 ∧
      (∀ e ∈ spending, e.1 = ⟨1000000000⟩ ∧ e.2.taking?.isSome = true) ∧
      grantedTo "edge" spending (run step b spending).2 = 3 ∧
      ((run step b spending).1.available "edge" ⟨1000000000⟩).toNat = 0 := by
  intro b
  have hbefore : b.available "edge" ⟨1000000000⟩ = 3 := by decide +kernel
  have htaking : ∀ e ∈ spending, e.1 = ⟨1000000000⟩ ∧ e.2.taking?.isSome = true := by decide
  have hgranted : grantedTo "edge" spending (run step b spending).2 = 3 := by decide +kernel
  obtain ⟨-, hpartly, -, -, -, hrun⟩ := request_exact_local b "edge" 4 true ⟨1000000000⟩
  rw [hbefore] at hpartly hrun
  refine ⟨hbefore, hpartly (by decide), htaking, hgranted, ?_⟩
  have htogether := hrun spending htaking
  rw [hgranted] at htogether
  exact Nat.add_left_cancel htogether

end Buckets

end Admission
