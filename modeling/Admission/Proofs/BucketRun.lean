import Admission.Proofs.Buckets
import Admission.Proofs.Run

/-!
# Runs of buckets

Buckets take a `BucketCall` at a reading of the clock and give a `BucketAnswer`.  Three of the calls
take tokens; they differ in how they tell the caller what was found and granted, so `step_taking`
reduces all three to one request, and `tokens_told_take` says that each tells what was taken.
-/

namespace Admission

/-- A use of buckets. -/
inductive BucketCall where
  | request (key : String) (n : Count) (partly : Bool)
  | require (key : String) (n : Count)
  | acquire (key : String) (n : Count) (partly : Bool)
  | available (key : String)
  | giveBack (key : String) (n : Count)
  | sweep (force : Bool)
deriving DecidableEq, Repr

/-- What the caller learns from a call. -/
inductive BucketAnswer where
  | granted (n : Count)
  | required (outcome : Except Denial Count)
  | permits (p : Permits)
  | room (n : Count)
  | done
  | dropped (n : Nat)
deriving DecidableEq

namespace BucketCall

/-- The key that a call is about; a sweep is about all. -/
def key? : BucketCall → Option String
  | request key _ _ | require key _ | acquire key _ _ | available key | giveBack key _ => some key
  | sweep _ => none

/-- The tokens that a call gives back. -/
def returned : BucketCall → Nat
  | giveBack _ n => n.toNat
  | _ => 0

def isSweep : BucketCall → Bool
  | sweep _ => true
  | _ => false

/-- The tokens that a call asks for, and whether it is content with fewer, if it takes any. -/
def taking? : BucketCall → Option (String × Count × Bool)
  | request key n partly | acquire key n partly => some (key, n, partly)
  | require key n => some (key, n, false)
  | _ => none

end BucketCall

/-- The tokens that an answer grants. -/
def BucketAnswer.tokens : BucketAnswer → Nat
  | granted n => n.toNat
  | required (.ok n) => n.toNat
  | permits p => p.granted.toNat
  | _ => 0

/-- The tokens that a run grants to a key. -/
def grantedTo (key : String) (events : List (Instant × BucketCall))
    (answers : List BucketAnswer) : Nat :=
  ((events.zip answers).map fun x => if x.1.2.key? = some key then x.2.tokens else 0).sum

/-- The tokens that a run gives back to a key. -/
def returnedTo (key : String) (events : List (Instant × BucketCall)) : Nat :=
  (events.map fun e => if e.2.key? = some key then e.2.returned else 0).sum

theorem grantedTo_cons (key : String) (e : Instant × BucketCall)
    (events : List (Instant × BucketCall)) (answer : BucketAnswer) (answers : List BucketAnswer) :
    grantedTo key (e :: events) (answer :: answers) =
      (if e.2.key? = some key then answer.tokens else 0) + grantedTo key events answers := by
  unfold grantedTo
  rw [List.zip_cons_cons, List.map_cons, List.sum_cons]

theorem returnedTo_cons (key : String) (e : Instant × BucketCall)
    (events : List (Instant × BucketCall)) :
    returnedTo key (e :: events) =
      (if e.2.key? = some key then e.2.returned else 0) + returnedTo key events := by
  unfold returnedTo
  rw [List.map_cons, List.sum_cons]

namespace Buckets

variable {α : Type} [Amount α]

/-- Buckets answer a call at a reading of the clock. -/
def step (b : Buckets α) : Instant × BucketCall → Buckets α × BucketAnswer
  | (now, .request key n partly) =>
    ((b.request key n partly now).after, .granted (b.request key n partly now).answer)
  | (now, .require key n) =>
    ((b.require key n now).after, .required (b.require key n now).answer)
  | (now, .acquire key n partly) =>
    ((b.acquire key n partly now).after, .permits (b.acquire key n partly now).answer)
  | (now, .available key) => (b, .room (b.available key now))
  | (now, .giveBack key n) => ((b.giveBack key n now).after, .done)
  | (now, .sweep force) => ((b.sweep force now).after, .dropped (b.sweep force now).answer)

/-- How a call that takes tokens tells what was found and granted. -/
def told (call : BucketCall) (taken : Taken α) : BucketAnswer :=
  match call with
  | .require key n =>
    .required (if taken.granted < n then .error ⟨n, Amount.whole taken.found, .bucket key⟩
      else .ok taken.granted)
  | .acquire key n _ =>
    .permits ⟨n, Amount.whole taken.found, taken.granted,
      if Amount.whole taken.found < n then some (.bucket key) else none⟩
  | _ => .granted taken.granted

/-- A call that takes tokens of a key is about that key and gives nothing back. -/
theorem of_taking {call : BucketCall} {key : String} {n : Count} {partly : Bool}
    (h : call.taking? = some (key, n, partly)) :
    call.key? = some key ∧ call.returned = 0 ∧ call.isSweep = false := by
  cases call with
  | request k m p =>
    obtain ⟨rfl, _⟩ := Prod.mk.inj (Option.some.inj h)
    exact ⟨rfl, rfl, rfl⟩
  | require k m =>
    obtain ⟨rfl, _⟩ := Prod.mk.inj (Option.some.inj h)
    exact ⟨rfl, rfl, rfl⟩
  | acquire k m p =>
    obtain ⟨rfl, _⟩ := Prod.mk.inj (Option.some.inj h)
    exact ⟨rfl, rfl, rfl⟩
  | available k => cases h
  | giveBack k m => cases h
  | sweep force => cases h

/-- Every call that takes tokens is a request, told in its own way. -/
theorem step_taking {call : BucketCall} {key : String} {n : Count} {partly : Bool}
    (h : call.taking? = some (key, n, partly)) (b : Buckets α) (now : Instant) :
    b.step (now, call) =
      ((b.take key n partly now).after, told call (b.take key n partly now).answer) := by
  cases call with
  | request k m p =>
    obtain ⟨rfl, hrest⟩ := Prod.mk.inj (Option.some.inj h)
    obtain ⟨rfl, rfl⟩ := Prod.mk.inj hrest
    rfl
  | require k m =>
    obtain ⟨rfl, hrest⟩ := Prod.mk.inj (Option.some.inj h)
    obtain ⟨rfl, rfl⟩ := Prod.mk.inj hrest
    rfl
  | acquire k m p =>
    obtain ⟨rfl, hrest⟩ := Prod.mk.inj (Option.some.inj h)
    obtain ⟨rfl, rfl⟩ := Prod.mk.inj hrest
    rfl
  | available k => cases h
  | giveBack k m => cases h
  | sweep force => cases h

/-- What takes all or nothing and does not get all gets nothing. -/
theorem granted_eq_zero_of_lt {b : Buckets α} {key : String} {n : Count} {now : Instant}
    (h : b.granted key n false now < n) : b.granted key n false now = 0 := by
  unfold granted grantable at h ⊢
  split at h
  · exact absurd h (UInt32.lt_irrefl n)
  · next hless => rw [if_neg hless, if_neg Bool.false_ne_true]

/-- Every way of taking tokens tells how many were taken. -/
theorem tokens_told_take {call : BucketCall} {key : String} {n : Count} {partly : Bool}
    (h : call.taking? = some (key, n, partly)) (b : Buckets α) (now : Instant) :
    (told call (b.take key n partly now).answer).tokens = (b.granted key n partly now).toNat := by
  rw [answer_take]
  cases call with
  | request k m p => rfl
  | acquire k m p => rfl
  | require k m =>
    obtain ⟨rfl, hrest⟩ := Prod.mk.inj (Option.some.inj h)
    obtain ⟨rfl, rfl⟩ := Prod.mk.inj hrest
    unfold told
    dsimp only
    split
    · next hless =>
      -- an error grants nothing, and nothing was taken
      rw [granted_eq_zero_of_lt hless]
      rfl
    · rfl
  | available k => cases h
  | giveBack k m => cases h
  | sweep force => cases h

end Buckets

end Admission
