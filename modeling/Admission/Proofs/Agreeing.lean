import Admission.Follower
import Admission.Proofs.Answering
import Admission.Proofs.BucketRun
import Admission.Proofs.Commuting
import Admission.Proofs.FloatAmounts
import Admission.Proofs.Restoring
import Admission.Proofs.Run

/-!
# All ways to ask agree

Whether a request succeeds is decided in several places: a bucket compares what was granted with
what was asked for, a limiter looks for a constraint in the way as well, and the common surface does
so again for every kind of limiter.  All of them come down to one comparison, that of the number
asked for with what a look finds available; `Permits.Answers` says so of one answer, and each kind
of limiter is shown to give such answers, whatever its state.

* `Agree.of_answers` — where all answers are of this kind, every way to take exactly a number of
  permits leads to the same state and to the same verdict.
* `surfaces_agree` — they are of this kind for buckets, limiters and followers of a feed.
-/

namespace Admission

open Amount LawfulAmount

/-! ## Answers -/

theorem grantable_le_requested (room n : Count) (partly : Bool) : grantable room n partly ≤ n := by
  unfold grantable
  split
  · exact UInt32.le_refl n
  · next hshort =>
    split
    · exact UInt32.le_of_lt (UInt32.not_le.mp hshort)
    · rw [UInt32.le_iff_toNat_le, UInt32.toNat_zero]
      exact Nat.zero_le _

namespace Permits

/-- An answer to a request for `n` permits where a look finds `room`: as much is granted as there is
room for, and a constraint is named exactly if that is too little. -/
structure Answers (room n : Count) (partly : Bool) (p : Permits) : Prop where
  requested : p.requested = n
  available : p.available = room
  granted : p.granted = grantable room n partly
  limitedBy : p.limitedBy.isSome = true ↔ room < n

variable {room n : Count} {partly : Bool} {p : Permits}

theorem Answers.granted_of_room (h : p.Answers room n partly) (hroom : n ≤ room) :
    p.granted = n := by
  rw [h.granted]
  exact if_pos hroom

/-- Where there is room for all of it, a request is not refused. -/
theorem Answers.denial?_of_room (h : p.Answers room n partly) (hroom : n ≤ room) :
    p.denial? n = none := by
  have hnone : p.limitedBy = none := by
    rw [← Option.not_isSome_iff_eq_none, h.limitedBy, UInt32.not_lt]
    exact hroom
  unfold denial?
  rw [hnone]

/-- Where there is too little room, a request for all or nothing gets nothing. -/
theorem Answers.eq_of_short (h : p.Answers room n false) (hshort : room < n) :
    ∃ v, p = ⟨n, room, 0, some v⟩ := by
  obtain ⟨v, hv⟩ := Option.isSome_iff_exists.mp (h.limitedBy.mpr hshort)
  have hgranted : p.granted = 0 := by
    rw [h.granted]
    unfold grantable
    rw [if_neg (UInt32.not_le.mpr hshort), if_neg Bool.false_ne_true]
  refine ⟨v, ?_⟩
  rw [← h.requested, ← h.available, ← hgranted, ← hv]

theorem denial?_of_short {v : Violation} (hshort : room < n) :
    (⟨n, room, 0, some v⟩ : Permits).denial? n = some ⟨n, room, v⟩ := by
  have hpos : (0 : Count) < n := by
    rw [Count.pos_iff]
    exact Nat.zero_lt_of_lt (UInt32.lt_iff_toNat_lt.mp hshort)
  unfold denial?
  exact if_pos hpos

end Permits

/-! ## Agreement -/

/-- All ways to ask a limiter agree for `n` permits at a reading of the clock.  `required` is what a
method of its own that takes exactly so many comes to, and `value` what that answers if it takes
them. -/
structure Agree {σ ω β : Type} [Surface σ ω] (s : σ) (op : ω) (n : Count) (now : Instant)
    (required : σ × Except Denial β) (value : β) : Prop where
  /-- All lead to the same state. -/
  state : required.1 = (Surface.acquire s op n false now).1 ∧
    (Surface.require s op n now).1 = (Surface.acquire s op n false now).1
  /-- If a look finds enough, all succeed. -/
  enough : n ≤ Surface.available s op now →
    required.2 = .ok value ∧
      (Surface.require s op n now).2 = .ok (Surface.acquire s op n false now).2 ∧
      (Surface.acquire s op n false now).2.isComplete = true
  /-- If a look finds too little, none does, and all give the same reason. -/
  short : Surface.available s op now < n → ∃ v,
    (Surface.acquire s op n false now).2 = ⟨n, Surface.available s op now, 0, some v⟩ ∧
      required.2 = .error ⟨n, Surface.available s op now, v⟩ ∧
      (Surface.require s op n now).2 = .error ⟨n, Surface.available s op now, v⟩
  /-- Every answer is consistent with itself and with a look. -/
  permits (partly : Bool) : let p := (Surface.acquire s op n partly now).2
    p.requested = n ∧ p.available = Surface.available s op now ∧
      p.granted ≤ p.requested ∧ p.granted ≤ p.available ∧
      (p.limitedBy.isSome = true ↔ p.available < p.requested) ∧
      (p.isComplete = true ↔ p.granted = p.requested)

namespace Surface

variable {σ ω : Type} [Surface σ ω] {s : σ} {op : ω} {n : Count} {now : Instant}

theorem state_require (s : σ) (op : ω) (n : Count) (now : Instant) :
    (require s op n now).1 = (acquire s op n false now).1 := by
  unfold require
  dsimp only
  split <;> rfl

theorem require_of_denial {denial : Denial}
    (h : (acquire s op n false now).2.denial? n = some denial) :
    (require s op n now).2 = .error denial := by
  unfold require
  dsimp only
  rw [h]

theorem require_of_no_denial (h : (acquire s op n false now).2.denial? n = none) :
    (require s op n now).2 = .ok (acquire s op n false now).2 := by
  unfold require
  dsimp only
  rw [h]

end Surface

/-- Where answers go by what a look finds, all ways to ask agree. -/
theorem Agree.of_answers {σ ω β : Type} [Surface σ ω] {s : σ} {op : ω} {n : Count} {now : Instant}
    {required : σ × Except Denial β} {value : β}
    (hanswers : ∀ partly,
      (Surface.acquire s op n partly now).2.Answers (Surface.available s op now) n partly)
    (hstate : required.1 = (Surface.acquire s op n false now).1)
    (hok : n ≤ Surface.available s op now → required.2 = .ok value)
    (herror : ∀ v, Surface.available s op now < n →
      (Surface.acquire s op n false now).2 = ⟨n, Surface.available s op now, 0, some v⟩ →
        required.2 = .error ⟨n, Surface.available s op now, v⟩) :
    Agree s op n now required value where
  state := ⟨hstate, Surface.state_require s op n now⟩
  enough hroom := by
    have hwhole := hanswers false
    refine ⟨hok hroom, Surface.require_of_no_denial (hwhole.denial?_of_room hroom), ?_⟩
    exact decide_eq_true ((hwhole.granted_of_room hroom).trans hwhole.requested.symm)
  short hshort := by
    obtain ⟨v, hv⟩ := (hanswers false).eq_of_short hshort
    refine ⟨v, hv, herror v hshort hv, Surface.require_of_denial ?_⟩
    rw [hv]
    exact Permits.denial?_of_short hshort
  permits partly := by
    intro p
    have h : p.Answers (Surface.available s op now) n partly := hanswers partly
    refine ⟨h.requested, h.available, ?_, ?_, ?_, decide_eq_true_iff⟩
    · rw [h.granted, h.requested]
      exact grantable_le_requested _ _ _
    · rw [h.granted, h.available]
      exact grantable_le_available _ _ _
    · rw [h.available, h.requested]
      exact h.limitedBy

/-! ## Buckets -/

namespace Announcing

variable {α : Type} [Amount α] [LawfulAmount α]

theorem available_eq (a : Announcing α) (key : String) (now : Instant) :
    Surface.available a key now = whole (a.buckets.found key now).tokens :=
  a.buckets.available_eq key now

theorem acquire_eq (a : Announcing α) (key : String) (n : Count) (partly : Bool) (now : Instant) :
    (Surface.acquire a key n partly now).2 =
      ⟨n, Surface.available a key now, grantable (Surface.available a key now) n partly,
        if Surface.available a key now < n then some (.bucket key) else none⟩ := by
  rw [available_eq]
  show (⟨n, whole (a.buckets.take key n partly now).answer.found,
    (a.buckets.take key n partly now).answer.granted,
    if whole (a.buckets.take key n partly now).answer.found < n then some (.bucket key)
      else none⟩ : Permits) = _
  rw [Buckets.answer_take]
  rfl

/-- A bucket's own method looks at what was granted. -/
theorem require_eq (a : Announcing α) (key : String) (n : Count) (now : Instant) :
    (a.after (a.buckets.require key n now)).2 =
      if grantable (Surface.available a key now) n false < n then
        .error ⟨n, Surface.available a key now, .bucket key⟩
      else .ok (grantable (Surface.available a key now) n false) := by
  rw [available_eq]
  show (if (a.buckets.take key n false now).answer.granted < n then
      .error ⟨n, whole (a.buckets.take key n false now).answer.found, .bucket key⟩
    else .ok (a.buckets.take key n false now).answer.granted : Except Denial Count) = _
  rw [Buckets.answer_take]
  rfl

theorem agree_require (a : Announcing α) (key : String) (n : Count) (now : Instant) :
    Agree a key n now (a.after (a.buckets.require key n now)) n := by
  refine Agree.of_answers (fun partly => ?_) rfl (fun hroom => ?_) fun v hshort hv => ?_
  · rw [acquire_eq]
    refine ⟨rfl, rfl, rfl, ?_⟩
    dsimp only
    split
    · next hshort => exact iff_of_true rfl hshort
    · next hroom => exact iff_of_false Bool.false_ne_true hroom
  · have hall : grantable (Surface.available a key now) n false = n := if_pos hroom
    rw [require_eq, hall, if_neg (UInt32.lt_irrefl n)]
  · have hgranted := congrArg Permits.granted hv
    have hlimit := congrArg Permits.limitedBy hv
    rw [acquire_eq] at hgranted hlimit
    dsimp only at hgranted hlimit
    rw [if_pos hshort] at hlimit
    obtain rfl := Option.some.inj hlimit
    have hpos : (0 : Count) < n := by
      rw [Count.pos_iff]
      exact Nat.zero_lt_of_lt (UInt32.lt_iff_toNat_lt.mp hshort)
    rw [require_eq, hgranted, if_pos hpos]

end Announcing

/-! ## Limiters -/

namespace Limiter

variable {ω : Type}

theorem answers_request (l : Limiter ω) (op : ω) (n : Count) (partly : Bool) (now : Instant) :
    (l.request op n partly now).2.Answers (l.available op now) n partly := by
  have hanswer : (l.request op n partly now).2 = ⟨n, l.available op now,
      l.store.granted l.rules op n partly now,
      ((checks l.rules op).find? fun c => l.store.left now c < n).map Check.violation⟩ :=
    l.store.acquire_answer l.rules op n partly now
  have hlimit : (l.request op n partly now).2.limitedBy = none ↔ n ≤ l.available op now :=
    Store.limitedBy_acquire_eq_none_iff
  refine ⟨by rw [hanswer], by rw [hanswer], by rw [hanswer]; rfl, ?_⟩
  rw [← UInt32.not_le, ← hlimit, ← ne_eq, Option.isSome_iff_ne_none]

theorem state_requireMany (l : Limiter ω) (op : ω) (n : Count) (now : Instant) :
    (l.requireMany op n now).1 = (l.request op n false now).1 := by
  unfold requireMany
  dsimp only
  split <;> rfl

theorem requireMany_of_room {l : Limiter ω} {op : ω} {n : Count} {now : Instant}
    (hroom : n ≤ l.available op now) : (l.requireMany op n now).2 = .ok n := by
  have h := l.answers_request op n false now
  unfold requireMany
  dsimp only
  rw [h.denial?_of_room hroom, h.granted_of_room hroom]

theorem requireMany_of_short {l : Limiter ω} {op : ω} {n room : Count} {now : Instant}
    {v : Violation} (hshort : room < n)
    (hv : (l.request op n false now).2 = ⟨n, room, 0, some v⟩) :
    (l.requireMany op n now).2 = .error ⟨n, room, v⟩ := by
  unfold requireMany
  dsimp only
  rw [hv, Permits.denial?_of_short hshort]

theorem agree_requireMany (l : Limiter ω) (op : ω) (n : Count) (now : Instant) :
    Agree l op n now (l.requireMany op n now) n :=
  Agree.of_answers (l.answers_request op n · now) (l.state_requireMany op n now)
    requireMany_of_room fun _ => requireMany_of_short

end Limiter

/-- A way to take permits that only maps the answer of another one agrees as well. -/
theorem Agree.map {σ ω β γ : Type} [Surface σ ω] {s : σ} {op : ω} {n : Count} {now : Instant}
    {required : σ × Except Denial β} {value : β} (h : Agree s op n now required value) (f : β → γ) :
    Agree s op n now (required.1, required.2.map f) (f value) where
  state := h.state
  enough hroom := by
    obtain ⟨hok, hrest⟩ := h.enough hroom
    refine ⟨?_, hrest⟩
    rw [hok]
    rfl
  short hshort := by
    obtain ⟨v, hv, herror, hrest⟩ := h.short hshort
    refine ⟨v, hv, ?_, hrest⟩
    rw [herror]
    rfl
  permits := h.permits

/-! ## Followers -/

namespace Follower

variable {ω : Type}

/-- A follower is the limiter that its feed knows by the number of its subscription. -/
theorem limiter?_feed (f : Follower ω) : RuleFeed.limiter? f.feed f.id = some f.limiter :=
  Option.map_eq_some_iff.mpr ⟨_, (Option.some_get f.live).symm, rfl⟩

/-- A request to a follower is one that its feed lives through. -/
theorem step_feed (f : Follower ω) (op : ω) (n : Count) (partly : Bool) (now : Instant) :
    RuleFeed.step f.id f.feed (now, .call (.request op n partly)) =
      ((f.request op n partly now).1.feed, .permits (f.request op n partly now).2) := by
  unfold RuleFeed.step
  dsimp only
  rw [limiter?_feed]
  rfl

theorem agree_requireMany (f : Follower ω) (op : ω) (n : Count) (now : Instant) :
    Agree f op n now (f.requireMany op n now) n :=
  Agree.of_answers (f.limiter.answers_request op n · now)
    (congrArg f.put (f.limiter.state_requireMany op n now))
    Limiter.requireMany_of_room fun _ => Limiter.requireMany_of_short

end Follower

/-- **All ways to ask agree.** For buckets, limiters on fixed rules and limiters that follow a feed,
whatever their state and at any reading of the clock: to ask for exactly a number of permits by a
method of the limiter's own, or of the common surface, leads to the same state as a request for all
or nothing; all three succeed if a look finds enough, and else fail with the number asked for, what
the look finds and the constraint that the answer to the request names.  No answer grants more than
was asked for or than there was, and it names a constraint exactly if there was too little. -/
theorem surfaces_agree (ω : Type) :
    (∀ (a : Announcing Float) (key : String) (n : Count) (now : Instant),
      Agree a key n now (a.after (a.buckets.require key n now)) n) ∧
    (∀ (l : Limiter ω) (op : ω) (now : Instant),
      (∀ n, Agree l op n now (l.requireMany op n now) n) ∧
        Agree l op 1 now (l.requireOne op now) ()) ∧
    (∀ (f : Follower ω) (op : ω) (now : Instant),
      (∀ n, Agree f op n now (f.requireMany op n now) n) ∧
        Agree f op 1 now (f.requireOne op now) ()) :=
  ⟨Announcing.agree_require,
    fun l op now =>
      ⟨(l.agree_requireMany op · now), (l.agree_requireMany op 1 now).map fun _ => ()⟩,
    fun f op now =>
      ⟨(f.agree_requireMany op · now), (f.agree_requireMany op 1 now).map fun _ => ()⟩⟩

/-- Buckets of which one has two tokens and a half. -/
def halfSpent : Announcing Float := ⟨.restore restoredPlan [("edge", ⟨2.5, ⟨0⟩⟩)], []⟩

/-- A second later there are three tokens: two can be taken, and four cannot.  Of three permits, two
of which are taken, one can be taken, and two cannot. -/
theorem surfaces_agree_halfSpent :
    let now : Instant := ⟨1000000000⟩
    let taken := halfSpent.after (halfSpent.buckets.require "edge" 2 now)
    let refused := halfSpent.after (halfSpent.buckets.require "edge" 4 now)
    let l := Limiter.takenByOne
    (taken.2 = .ok 2 ∧ (Surface.require halfSpent "edge" 2 now).1 = taken.1 ∧
      taken.1.buckets.available "edge" now = 1) ∧
    (∃ v, refused.2 = .error ⟨4, 3, v⟩ ∧
      (Surface.require halfSpent "edge" 4 now).2 = .error ⟨4, 3, v⟩) ∧
    ((l.requireMany "one" 1 ⟨0⟩).2 = .ok 1 ∧
      (Surface.require l "one" 1 ⟨0⟩).1 = (l.requireMany "one" 1 ⟨0⟩).1 ∧
      (l.requireMany "one" 1 ⟨0⟩).1.available "one" ⟨0⟩ = 0) ∧
    ∃ v, (l.requireMany "one" 2 ⟨0⟩).2 = .error ⟨2, 1, v⟩ ∧
      (Surface.require l "one" 2 ⟨0⟩).2 = .error ⟨2, 1, v⟩ := by
  intro now taken refused l
  have hthree : Surface.available halfSpent "edge" now = 3 := by decide +kernel
  have hone : Surface.available l "one" ⟨0⟩ = 1 := by decide +kernel
  obtain ⟨hbuckets, hlimiters, -⟩ := surfaces_agree String
  have htaken := hbuckets halfSpent "edge" 2 now
  have hrefused := hbuckets halfSpent "edge" 4 now
  have hlast := (hlimiters l "one" ⟨0⟩).1 1
  have hmore := (hlimiters l "one" ⟨0⟩).1 2
  refine ⟨⟨?_, htaken.state.2.trans htaken.state.1.symm, ?_⟩, ?_,
    ⟨?_, hlast.state.2.trans hlast.state.1.symm, ?_⟩, ?_⟩
  · exact (htaken.enough (by rw [hthree]; decide)).1
  · decide +kernel
  · obtain ⟨v, _, hown, hcommon⟩ := hrefused.short (by rw [hthree]; decide)
    rw [hthree] at hown hcommon
    exact ⟨v, hown, hcommon⟩
  · exact (hlast.enough (by rw [hone]; decide)).1
  · decide +kernel
  · obtain ⟨v, _, hown, hcommon⟩ := hmore.short (by rw [hone]; decide)
    rw [hone] at hown hcommon
    exact ⟨v, hown, hcommon⟩

end Admission
