import Admission.Gate
import Admission.Proofs.Commit
import Admission.Proofs.FloatAmounts
import Admission.Proofs.Buckets
import Admission.Proofs.Restoring

/-!
# Admission is all or nothing

A gate takes a token before it asks the rules, and puts the token back where they deny.  The token
is put back into a bucket that was refilled and cut off in between, in floating point, and the
bucket shows what it showed before for every amount of tokens: whole tokens are taken out and put
back without rounding (`Buckets.available_giveBack_take`).

* `ask_all_or_nothing` — a denial leaves all that the buckets and the rules have available, and is
  blamed on the bucket exactly if that had no whole token; an admission takes one token and one
  permit in every implicated cell.  What decides between them is whether the bucket has a token and
  every implicated rate a permit.
-/

namespace Admission

/-! ## One permit from the rules -/

namespace Limiter

variable {ω : Type} (l : Limiter ω) (op : ω) (now : Instant)

theorem requireOne_of_no_denial
    (h : (l.store.acquire l.rules op 1 false now).2.denial? 1 = none) :
    (l.requireOne op now).2 = .ok () := by
  unfold requireOne requireMany request
  dsimp only
  rw [h]
  rfl

theorem requireOne_of_denial {denial : Denial}
    (h : (l.store.acquire l.rules op 1 false now).2.denial? 1 = some denial) :
    (l.requireOne op now).2 = .error denial := by
  unfold requireOne requireMany request
  dsimp only
  rw [h]
  rfl

/-- One permit is granted to a caller who wants no less, or a rate denies it. -/
theorem requireOne_cases :
    ((l.requireOne op now).2 = .ok () ∧ l.store.granted l.rules op 1 false now = 1 ∧
        1 ≤ l.available op now) ∨
      ∃ c ∈ checks l.rules op,
        (l.requireOne op now).2 = .error ⟨1, l.available op now, c.violation⟩ ∧
          l.store.granted l.rules op 1 false now = 0 ∧ ¬ 1 ≤ l.available op now := by
  by_cases hroom : 1 ≤ l.store.available l.rules op now
  · left
    have hgranted : l.store.granted l.rules op 1 false now = 1 := if_pos hroom
    refine ⟨requireOne_of_no_denial l op now ?_, hgranted, hroom⟩
    rw [Store.acquire_answer, hgranted]
    unfold Permits.denial?
    cases (checks l.rules op).find? fun c => l.store.left now c < 1 <;> rfl
  · right
    have hgranted : l.store.granted l.rules op 1 false now = 0 := if_neg hroom
    cases hfind : (checks l.rules op).find? fun c => l.store.left now c < 1 with
    | none =>
      -- some check leaves less, or there would be room
      refine absurd (Store.le_room.mpr fun c hc => ?_) hroom
      have hnot := List.find?_eq_none.mp hfind c hc
      exact UInt32.not_lt.mp fun hless => hnot (decide_eq_true hless)
    | some c =>
      refine ⟨c, List.mem_of_find?_eq_some hfind, requireOne_of_denial l op now ?_, hgranted, hroom⟩
      rw [Store.acquire_answer, hgranted, hfind]
      rfl

/-- The rules have a permit for an operation if every implicated rate has one. -/
theorem one_le_available_iff :
    1 ≤ l.available op now ↔
      ∀ c ∈ checks l.rules op, l.store.used now c.key < c.rate.permits := by
  have hroom : 1 ≤ l.available op now ↔ ∀ c ∈ checks l.rules op, 1 ≤ l.store.left now c :=
    Store.le_room
  rw [hroom]
  refine forall₂_congr fun c _ => ?_
  unfold Store.left
  rw [UInt32.le_iff_toNat_le, UInt32.lt_iff_toNat_lt, Count.toNat_minus, ← Nat.sub_pos_iff_lt]
  exact Iff.rfl

theorem requireOne_fst :
    (l.requireOne op now).1 = { l with store := (l.store.acquire l.rules op 1 false now).1 } := by
  unfold requireOne requireMany request
  dsimp only
  cases Permits.denial? (l.store.acquire l.rules op 1 false now).2 1 <;> rfl

/-- A denied operation leaves what is available to all operations. -/
theorem available_requireOne_of_denied
    (h : l.store.granted l.rules op 1 false now = 0) (other : ω) :
    (l.requireOne op now).1.available other now = l.available other now := by
  have hused : ∀ key, (l.store.acquire l.rules op 1 false now).1.used now key =
      l.store.used now key := by
    intro key
    rw [Store.used_eq, Store.used_eq, Store.cell_acquire_of_denied h]
  have hleft : (l.store.acquire l.rules op 1 false now).1.left now = l.store.left now := by
    funext c
    unfold Store.left
    rw [hused]
  rw [requireOne_fst]
  unfold available Store.available Store.room
  rw [hleft]

end Limiter

/-! ## One token from a bucket -/

namespace Buckets

variable {α : Type} [Amount α] [LawfulAmount α] (b : Buckets α) (key : String) (now : Instant)

/-- One token is taken, or there is not one to be taken. -/
theorem require_one_cases :
    ((b.require key 1 now).answer = .ok 1 ∧ b.granted key 1 false now = 1 ∧
        0 < b.available key now) ∨
      (b.require key 1 now).answer = .error ⟨1, b.available key now, .bucket key⟩ ∧
        b.granted key 1 false now = 0 ∧ b.available key now = 0 := by
  have hanswer : (b.require key 1 now).answer =
      if b.granted key 1 false now < 1 then
        .error ⟨1, b.available key now, .bucket key⟩ else .ok (b.granted key 1 false now) := by
    rw [available_eq]
    unfold require
    dsimp only
    rw [answer_take]
    rfl
  rw [hanswer, available_eq]
  by_cases hroom : 1 ≤ (b.found key now).whole
  · left
    have hgranted : b.granted key 1 false now = 1 := if_pos hroom
    rw [hgranted]
    refine ⟨rfl, rfl, ?_⟩
    rw [UInt32.le_iff_toNat_le] at hroom
    exact Count.pos_iff.mpr hroom
  · right
    have hgranted : b.granted key 1 false now = 0 := if_neg hroom
    rw [hgranted]
    refine ⟨rfl, rfl, ?_⟩
    rw [UInt32.le_iff_toNat_le] at hroom
    exact UInt32.toNat_inj.mp (Nat.lt_one_iff.mp (Nat.not_le.mp hroom))

end Buckets

/-! ## The gate -/

namespace Gate

variable {α : Type} [Amount α]

/-- The whole tokens of a key at a reading, if there are buckets. -/
def room (g : Gate α) (key : String) (now : Instant) : Option Count :=
  g.buckets.map fun b => b.available key now

/-- There is a whole token for an operation, where there are buckets, and every implicated rate has
a permit. -/
structure Admits (g : Gate α) (d : Descriptor) (now : Instant) : Prop where
  token : g.room d.domain now ≠ some 0
  permits : ∀ c ∈ checks g.limiter.rules d, g.limiter.store.used now c.key < c.rate.permits

/-- Nothing that was available at a reading before is missing after. -/
structure Kept (before after : Gate α) (now : Instant) : Prop where
  room : ∀ key, after.room key now = before.room key now
  rules : ∀ op, after.limiter.available op now = before.limiter.available op now

/-- After an admission one token is missing from the bucket of the domain, where there are buckets,
and from no other, and every implicated cell counts one permit more. -/
structure Charged (before after : Gate α) (d : Descriptor) (now : Instant) : Prop where
  token : (after.room d.domain now).map (·.toNat + 1) = (before.room d.domain now).map (·.toNat)
  others : ∀ key, key ≠ d.domain → ∀ t, after.room key t = before.room key t
  cells : ∀ key ∈ implicated before.limiter.rules d,
    (after.limiter.store.used now key).toNat = (before.limiter.store.used now key).toNat + 1

variable {g : Gate α} {b : Buckets α} {d : Descriptor} {now : Instant} {denial : Denial}

theorem ask_of_no_buckets (h : g.buckets = none) :
    g.ask d now =
      (⟨none, (g.limiter.requireOne d now).1⟩, (g.limiter.requireOne d now).2) := by
  unfold ask askAt askRules
  rw [h]
  rfl

theorem ask_of_no_token (h : g.buckets = some b)
    (htoken : (b.require d.domain 1 now).answer = .error denial) :
    g.ask d now = (⟨some (b.take d.domain 1 false now).after, g.limiter⟩, .error denial) := by
  unfold ask askAt Readings.frozen
  rw [h]
  dsimp only
  rw [htoken]
  rfl

theorem ask_of_admitted (h : g.buckets = some b)
    (htoken : (b.require d.domain 1 now).answer = .ok 1)
    (hrules : (g.limiter.requireOne d now).2 = .ok ()) :
    g.ask d now =
      (⟨some (b.take d.domain 1 false now).after, (g.limiter.requireOne d now).1⟩, .ok ()) := by
  unfold ask askAt askRules Readings.frozen
  rw [h]
  dsimp only
  rw [htoken]
  dsimp only
  rw [hrules]
  rfl

theorem ask_of_denied (h : g.buckets = some b)
    (htoken : (b.require d.domain 1 now).answer = .ok 1)
    (hrules : (g.limiter.requireOne d now).2 = .error denial) :
    g.ask d now =
      (⟨some ((b.take d.domain 1 false now).after.giveBack d.domain 1 now).after,
        (g.limiter.requireOne d now).1⟩, .error denial) := by
  unfold ask askAt askRules Readings.frozen
  rw [h]
  dsimp only
  rw [htoken]
  dsimp only
  rw [hrules]
  rfl

theorem used_requireOne (l : Limiter Descriptor)
    (h : l.store.granted l.rules d 1 false now = 1) {key : CellKey}
    (hkey : key ∈ implicated l.rules d) :
    ((l.requireOne d now).1.store.used now key).toNat = (l.store.used now key).toNat + 1 := by
  rw [Limiter.requireOne_fst, Store.toNat_used_acquire hkey (by rw [h]; decide), h]
  rfl

/-- Where there are no buckets the rules decide alone. -/
theorem charged_without_buckets (h : g.buckets = none)
    (hrules : g.limiter.store.granted g.limiter.rules d 1 false now = 1) :
    g.Charged ⟨none, (g.limiter.requireOne d now).1⟩ d now := by
  refine ⟨?_, fun key _ t => ?_, fun key hkey => used_requireOne g.limiter hrules hkey⟩
  · unfold room
    rw [h]
    rfl
  · unfold room
    rw [h]

theorem kept_without_buckets (h : g.buckets = none)
    (hrules : g.limiter.store.granted g.limiter.rules d 1 false now = 0) :
    g.Kept ⟨none, (g.limiter.requireOne d now).1⟩ now := by
  refine ⟨fun key => ?_, g.limiter.available_requireOne_of_denied d now hrules⟩
  unfold room
  rw [h]

variable [LawfulAmount α]

/-- A bucket without a token denies, and holds what it held. -/
theorem kept_of_no_token (h : g.buckets = some b)
    (hgranted : b.granted d.domain 1 false now = 0) :
    g.Kept ⟨some (b.take d.domain 1 false now).after, g.limiter⟩ now := by
  refine ⟨fun key => ?_, fun op => rfl⟩
  unfold room
  rw [h]
  refine congrArg some ?_
  by_cases hkey : key = d.domain
  · subst hkey
    have htake := b.available_take d.domain 1 false now
    rw [hgranted] at htake
    exact UInt32.toNat_inj.mp htake
  · exact Buckets.available_take_of_ne hkey b 1 false now now

/-- Where the rules deny, the token that was taken is there again. -/
theorem kept_of_denied (h : g.buckets = some b)
    (htoken : b.granted d.domain 1 false now = 1)
    (hrules : g.limiter.store.granted g.limiter.rules d 1 false now = 0) :
    g.Kept ⟨some ((b.take d.domain 1 false now).after.giveBack d.domain 1 now).after,
      (g.limiter.requireOne d now).1⟩ now := by
  refine ⟨fun key => ?_, g.limiter.available_requireOne_of_denied d now hrules⟩
  unfold room
  rw [h]
  exact congrArg some (Buckets.available_giveBack_take htoken (by decide) key)

theorem charged_of_admitted (h : g.buckets = some b)
    (htoken : b.granted d.domain 1 false now = 1) (hroom : 0 < b.available d.domain now)
    (hrules : g.limiter.store.granted g.limiter.rules d 1 false now = 1) :
    g.Charged ⟨some (b.take d.domain 1 false now).after, (g.limiter.requireOne d now).1⟩ d
      now := by
  refine ⟨?_, fun key hkey t => ?_, fun key hkey => used_requireOne g.limiter hrules hkey⟩
  · have htake := b.available_take d.domain 1 false now
    rw [htoken] at htake
    rw [Count.pos_iff] at hroom
    have hone : ((b.take d.domain 1 false now).after.available d.domain now).toNat + 1 =
        (b.available d.domain now).toNat := by
      rw [htake]
      exact Nat.sub_add_cancel hroom
    unfold room
    rw [h]
    exact congrArg some hone
  · unfold room
    rw [h]
    exact congrArg some (Buckets.available_take_of_ne hkey b 1 false now t)

/-- An operation is answered in one of three ways: it is admitted, a rate denies it while the bucket
of its domain has a token or there is none, or the bucket has no token. -/
theorem ask_cases (g : Gate α) (d : Descriptor) (now : Instant) :
    ((g.ask d now).2 = .ok () ∧ g.Admits d now ∧ g.Charged (g.ask d now).1 d now) ∨
      (∃ denial, (g.ask d now).2 = .error denial ∧ (∀ key, denial.violation ≠ .bucket key) ∧
        g.room d.domain now ≠ some 0 ∧ ¬ g.Admits d now ∧ g.Kept (g.ask d now).1 now) ∨
      ∃ denial, (g.ask d now).2 = .error denial ∧ denial.violation = .bucket d.domain ∧
        g.room d.domain now = some 0 ∧ g.Kept (g.ask d now).1 now := by
  have hrate : ∀ (c : Check) (key : String), c.violation ≠ .bucket key := fun c key h => by cases h
  have hshort : ¬ 1 ≤ g.limiter.available d now → ¬ g.Admits d now :=
    fun h hadmits => h ((g.limiter.one_le_available_iff d now).mpr hadmits.permits)
  have hroom : g.room d.domain now = g.buckets.map fun b => b.available d.domain now := rfl
  cases hb : g.buckets with
  | none =>
    rw [hb] at hroom
    have htoken : g.room d.domain now ≠ some 0 := by
      rw [hroom]
      exact nofun
    rw [ask_of_no_buckets hb]
    rcases g.limiter.requireOne_cases d now with
      ⟨hok, hgranted, hone⟩ | ⟨c, _, herror, hgranted, hnone⟩
    · exact Or.inl ⟨hok, ⟨htoken, (g.limiter.one_le_available_iff d now).mp hone⟩,
        charged_without_buckets hb hgranted⟩
    · exact Or.inr (Or.inl ⟨_, herror, hrate c, htoken, hshort hnone,
        kept_without_buckets hb hgranted⟩)
  | some b =>
    rw [hb] at hroom
    rcases b.require_one_cases d.domain now with ⟨htoken, htaken, hpos⟩ | ⟨htoken, htaken, hzero⟩
    · have hne : g.room d.domain now ≠ some 0 := by
        intro h
        have hzero : b.available d.domain now = 0 := Option.some.inj (hroom.symm.trans h)
        rw [hzero] at hpos
        exact absurd hpos (by decide)
      rcases g.limiter.requireOne_cases d now with
        ⟨hok, hgranted, hone⟩ | ⟨c, _, herror, hgranted, hnone⟩
      · rw [ask_of_admitted hb htoken hok]
        exact Or.inl ⟨rfl, ⟨hne, (g.limiter.one_le_available_iff d now).mp hone⟩,
          charged_of_admitted hb htaken hpos hgranted⟩
      · rw [ask_of_denied hb htoken herror]
        exact Or.inr (Or.inl ⟨_, rfl, hrate c, hne, hshort hnone,
          kept_of_denied hb htaken hgranted⟩)
    · rw [ask_of_no_token hb htoken]
      exact Or.inr (Or.inr ⟨_, rfl, rfl, hroom.trans (congrArg some hzero),
        kept_of_no_token hb htaken⟩)

/-- **Admission is all or nothing.** At one reading of the clock, whatever the buckets and the rules
hold, an operation is admitted or denied, and there is no other fault.  It is admitted exactly if
the bucket of its domain has a whole token and every implicated rate has a permit.  A denied
operation leaves what every bucket and every operation has available, and it is the bucket of its
domain that denies it exactly if that has no whole token; an admitted operation takes one token from
that bucket, none from another, and one permit in every cell it is counted in. -/
theorem ask_all_or_nothing (g : Gate Float) (d : Descriptor) (now : Instant) :
    ((g.ask d now).2 = .ok () ↔ g.Admits d now) ∧
    (∀ denial, (g.ask d now).2 = .error denial →
      (∀ key, denial.violation = .bucket key ↔ key = d.domain ∧ g.room d.domain now = some 0) ∧
      g.Kept (g.ask d now).1 now) ∧
    ((g.ask d now).2 = .ok () → g.Charged (g.ask d now).1 d now) := by
  rcases g.ask_cases d now with ⟨hok, hadmits, hcharged⟩ |
    ⟨_, herror, hrate, hroom, hshort, hkept⟩ | ⟨_, herror, hbucket, hroom, hkept⟩
  · rw [hok]
    refine ⟨iff_of_true rfl hadmits, fun denial h => ?_, fun _ => hcharged⟩
    cases h
  · rw [herror]
    refine ⟨iff_of_false nofun hshort, fun denial h => ?_, nofun⟩
    obtain rfl := Except.error.inj h
    exact ⟨fun key => ⟨fun h => absurd h (hrate key), fun h => absurd h.2 hroom⟩, hkept⟩
  · rw [herror]
    refine ⟨iff_of_false nofun fun h => h.token hroom, fun denial h => ?_, nofun⟩
    obtain rfl := Except.error.inj h
    refine ⟨fun key => ?_, hkept⟩
    rw [hbucket]
    constructor
    · intro hkey
      exact ⟨(Violation.bucket.inj hkey).symm, hroom⟩
    · rintro ⟨rfl, _⟩
      rfl

/-- Two tokens and a half for the domain, and one operation of each user in a minute. -/
def perUser : Gate Float :=
  ⟨some (.restore restoredPlan [("edge", ⟨2.5, ⟨0⟩⟩)]),
    .new [.everything "users" [⟨"user", fun d => .value ((d.get? "user").getD ""),
      [.perUnit 1 .minute]⟩]] .sliding⟩

/-- The first operation of a user is admitted.  The second finds a token but no permit, and the
token is put back. -/
theorem ask_all_or_nothing_returned :
    let alice : Descriptor := ⟨"edge", [("user", "alice")]⟩
    let asked := (perUser.ask alice ⟨0⟩).1
    let again := (asked.ask alice ⟨1000000000⟩).1
    perUser.Admits alice ⟨0⟩ ∧ (perUser.ask alice ⟨0⟩).2 = .ok () ∧
      perUser.Charged asked alice ⟨0⟩ ∧ asked.room "edge" ⟨1000000000⟩ = some 2 ∧
      ¬ asked.Admits alice ⟨1000000000⟩ ∧
      ∃ denial, (asked.ask alice ⟨1000000000⟩).2 = .error denial ∧
        (∀ key, denial.violation ≠ .bucket key) ∧ asked.Kept again ⟨1000000000⟩ ∧
        again.room "edge" ⟨1000000000⟩ = some 2 := by
  intro alice asked again
  have hadmits : perUser.Admits alice ⟨0⟩ := ⟨by decide +kernel, by decide +kernel⟩
  have hroom : asked.room "edge" ⟨1000000000⟩ = some 2 := by decide +kernel
  have hshort : ¬ asked.Admits alice ⟨1000000000⟩ :=
    fun h => absurd h.permits (by decide +kernel)
  obtain ⟨hadmitted, -, hcharged⟩ := ask_all_or_nothing perUser alice ⟨0⟩
  obtain ⟨hagain, hdenied, -⟩ := ask_all_or_nothing asked alice ⟨1000000000⟩
  have hok := hadmitted.mpr hadmits
  cases hanswer : (asked.ask alice ⟨1000000000⟩).2 with
  | ok admitted => exact absurd (hagain.mp hanswer) hshort
  | error denial =>
    obtain ⟨hblame, hkept⟩ := hdenied denial hanswer
    refine ⟨hadmits, hok, hcharged hok, hroom, hshort, denial, rfl, fun key hkey => ?_, hkept,
      (hkept.room "edge").trans hroom⟩
    have hempty := ((hblame key).mp hkey).2
    cases hroom.symm.trans hempty

end Gate

end Admission
