import Admission.Proofs.Answering
import Admission.Proofs.Buckets
import Admission.Proofs.Run
import Admission.Proofs.Zeros

/-!
# Requests that can be joined

It does not matter whether permits are asked for at once or in two requests at the same reading:
the second request finds what the first one left.  Both limiters work the second request into what
the first one has done.

* A cell adds a second grant of an instant to the first (`WindowCell.record_record`), and a cell
  that is recorded in is not restarted at the same reading.
* A bucket that was refilled at a reading is found as it was left (`Buckets.found_take`), and whole
  tokens are taken out in two steps as in one.
* `requests_join` — partial requests can always be joined, and full ones where all is there.
-/

namespace Admission

/-- Two requests in a row, for `n` and for `m`, are granted together what one request for `k` is
granted, and lead to the same state. -/
structure Joined {σ : Type} (ask : Count → σ → σ × Count) (n m k : Count) (s : σ) : Prop where
  granted : (ask n s).2.toNat + (ask m (ask n s).1).2.toNat = (ask k s).2.toNat
  state : (ask m (ask n s).1).1 = (ask k s).1

/-! ## What is granted -/

section Granting

variable {a rest n m k : Count} {partly : Bool}

theorem toNat_grantable (h : partly = true ∨ n ≤ a) :
    (grantable a n partly).toNat = min a.toNat n.toNat := by
  unfold grantable
  simp only [UInt32.le_iff_toNat_le] at h ⊢
  split
  · omega
  · next hlt =>
    rw [if_pos (h.resolve_right hlt)]
    omega

/-- The second of two requests finds what the first one left. -/
theorem grantable_add_grantable (hsum : n.toNat + m.toNat = k.toNat)
    (hfits : partly = true ∨ k ≤ a)
    (hrest : rest.toNat + (grantable a n partly).toNat = a.toNat) :
    (grantable a n partly).toNat + (grantable rest m partly).toNat =
      (grantable a k partly).toNat := by
  have hfirst : partly = true ∨ n ≤ a := by
    refine hfits.imp_right fun hk => ?_
    rw [UInt32.le_iff_toNat_le] at hk ⊢
    omega
  rw [toNat_grantable hfirst] at hrest ⊢
  have hsecond : partly = true ∨ m ≤ rest := by
    refine hfits.imp_right fun hk => ?_
    rw [UInt32.le_iff_toNat_le] at hk ⊢
    omega
  rw [toNat_grantable hsecond, toNat_grantable hfits]
  omega

end Granting

/-! ## One cell -/

namespace Grant

/-- Grants of one instant are one grant. -/
theorem insert_insert (now : Instant) (p q : Count) (log : List Grant) :
    insert now q (insert now p log) = insert now (Count.plus p q) log := by
  have hself : ¬ now < now := Int.lt_irrefl _
  induction log with
  | nil => rw [insert, insert, insert, if_neg hself, if_pos rfl]
  | cons g rest ih =>
    rw [insert, insert]
    split
    · next hlt => rw [insert, if_pos hlt, ih]
    · next hlt =>
      split
      · next heq =>
        rw [insert, if_neg hlt, if_pos heq, Count.plus_assoc]
      · rw [insert, if_neg hself, if_pos rfl]

/-- A log that begins with a grant that counts drops none. -/
theorem dropWhile_cons_of_live {now : Instant} {window : Span} {g : Grant}
    (h : live now window g.stamp = true) (rest : List Grant) :
    (g :: rest).dropWhile (fun g => !g.counts now window) = g :: rest := by
  rw [List.dropWhile_cons, counts_eq_live, h]
  rfl

/-- A log that dropped what no longer counts still begins with a grant that counts when one is
added. -/
theorem dropWhile_insert {now : Instant} {window : Span} (hw : 0 < window.nanos) (p : Count)
    (log : List Grant) :
    (insert now p (log.dropWhile fun g => !g.counts now window)).dropWhile
        (fun g => !g.counts now window) =
      insert now p (log.dropWhile fun g => !g.counts now window) := by
  have hnow := live_self hw now
  cases hlog : log.dropWhile fun g => !g.counts now window with
  | nil => exact dropWhile_cons_of_live (by exact hnow) []
  | cons g rest =>
    have hg : live now window g.stamp = true := by
      have hhead := List.head?_dropWhile_not (fun g : Grant => !g.counts now window) log
      rw [hlog] at hhead
      exact (Bool.not_eq_false' _).mp hhead
    rw [insert]
    split
    · exact dropWhile_cons_of_live hg _
    · split
      · exact dropWhile_cons_of_live (by exact hg) _
      · exact dropWhile_cons_of_live (by exact hnow) _

end Grant

namespace WindowCell

variable {now : Instant} {window : Span}

/-- What is recorded twice at a reading is recorded at once. -/
theorem record_record (hw : 0 < window.nanos) (p q : Count) (cell : WindowCell) :
    (cell.record now window p).record now window q = cell.record now window (Count.plus p q) := by
  have hnow := live_self hw now
  rcases cell with log | (_ | g)
  · simp only [record, Grant.dropWhile_insert hw, Grant.insert_insert]
  · simp only [record, Grant.counts_eq_live, hnow, ↓reduceIte]
  · by_cases hlive : live now window g.stamp = true
    · simp only [record, Grant.counts_eq_live, hlive, ↓reduceIte, Count.plus_assoc]
    · simp only [record, Grant.counts_eq_live, hlive, hnow, ↓reduceIte, Bool.false_eq_true]

/-- A cell that counts what is granted at a reading, if anything is. -/
def charge (now : Instant) (window : Span) (g : Count) (cell : WindowCell) : WindowCell :=
  if 0 < g then cell.record now window g else cell

/-- What is granted in two parts at a reading is counted as if it were granted at once. -/
theorem charge_charge (hw : 0 < window.nanos) {p q r : Count} (hsum : p.toNat + q.toNat = r.toNat)
    (cell : WindowCell) :
    (cell.charge now window p).charge now window q = cell.charge now window r := by
  unfold charge
  simp only [Count.pos_iff]
  by_cases hp : 0 < p.toNat
  · by_cases hq : 0 < q.toNat
    · have hplus : Count.plus p q = r := by
        have hmost := Count.toNat_le_most r
        rw [← UInt32.toNat_inj, Count.toNat_plus]
        omega
      rw [if_pos hp, if_pos hq, if_pos (by omega), record_record hw, hplus]
    · obtain rfl : p = r := UInt32.toNat_inj.mp (by omega)
      rw [if_pos hp, if_neg hq]
  · obtain rfl : q = r := UInt32.toNat_inj.mp (by omega)
    rw [if_neg hp]

end WindowCell

/-! ## Stores -/

namespace Store

variable {ω : Type} {rules : List (Rule ω)} {op : ω} {n m k : Count} {partly : Bool}
variable {s : Store} {now : Instant} {key : CellKey}

theorem getElem?_acquire_charge (s : Store) (rules : List (Rule ω)) (op : ω) (n : Count)
    (partly : Bool) (now : Instant) (hkey : key ∈ implicated rules op) :
    (s.acquire rules op n partly now).1.cells[key]? =
      some ((s.cell key).charge now key.window (s.granted rules op n partly now)) := by
  rw [getElem?_acquire, if_pos hkey]
  rfl

/-- The second of two requests is granted what the first one left. -/
theorem granted_add_granted (hsum : n.toNat + m.toNat = k.toNat)
    (hfits : partly = true ∨ k ≤ s.available rules op now) :
    (s.granted rules op n partly now).toNat +
        ((s.acquire rules op n partly now).1.granted rules op m partly now).toNat =
      (s.granted rules op k partly now).toNat := by
  by_cases hchecks : checks rules op = []
  · rw [granted_of_checks_nil hchecks, granted_of_checks_nil hchecks,
      granted_of_checks_nil hchecks, hsum]
  · exact grantable_add_grantable hsum hfits (available_add_granted hchecks)

/-- What two requests leave in the store is what is left if they are granted at once. -/
theorem acquire_acquire (hsum : n.toNat + m.toNat = k.toNat)
    (hfits : partly = true ∨ k ≤ s.available rules op now) :
    ((s.acquire rules op n partly now).1.acquire rules op m partly now).1 =
      (s.acquire rules op k partly now).1 := by
  have hgranted := granted_add_granted hsum hfits
  refine eq_of_cells (by rw [policy_acquire, policy_acquire, policy_acquire]) fun key => ?_
  by_cases hkey : key ∈ implicated rules op
  · have hfirst := getElem?_acquire_charge s rules op n partly now hkey
    rw [getElem?_acquire_charge _ rules op m partly now hkey, cell_of_some hfirst,
      getElem?_acquire_charge s rules op k partly now hkey,
      WindowCell.charge_charge (window_pos_of_mem_implicated hkey) hgranted]
  · rw [getElem?_acquire, if_neg hkey, getElem?_acquire, if_neg hkey, getElem?_acquire,
      if_neg hkey]

end Store

/-! ## Buckets -/

namespace Buckets

open Amount LawfulAmount

variable {α : Type} [Amount α] [LawfulAmount α]
variable {b : Buckets α} {key : String} {n m k : Count} {partly : Bool} {now : Instant}

/-- The second of two requests is granted what the first one left. -/
theorem granted_add_granted (hsum : n.toNat + m.toNat = k.toNat)
    (hfits : partly = true ∨ k ≤ b.available key now) :
    (b.granted key n partly now).toNat +
        ((b.take key n partly now).after.granted key m partly now).toNat =
      (b.granted key k partly now).toNat := by
  have hrest := b.available_take_add_granted key n partly now
  simp only [granted_eq_grantable] at hrest ⊢
  exact grantable_add_grantable hsum hfits hrest

variable [PlainAmount α]

/-- What is found is plain, also if what was stored is not. -/
theorem plain_found (b : Buckets α) (key : String) (now : Instant) :
    Plain (b.found key now).tokens :=
  (PlainAmount.plain_add_income _ b.plan.rate_valid).clamp _

theorem plain_left (b : Buckets α) (key : String) (g : Count) (now : Instant) :
    Plain (b.left key g now).tokens :=
  PlainAmount.plain_sub_ofCount g (b.plain_found key now)

/-- A bucket is found at a reading as a request at that reading left it. -/
theorem found_take (b : Buckets α) (key : String) (n : Count) (partly : Bool) (now : Instant) :
    (b.take key n partly now).after.found key now =
      b.left key (b.granted key n partly now) now := by
  have htokens : ((b.take key n partly now).after.found key now).tokens =
      (b.left key (b.granted key n partly now) now).tokens :=
    eq_of_worth_eq (b.worth_found_take key n partly now) (plain_found _ key now)
      (b.plain_left key _ now)
  have hmark : ((b.take key n partly now).after.found key now).refilled =
      (b.found key now).refilled := by
    by_cases hchanged : b.levels[key]?.isSome ∨ 0 < b.granted key n partly now
    · rw [found_of_some (by rw [getElem?_take, if_pos ⟨rfl, hchanged⟩])]
      exact Level.refilled_refill_refill
    · rw [found_congr plan_take (by rw [getElem?_take, if_neg fun h => hchanged h.2])]
  exact congrArg₂ Level.mk htokens hmark

/-- What two requests leave of a level is what is left if they are granted at once. -/
theorem left_take (hsum : n.toNat + m.toNat = k.toNat)
    (hfits : partly = true ∨ k ≤ b.available key now) :
    (b.take key n partly now).after.left key
        ((b.take key n partly now).after.granted key m partly now) now =
      b.left key (b.granted key k partly now) now := by
  have henough : worth (b.found key now).tokens = none ∨
      ∃ p : ℚ, worth (b.found key now).tokens = some (.ofRat p) ∧
        ((b.granted key k partly now).toNat : ℚ) ≤ p ∧ p ≤ 4294967295 := by
    rcases b.worth_left key k partly now with ⟨hnone, -, -⟩ | ⟨p, hp, hcap, hle, -⟩
    · exact Or.inl hnone
    · exact Or.inr ⟨p, hp, hle, hcap.trans (by exact_mod_cast b.plan.capacity.toNat_le_most)⟩
  have htokens := sub_ofCount_sub_ofCount (granted_add_granted hsum hfits)
    (b.plain_found key now) henough
  have hfound := b.found_take key n partly now
  unfold left at hfound ⊢
  rw [hfound]
  exact congrArg (Level.mk · _) htokens

/-- What two requests leave in the buckets is what is left if they are granted at once. -/
theorem take_take (hsum : n.toNat + m.toNat = k.toNat)
    (hfits : partly = true ∨ k ≤ b.available key now) :
    ((b.take key n partly now).after.take key m partly now).after =
      (b.take key k partly now).after := by
  -- the key has a level in the end if it had one or if either request was granted something
  have hchanged : ((b.take key n partly now).after.levels[key]?.isSome = true ∨
      0 < (b.take key n partly now).after.granted key m partly now) ↔
        (b.levels[key]?.isSome = true ∨ 0 < b.granted key k partly now) := by
    have hgranted := granted_add_granted hsum hfits
    rw [isSome_getElem?_take, or_assoc]
    refine or_congr_right ?_
    simp only [Count.pos_iff]
    omega
  refine eq_of_levels (by rw [plan_take, plan_take, plan_take]) fun j => ?_
  by_cases hj : j = key ∧ (b.levels[key]?.isSome = true ∨ 0 < b.granted key k partly now)
  · rw [getElem?_take, if_pos ⟨hj.1, hchanged.mpr hj.2⟩, left_take hsum hfits, getElem?_take,
      if_pos hj]
  · have hsecond : ¬ (j = key ∧ ((b.take key n partly now).after.levels[key]?.isSome = true ∨
        0 < (b.take key n partly now).after.granted key m partly now)) :=
      fun h => hj ⟨h.1, hchanged.mp h.2⟩
    have hfirst : ¬ (j = key ∧ (b.levels[key]?.isSome = true ∨
        0 < b.granted key n partly now)) :=
      fun h => hsecond ⟨h.1, Or.inl (isSome_getElem?_take.mpr h.2)⟩
    rw [getElem?_take, if_neg hsecond, getElem?_take, if_neg hfirst, getElem?_take, if_neg hj]

end Buckets

/-! ## Requests -/

/-- A request as a step: the limiter that it leaves and what it grants. -/
def Limiter.ask {ω : Type} (op : ω) (partly : Bool) (now : Instant) (n : Count) (l : Limiter ω) :
    Limiter ω × Count :=
  ((l.request op n partly now).1, (l.request op n partly now).2.granted)

/-- The same of a request for tokens. -/
def Buckets.ask {α : Type} [Amount α] (key : String) (partly : Bool) (now : Instant) (n : Count)
    (b : Buckets α) : Buckets α × Count :=
  ((b.request key n partly now).after, (b.request key n partly now).answer)

section Joining

variable {n m k : Count} {partly : Bool} (hsum : n.toNat + m.toNat = k.toNat)
include hsum

theorem Limiter.joined {ω : Type} (l : Limiter ω) (op : ω) (now : Instant)
    (hfits : partly = true ∨ k ≤ l.available op now) :
    Joined (Limiter.ask op partly now) n m k l where
  granted := by
    have hgranted : ∀ (l : Limiter ω) (n : Count),
        (l.ask op partly now n).2 = l.store.granted l.rules op n partly now :=
      fun l n => Store.granted_acquire l.store l.rules op n partly now
    rw [hgranted, hgranted, hgranted]
    exact Store.granted_add_granted hsum hfits
  state := congrArg (Limiter.mk l.rules) (Store.acquire_acquire hsum hfits)

theorem Buckets.joined {α : Type} [Amount α] [LawfulAmount α] [PlainAmount α] (b : Buckets α)
    (key : String) (now : Instant) (hfits : partly = true ∨ k ≤ b.available key now) :
    Joined (Buckets.ask key partly now) n m k b where
  granted := by
    have hgranted : ∀ (b : Buckets α) (n : Count),
        (b.ask key partly now n).2 = b.granted key n partly now :=
      fun b n => congrArg Taken.granted (b.answer_take key n partly now)
    rw [hgranted, hgranted, hgranted]
    exact granted_add_granted hsum hfits
  state := take_take hsum hfits

end Joining

/-- **Batching does not matter.** Whatever the cells of a rule-based limiter or the buckets hold:
two partial requests at one reading are granted together what a single one for both is granted, and
leave exactly the same limiter; so do two full requests, if all that they ask for is there. -/
theorem requests_join {ω : Type} {n m k : Count} (hsum : n.toNat + m.toNat = k.toNat) :
    (∀ (l : Limiter ω) (op : ω) (now : Instant),
      Joined (Limiter.ask op true now) n m k l ∧
        (k ≤ l.available op now → Joined (Limiter.ask op false now) n m k l)) ∧
    ∀ (b : Buckets Float) (key : String) (now : Instant),
      Joined (Buckets.ask key true now) n m k b ∧
        (k ≤ b.available key now → Joined (Buckets.ask key false now) n m k b) := by
  refine ⟨fun l op now => ⟨?_, fun hfits => ?_⟩, fun b key now => ⟨?_, fun hfits => ?_⟩⟩
  · exact l.joined hsum op now (Or.inl rfl)
  · exact l.joined hsum op now (Or.inr hfits)
  · exact b.joined hsum key now (Or.inl rfl)
  · exact b.joined hsum key now (Or.inr hfits)

/-- Five tokens, a quarter of a token more every second. -/
def slowPlan : BucketPlan Float := ⟨5, 0.25, none, by decide, rfl⟩

/-- A bucket that was restored with the negative zero. -/
def restoredEmpty : Buckets Float := .restore slowPlan [("edge", ⟨-0.0, ⟨0⟩⟩)]

/-- Of four permits only three are there, and of four tokens all have come in. -/
theorem requests_join_twoAndTwo :
    let l := Limiter.new threeASecond .sliding
    let now : Instant := ⟨16000000000⟩
    (2 : Count).toNat + (2 : Count).toNat = (4 : Count).toNat ∧
      4 ≤ restoredEmpty.available "edge" now ∧
      ((l.request () 2 true now).1.request () 2 true now).1 = (l.request () 4 true now).1 ∧
      (l.request () 4 true now).2.granted = 3 ∧
      ((restoredEmpty.request "edge" 2 false now).after.request "edge" 2 false now).after =
        (restoredEmpty.request "edge" 4 false now).after ∧
      (restoredEmpty.request "edge" 4 false now).answer = 4 := by
  intro l now
  have hsum : (2 : Count).toNat + (2 : Count).toNat = (4 : Count).toNat := rfl
  have hfits : 4 ≤ restoredEmpty.available "edge" now := by decide +kernel
  obtain ⟨hpermits, htokens⟩ := requests_join (ω := Unit) hsum
  refine ⟨hsum, hfits, (hpermits l () now).1.state, ?_, ((htokens restoredEmpty "edge" now).2
    hfits).state, ?_⟩
  · decide +kernel
  · decide +kernel

end Admission
