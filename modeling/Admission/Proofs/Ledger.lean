import Admission.Proofs.Run
import Admission.Proofs.Store

/-!
# A sliding limiter keeps an exact ledger

The ledger is what a sliding limiter stands for: under every key the grants made while the rules
then in force implicated it, each once, in exact numbers.  It forgets nothing: it drops no grant
that has expired, merges no grants of one instant and has no cells that come and go.

`answers_eq_ledger` says that over every run with a clock that never goes back no answer tells a
limiter from its ledger.  The relation that carries the proof, `Agrees`, compares a cell with an
account by the permits from any stamp on that can still count: dropping expired grants, merging,
sweeping and coming back all leave these numbers alone, and giving back lowers both sides alike.
-/

namespace Admission

/-- Permits granted at an instant and not taken back. -/
structure Posting where
  stamp : Instant
  permits : Nat
deriving DecidableEq, Repr

namespace Posting

/-- Whether a posting was made less than a window ago. -/
def counts (now : Instant) (window : Span) (p : Posting) : Bool :=
  now.nanos - p.stamp.nanos < window.nanos

/-- The permits of an account. -/
def total : List Posting → Nat
  | [] => 0
  | p :: older => p.permits + total older

/-- Takes `n` permits from the postings that count, newest first, as far as there are any. -/
def undo (now : Instant) (window : Span) : Nat → List Posting → List Posting
  | _, [] => []
  | n, p :: older =>
    if p.counts now window then ⟨p.stamp, p.permits - n⟩ :: undo now window (n - p.permits) older
    else p :: undo now window n older

end Posting

/-- The rules in force and, under every key, all the grants ever made there, newest first. -/
structure Ledger (ω : Type) where
  rules : List (Rule ω)
  account : CellKey → List Posting

namespace Ledger

variable {ω : Type}

/-- A ledger without postings. -/
def new (rules : List (Rule ω)) : Ledger ω := ⟨rules, fun _ => []⟩

/-- The permits under a key that were granted less than a window ago. -/
def counted (d : Ledger ω) (now : Instant) (key : CellKey) : Nat :=
  Posting.total ((d.account key).filter (Posting.counts now key.window))

/-- The permits that a rate has left. -/
def left (d : Ledger ω) (now : Instant) (c : Check) : Count :=
  .ofNat (c.rate.permits.toNat - d.counted now c.key)

/-- The permits that all rates in the way of an operation have left. -/
def available (d : Ledger ω) (op : ω) (now : Instant) : Count :=
  ((checks d.rules op).map (d.left now)).foldl min .most

/-- Grants what is left and posts it once under every implicated key. -/
def request (d : Ledger ω) (op : ω) (n : Count) (partly : Bool) (now : Instant) :
    Ledger ω × Permits :=
  let available := d.available op now
  let granted := grantable available n partly
  ({ d with
      account := fun key =>
        if key ∈ implicated d.rules op ∧ 0 < granted then
          ⟨now, granted.toNat⟩ :: d.account key
        else d.account key },
    ⟨n, available, granted,
      ((checks d.rules op).find? fun c => d.left now c < n).map Check.violation⟩)

/-- Takes back `n` permits under every implicated key. -/
def giveBack (d : Ledger ω) (op : ω) (n : Count) (now : Instant) : Ledger ω :=
  { d with
    account := fun key =>
      if key ∈ implicated d.rules op then
        Posting.undo now key.window n.toNat (d.account key)
      else d.account key }

/-- What an event does to a ledger.  Sweeps are nothing to it. -/
def step (d : Ledger ω) : Instant × Event ω → Ledger ω × Answer
  | (now, .call (.request op n partly)) =>
    ((d.request op n partly now).1, .permits (d.request op n partly now).2)
  | (now, .call (.available op)) => (d, .room (d.available op now))
  | (now, .call (.giveBack op n)) => (d.giveBack op n now, .done)
  | (_, .call .sweep) => (d, .done)
  | (_, .publish rules) => ({ d with rules }, .done)

end Ledger

/-! ## Accounts -/

namespace Posting

/-- The permits of an account from a stamp on. -/
def since (t : Instant) (account : List Posting) : Nat := total (account.filter (t ≤ ·.stamp))

@[simp] theorem since_nil (t : Instant) : since t [] = 0 := rfl

theorem since_cons (t : Instant) (p : Posting) (older : List Posting) :
    since t (p :: older) = (if t ≤ p.stamp then p.permits else 0) + since t older := by
  unfold since
  rw [List.filter_cons]
  by_cases h : t ≤ p.stamp
  · rw [if_pos (decide_eq_true h), if_pos h, total]
  · rw [if_neg (by simpa using h), if_neg h, Nat.zero_add]

theorem counts_iff_cutoff_le {now : Instant} {window : Span} {p : Posting} :
    p.counts now window = true ↔ now.cutoff window ≤ p.stamp := by
  unfold counts
  rw [decide_eq_true_eq, Instant.le_iff_nanos]
  show _ ↔ now.nanos - window.nanos + 1 ≤ p.stamp.nanos
  omega

theorem total_filter_counts (now : Instant) (window : Span) (account : List Posting) :
    total (account.filter (counts now window)) = since (now.cutoff window) account := by
  unfold since
  congr 2
  funext p
  rw [Bool.eq_iff_iff, counts_iff_cutoff_le, decide_eq_true_eq]

theorem since_eq_zero {t : Instant} {account : List Posting} (h : ∀ p ∈ account, ¬ t ≤ p.stamp) :
    since t account = 0 := by
  induction account with
  | nil => rfl
  | cons p older ih =>
    rw [since_cons, if_neg (h p List.mem_cons_self),
      ih fun x hx => h x (List.mem_cons_of_mem _ hx)]

/-- An account lists its postings newest first. -/
def Newest (account : List Posting) : Prop := account.Pairwise fun a b => b.stamp ≤ a.stamp

theorem map_stamp_undo (now : Instant) (window : Span) (n : Nat) (account : List Posting) :
    (undo now window n account).map (·.stamp) = account.map (·.stamp) := by
  induction account generalizing n with
  | nil => rfl
  | cons p older ih =>
    rw [undo]
    split <;> rw [List.map_cons, List.map_cons, ih]

theorem Newest.undo {account : List Posting} (h : Newest account) (now : Instant) (window : Span)
    (n : Nat) : Newest (undo now window n account) := by
  unfold Newest at h ⊢
  rw [← List.pairwise_map (f := Posting.stamp) (R := fun a b => b ≤ a)] at h ⊢
  rw [map_stamp_undo]
  exact h

theorem stamp_of_mem_undo {now : Instant} {window : Span} {n : Nat} {account : List Posting}
    {p : Posting} (h : p ∈ undo now window n account) : ∃ a ∈ account, a.stamp = p.stamp := by
  have hmap : p.stamp ∈ (undo now window n account).map (·.stamp) := List.mem_map_of_mem h
  rw [map_stamp_undo] at hmap
  exact List.mem_map.mp hmap

/-- Undoing lowers the permits from any counted stamp on by the number undone, down to zero. -/
theorem since_undo {now t : Instant} {window : Span} {account : List Posting}
    (h : Newest account) (ht : now.cutoff window ≤ t) (n : Nat) :
    since t (undo now window n account) = since t account - n := by
  induction account generalizing n with
  | nil => exact (Nat.zero_sub n).symm
  | cons p older ih =>
    obtain ⟨hp, holder⟩ := List.pairwise_cons.mp h
    rw [undo]
    split
    · rw [since_cons, since_cons, ih holder]
      dsimp only
      -- once a posting lies before `t`, so do all older ones
      by_cases htp : t ≤ p.stamp
      · rw [if_pos htp, if_pos htp]
        omega
      · have hzero : since t older = 0 :=
          since_eq_zero fun x hx htx => htp (Int.le_trans htx (hp x hx))
        rw [if_neg htp, if_neg htp, hzero]
        omega
    · next hold =>
      rw [counts_iff_cutoff_le] at hold
      have htp : ¬ t ≤ p.stamp := fun htp => hold (Int.le_trans ht htp)
      rw [since_cons, since_cons, ih holder, if_neg htp, Nat.zero_add, Nat.zero_add]

end Posting

/-! ## A cell and its account -/

/-- A cell agrees with an account at a reading: from every stamp on that still counts, or may
count later, both hold the same number of permits. -/
structure Agrees (last : Instant) (window : Span) (cell : WindowCell) (account : List Posting) :
    Prop where
  wf : cell.Wf .sliding
  newest : Posting.Newest account
  past : ∀ p ∈ account, p.stamp ≤ last
  same : ∀ t, last.cutoff window ≤ t → Grant.tally (t ≤ ·) cell.kept = Posting.since t account

namespace Agrees

variable {last now : Instant} {window : Span} {cell : WindowCell} {account : List Posting}

theorem empty (last : Instant) (window : Span) : Agrees last window (.empty .sliding) [] where
  wf := WindowCell.wf_empty .sliding
  newest := List.Pairwise.nil
  past := fun _ hp => absurd hp List.not_mem_nil
  same := fun _ _ => rfl

theorem mono (h : Agrees last window cell account) (hle : last ≤ now) :
    Agrees now window cell account where
  wf := h.wf
  newest := h.newest
  past := fun _ hp => Int.le_trans (h.past _ hp) hle
  same := fun t ht => h.same t (Int.le_trans (Instant.cutoff_mono window hle) ht)

theorem tally_live (h : Agrees now window cell account) (hw : 0 < window.nanos) :
    Grant.tally (live now window) cell.kept = Posting.since (now.cutoff window) account := by
  rw [Grant.tally_live_eq_since hw, h.same _ (Int.le_refl _)]

theorem record (h : Agrees now window cell account) (hw : 0 < window.nanos) {p : Count}
    (hp : 0 < p)
    (hle : Grant.tally (live now window) cell.kept + p.toNat ≤ 4294967295) :
    Agrees now window (cell.record now window p) (⟨now, p.toNat⟩ :: account) where
  wf := h.wf.record hp
  newest := List.pairwise_cons.mpr ⟨h.past, h.newest⟩
  past := List.forall_mem_cons.mpr ⟨Int.le_refl _, h.past⟩
  same := by
    intro t ht
    rw [WindowCell.tally_since_record hw h.wf.policy_eq ht hle, Posting.since_cons, h.same t ht,
      Nat.add_comm]

theorem giveBack (h : Agrees now window cell account) (hw : 0 < window.nanos) (n : Count) :
    Agrees now window (cell.giveBack now window n) (Posting.undo now window n.toNat account) where
  wf := h.wf.giveBack n
  newest := h.newest.undo now window n.toNat
  past := by
    intro p hp
    obtain ⟨a, ha, heq⟩ := Posting.stamp_of_mem_undo hp
    rw [← heq]
    exact h.past a ha
  same := by
    intro t ht
    rw [WindowCell.tally_giveBack h.wf.ordered fun _ hs => live_of_cutoff_le hw ht hs,
      Posting.since_undo h.newest ht, h.same t ht]

/-- A cell that counts nothing may be forgotten: what its account still holds has expired. -/
theorem forget (h : Agrees now window cell account) (hw : 0 < window.nanos)
    (hzero : Grant.tally (live now window) cell.kept = 0) :
    Agrees now window (.empty .sliding) account where
  wf := WindowCell.wf_empty .sliding
  newest := h.newest
  past := h.past
  same := by
    intro t ht
    have hmono : Grant.tally (t ≤ ·) cell.kept ≤ Grant.tally (live now window) cell.kept :=
      Grant.tally_mono (fun _ hs => live_of_cutoff_le hw ht (of_decide_eq_true hs)) _
    rw [← h.same t ht, WindowCell.kept_empty, Grant.tally_nil]
    omega

end Agrees

/-! ## A limiter and its ledger -/

variable {ω : Type}

/-- A limiter agrees with a ledger: the same rules, and every cell with its account. -/
structure Limiter.Follows (last : Instant) (l : Limiter ω) (d : Ledger ω) : Prop where
  rules : l.rules = d.rules
  policy : l.store.policy = .sliding
  cells : ∀ key : CellKey, 0 < key.window.nanos →
    Agrees last key.window (l.store.cell key) (d.account key)

namespace Limiter.Follows

variable {last now : Instant} {l : Limiter ω} {d : Ledger ω}

theorem new (last : Instant) (rules : List (Rule ω)) :
    Follows last (.new rules .sliding) (.new rules) where
  rules := rfl
  policy := rfl
  cells := fun key _ => by
    rw [show (Limiter.new rules .sliding).store.cell key = .empty .sliding from
      Store.cell_empty .sliding key]
    exact Agrees.empty last key.window

theorem mono (h : Follows last l d) (hle : last ≤ now) : Follows now l d where
  rules := h.rules
  policy := h.policy
  cells := fun key hw => (h.cells key hw).mono hle

theorem left_eq (h : Follows now l d) (c : Check) : l.store.left now c = d.left now c := by
  have hcounted : l.store.counted now c.key = d.counted now c.key := by
    unfold Ledger.counted
    rw [Posting.total_filter_counts]
    exact (h.cells c.key c.rate.window_pos).tally_live c.rate.window_pos
  have hbound := Count.toNat_le_most c.rate.permits
  rw [← UInt32.toNat_inj, Store.toNat_left, hcounted]
  unfold Ledger.left
  rw [UInt32.toNat_ofNat']
  omega

theorem available_eq (h : Follows now l d) (op : ω) :
    l.store.available l.rules op now = d.available op now := by
  unfold Store.available Store.room Ledger.available
  rw [h.rules, funext h.left_eq]

theorem request (h : Follows now l d) (op : ω) (n : Count) (partly : Bool) :
    Follows now (l.request op n partly now).1 (d.request op n partly now).1 ∧
      (l.request op n partly now).2 = (d.request op n partly now).2 := by
  have hgranted : l.store.granted l.rules op n partly now =
      grantable (d.available op now) n partly := by
    unfold Store.granted
    rw [h.available_eq]
  refine ⟨⟨h.rules, ?_, fun key hw => ?_⟩, ?_⟩
  · show (l.store.acquire l.rules op n partly now).1.policy = _
    rw [Store.policy_acquire, h.policy]
  · -- the grant is recorded in a cell exactly where it is posted
    show Agrees now key.window ((l.store.acquire l.rules op n partly now).1.cell key)
      (if key ∈ implicated d.rules op ∧ 0 < grantable (d.available op now) n partly then _ else _)
    rw [Store.cell_acquire, ← hgranted, ← h.rules]
    split
    · next hkey =>
      exact (h.cells key hw).record hw hkey.2 (Store.counted_add_granted_le_most hkey.1 hkey.2)
    · exact h.cells key hw
  · show (l.store.acquire l.rules op n partly now).2 = _
    rw [Store.acquire_answer, hgranted, h.available_eq, funext h.left_eq, h.rules]
    rfl

theorem giveBack (h : Follows now l d) (op : ω) (n : Count) :
    Follows now (l.giveBack op n now) (d.giveBack op n now) := by
  refine ⟨h.rules, ?_, fun key hw => ?_⟩
  · show (l.store.giveBack l.rules op n now).policy = _
    rw [Store.policy_giveBack, h.policy]
  · show Agrees now key.window ((l.store.giveBack l.rules op n now).cell key)
      (if key ∈ implicated d.rules op then _ else _)
    rw [Store.cell_giveBack, ← h.rules]
    by_cases hkey : key ∈ implicated l.rules op
    · rw [if_pos hkey]
      by_cases hn : n = 0
      · -- nothing is given back, and undoing nothing changes no number
        have hcell := (h.cells key hw).giveBack hw 0
        rw [if_neg fun h => h.1 hn, hn]
        refine ⟨(h.cells key hw).wf, hcell.newest, hcell.past, fun t ht => ?_⟩
        rw [UInt32.toNat_zero, Posting.since_undo (h.cells key hw).newest ht,
          (h.cells key hw).same t ht, Nat.sub_zero]
      · rw [if_pos ⟨hn, hkey⟩]
        exact (h.cells key hw).giveBack hw n
    · rw [if_neg hkey, if_neg fun h => hkey h.2]
      exact h.cells key hw

theorem sweep (h : Follows now l d) : Follows now ⟨l.rules, l.store.sweep now⟩ d where
  rules := h.rules
  policy := h.policy
  cells := fun key hw => by
    show Agrees now key.window ((l.store.sweep now).cell key) _
    rw [Store.cell_sweep, h.policy]
    split
    · next hdrained =>
      exact (h.cells key hw).forget hw (Store.counted_eq_zero_of_isDrained hdrained)
    · exact h.cells key hw

/-- One event keeps a limiter and its ledger in agreement, and both answer it alike. -/
theorem stepEvent (h : Follows last l d) (e : Instant × Event ω) (hle : last ≤ e.1) :
    Follows e.1 (l.stepEvent e).1 (d.step e).1 ∧ (l.stepEvent e).2 = (d.step e).2 := by
  obtain ⟨now, event⟩ := e
  replace h := h.mono hle
  cases event with
  | publish rules => exact ⟨⟨rfl, h.policy, h.sweep.cells⟩, rfl⟩
  | call c =>
    cases c with
    | request op n partly =>
      obtain ⟨hstate, hanswer⟩ := h.request op n partly
      exact ⟨hstate, congrArg Answer.permits hanswer⟩
    | available op => exact ⟨h, congrArg Answer.room (h.available_eq op)⟩
    | giveBack op n => exact ⟨h.giveBack op n, rfl⟩
    | sweep => exact ⟨h.sweep, rfl⟩

end Limiter.Follows

/-- Over every run a new limiter answers as a new ledger does. -/
theorem Limiter.run_eq_ledger (rules : List (Rule ω)) {events : List (Instant × Event ω)}
    (hclock : Chronological events) :
    (run Limiter.stepEvent (.new rules .sliding) events).2 =
      (run Ledger.step (.new rules) events).2 := by
  -- the relation starts at the first reading, whatever it is
  cases events with
  | nil => rfl
  | cons e rest =>
    obtain ⟨hrest, _⟩ := List.pairwise_cons.mp hclock
    exact run_answers_eq (fun _ _ _ e h hle => h.stepEvent e hle)
      (Limiter.Follows.new e.1 rules) hclock
      (List.forall_mem_cons.mpr ⟨Int.le_refl _, hrest⟩)

/-- **The exact ledger.** Over every run in which the clock never goes back, a sliding limiter
that follows a feed answers every call as the ledger does, whatever rules are published and
whenever it is swept; and so does a sliding limiter on fixed rules. -/
theorem answers_eq_ledger (rules : List (Rule ω)) :
    (∀ (feed : RuleFeed ω) (id : Nat),
      RuleFeed.limiter? feed id = some (.new rules .sliding) →
      ∀ events, Chronological events →
        (run (RuleFeed.step id) feed events).2 = (run Ledger.step (.new rules) events).2) ∧
    (∀ calls, Chronological calls →
      (run Limiter.step (.new rules .sliding) calls).2 =
        (run Ledger.step (.new rules) (calls.map fun e => (e.1, .call e.2))).2) := by
  refine ⟨fun feed id hnew events hclock => ?_, fun calls hclock => ?_⟩
  · rw [RuleFeed.run_feed hnew, Limiter.run_eq_ledger rules hclock]
  · rw [Limiter.run_calls, Limiter.run_eq_ledger]
    exact List.pairwise_map.mpr hclock

/-- A rule vanishes with its cell in use and returns within its window; the store is swept on the
way, and the clock stands still between some of the calls. -/
def vanishingRule : List (Instant × Event Unit) :=
  [(⟨0⟩, .call (.request () 2 false)), (⟨0⟩, .call (.request () 1 false)),
    (⟨400000000⟩, .publish []), (⟨400000000⟩, .call (.giveBack () 1)),
    (⟨900000000⟩, .publish threeASecond), (⟨900000000⟩, .call (.request () 2 true)),
    (⟨1000000000⟩, .call .sweep), (⟨1000000000⟩, .call (.available ()))]

theorem answers_eq_ledger_vanishingRule :
    let feed := RuleFeed.follow (Watched.new threeASecond) .sliding
    Chronological vanishingRule ∧
      (run (RuleFeed.step feed.1) feed.2 vanishingRule).2 =
        [.permits ⟨2, 3, 2, none⟩, .permits ⟨1, 1, 1, none⟩, .done, .done, .done,
          .permits ⟨2, 0, 0, some (.rate "api" "global" 0 .whole (.perUnit 3 .second))⟩, .done,
          .room 3] := by
  have hclock : Chronological vanishingRule := by
    unfold Chronological
    decide
  have hnew := RuleFeed.limiter?_follow_new threeASecond .sliding
  refine ⟨hclock, ((answers_eq_ledger threeASecond).1 _ _ hnew _ hclock).trans ?_⟩
  decide

end Admission
