import Admission.Fleet
import Admission.Proofs.Hearing

/-!
# Limiters own their subscriptions

Stores and subscriptions of a fleet are apart, and limiters come and go.  What has to hold between
them is that the subscriptions which sweep stores are those of the live limiters, each for the store
that its limiter counts in (`Fleet.Owned`).  Building a limiter anew is what could break it: an old
subscription that lived on would sweep a store that nobody counts in.

Everything that is done to a fleet keeps the invariant, and so the replacement of the rules sweeps
each store that is counted in exactly once.

* `Fleet.Owned.install`, `Fleet.Owned.discard` — a limiter is built under a name that has none, and
  is dropped.
* `Fleet.limiter?_publish` — new rules reach every live limiter.
-/

namespace Admission

variable {ω σ : Type}

namespace Fleet

variable {f : Fleet ω σ} {name : Nat} {h : Holding}

/-! ## Holdings -/

theorem holding?_eq_some_iff : f.holding? name = some h ↔ f.limiters[name]? = some (some h) :=
  Option.join_eq_some_iff

theorem lt_of_holding? (hh : f.holding? name = some h) : name < f.limiters.length :=
  (List.getElem?_eq_some_iff.mp (holding?_eq_some_iff.mp hh)).1

theorem holding?_install (hname : name < f.limiters.length) (policy : WindowPolicy) (n : Nat) :
    (f.install name policy).holding? n =
      if n = name then some ⟨f.stores.length, f.feed.nextId⟩ else f.holding? n := by
  show (f.limiters.set name _)[n]?.join = _
  rw [List.getElem?_set]
  by_cases heq : name = n
  · rw [if_pos heq, if_pos hname, if_pos heq.symm]
    rfl
  · rw [if_neg heq, if_neg fun h => heq h.symm]
    rfl

theorem holding?_install_eq_some_iff (hname : name < f.limiters.length) {policy : WindowPolicy}
    {n : Nat} : (f.install name policy).holding? n = some h ↔
      n = name ∧ h = ⟨f.stores.length, f.feed.nextId⟩ ∨ n ≠ name ∧ f.holding? n = some h := by
  rw [holding?_install hname]
  split
  · next heq => simp [heq, eq_comm]
  · next hne => simp [hne]

theorem discard_of_none (hh : f.holding? name = none) : f.discard name = f := by
  unfold discard
  rw [hh]

theorem discard_of_some (hh : f.holding? name = some h) :
    f.discard name =
      { f with
        feed := f.feed.unsubscribe h.subscription
        limiters := f.limiters.set name none } := by
  unfold discard
  rw [hh]

theorem holding?_discard (f : Fleet ω σ) (name n : Nat) :
    (f.discard name).holding? n = if n = name then none else f.holding? n := by
  cases hh : f.holding? name with
  | none =>
    rw [discard_of_none hh]
    split
    · next heq => rw [heq, hh]
    · rfl
  | some h =>
    rw [discard_of_some hh]
    show (f.limiters.set name none)[n]?.join = _
    rw [List.getElem?_set]
    by_cases heq : name = n
    · rw [if_pos heq, if_pos (lt_of_holding? hh), if_pos heq.symm]
      rfl
    · rw [if_neg heq, if_neg fun h => heq h.symm]
      rfl

theorem holding?_discard_eq_some_iff {n : Nat} :
    (f.discard name).holding? n = some h ↔ n ≠ name ∧ f.holding? n = some h := by
  rw [holding?_discard]
  split
  · next heq => simp [heq]
  · next hne => simp [hne]

/-- A name that is kept for a limiter to come. -/
theorem holding?_reserve (f : Fleet ω σ) (n : Nat) :
    { f with limiters := f.limiters ++ [none] }.holding? n = f.holding? n := by
  show (f.limiters ++ [none])[n]?.join = f.limiters[n]?.join
  rw [List.getElem?_append]
  split
  · rfl
  · next hle =>
    rw [List.getElem?_eq_none (Nat.le_of_not_lt hle), List.getElem?_singleton]
    split <;> rfl

theorem lt_length_reserve (f : Fleet ω σ) : f.limiters.length < (f.limiters ++ [none]).length := by
  rw [List.length_append]
  exact Nat.lt_succ_self _

theorem holding?_create (f : Fleet ω σ) (policy : WindowPolicy) (n : Nat) :
    (f.create policy).holding? n =
      if n = f.limiters.length then some ⟨f.stores.length, f.feed.nextId⟩ else f.holding? n := by
  unfold create
  rw [holding?_install (lt_length_reserve f), holding?_reserve]

@[simp] theorem length_limiters_create (f : Fleet ω σ) (policy : WindowPolicy) :
    (f.create policy).limiters.length = f.limiters.length + 1 :=
  List.length_set.trans List.length_append

@[simp] theorem length_limiters_discard (f : Fleet ω σ) (name : Nat) :
    (f.discard name).limiters.length = f.limiters.length := by
  unfold discard
  split
  · exact List.length_set
  · rfl

theorem rebuild_of_some (hh : f.holding? name = some h) (policy : WindowPolicy) :
    f.rebuild name policy = (f.discard name).install name policy := by
  unfold rebuild
  rw [hh]

theorem rebuild_of_none (hh : f.holding? name = none) (policy : WindowPolicy) :
    f.rebuild name policy = f := by
  unfold rebuild
  rw [hh]

@[simp] theorem length_limiters_rebuild (f : Fleet ω σ) (name : Nat) (policy : WindowPolicy) :
    (f.rebuild name policy).limiters.length = f.limiters.length := by
  unfold rebuild
  split
  · exact List.length_set.trans (length_limiters_discard f name)
  · rfl

/-- A limiter that is built anew moves to a new store with a new subscription. -/
theorem holding?_rebuild (hh : f.holding? name = some h) (policy : WindowPolicy) (n : Nat) :
    (f.rebuild name policy).holding? n =
      if n = name then some ⟨f.stores.length, f.feed.nextId⟩ else f.holding? n := by
  have hlt : name < (f.discard name).limiters.length := by
    rw [length_limiters_discard]
    exact lt_of_holding? hh
  have hstores : (f.discard name).stores = f.stores := by rw [discard_of_some hh]
  have hnext : (f.discard name).feed.nextId = f.feed.nextId := by
    rw [discard_of_some hh]
    rfl
  rw [rebuild_of_some hh, holding?_install hlt, holding?_discard, hstores, hnext]
  split <;> rfl

@[simp] theorem feed_put (f : Fleet ω σ) (name : Nat) (l : Limiter ω) :
    (f.put name l).feed = f.feed := by
  unfold put
  split <;> rfl

@[simp] theorem limiters_put (f : Fleet ω σ) (name : Nat) (l : Limiter ω) :
    (f.put name l).limiters = f.limiters := by
  unfold put
  split <;> rfl

@[simp] theorem limiters_unsubscribe (f : Fleet ω σ) (id : Nat) :
    (f.unsubscribe id).limiters = f.limiters := by
  unfold unsubscribe
  split <;> rfl

/-! ## The invariant -/

/-- Live limiters and the subscriptions that sweep stores belong to each other. -/
structure Owned (f : Fleet ω σ) : Prop where
  wf : f.feed.Wf
  /-- A subscription that sweeps a store belongs to a live limiter which counts there, and every
  live limiter has it. -/
  sweeper_iff : ∀ id place, f.feed.subscriber? id = some (.sweep place) ↔
    ∃ name, f.holding? name = some ⟨place, id⟩
  place_lt : ∀ name h, f.holding? name = some h → h.place < f.stores.length
  /-- No two live limiters count in one store. -/
  place_inj : ∀ m n h h', f.holding? m = some h → f.holding? n = some h' →
    h.place = h'.place → m = n

theorem owned_new (rules : List (Rule ω)) : (new rules : Fleet ω σ).Owned where
  wf := Watched.wf_new rules
  sweeper_iff := fun _ _ => ⟨nofun, fun ⟨_, h⟩ => nomatch h⟩
  place_lt := fun _ _ h => nomatch h
  place_inj := fun _ _ _ _ h => nomatch h

namespace Owned

theorem subscriber? (o : f.Owned) (hh : f.holding? name = some h) :
    f.feed.subscriber? h.subscription = some (.sweep h.place) :=
  (o.sweeper_iff _ _).mpr ⟨name, hh⟩

/-- Only its own subscription sweeps the store of a live limiter. -/
theorem sweeper_eq (o : f.Owned) (hh : f.holding? name = some h) {id : Nat}
    (hid : f.feed.subscriber? id = some (.sweep h.place)) : id = h.subscription := by
  obtain ⟨n, hn⟩ := (o.sweeper_iff _ _).mp hid
  obtain rfl := o.place_inj _ _ _ _ hn hh rfl
  exact congrArg Holding.subscription (Option.some.inj (hn.symm.trans hh))

/-- No two live limiters own one subscription. -/
theorem subscription_inj (o : f.Owned) {m n : Nat} {h h' : Holding}
    (hm : f.holding? m = some h) (hn : f.holding? n = some h')
    (heq : h.subscription = h'.subscription) : m = n := by
  have hplace := o.subscriber? hm
  rw [heq, o.subscriber? hn] at hplace
  exact o.place_inj _ _ _ _ hm hn (Reaction.sweep.inj (Option.some.inj hplace)).symm

/-- Only what sweeps and who owns it matters. -/
theorem congr {g : Fleet ω σ} (o : f.Owned) (hwf : g.feed.Wf)
    (hsweepers : ∀ id place, g.feed.subscriber? id = some (.sweep place) ↔
      f.feed.subscriber? id = some (.sweep place))
    (hlength : g.stores.length = f.stores.length)
    (hholding : ∀ n, g.holding? n = f.holding? n) : g.Owned := by
  refine ⟨hwf, fun id place => ?_, fun n h hn => ?_, fun m n h h' hm hn heq => ?_⟩
  · simp only [hholding]
    exact (hsweepers id place).trans (o.sweeper_iff id place)
  · rw [hholding] at hn
    rw [hlength]
    exact o.place_lt n h hn
  · rw [hholding] at hm hn
    exact o.place_inj m n h h' hm hn heq

theorem install (o : f.Owned) (hname : name < f.limiters.length)
    (hvacant : f.holding? name = none) (policy : WindowPolicy) : (f.install name policy).Owned := by
  have hholding : ∀ n h, (f.install name policy).holding? n = some h ↔ _ :=
    fun n h => holding?_install_eq_some_iff hname
  have hsubscriber : ∀ id, (f.install name policy).feed.subscriber? id =
      if id = f.feed.nextId then some (.sweep f.stores.length) else f.feed.subscriber? id :=
    Watched.subscriber?_subscribe o.wf _
  have hlength : (f.install name policy).stores.length = f.stores.length + 1 :=
    List.length_append
  refine ⟨o.wf.subscribe _, fun id place => ?_, fun n h hn => ?_, fun m n h h' hm hn heq => ?_⟩
  · rw [hsubscriber]
    constructor
    · intro hsome
      split at hsome
      · next hid =>
        cases hsome
        exact ⟨name, (hholding _ _).mpr (.inl ⟨rfl, by rw [hid]⟩)⟩
      · obtain ⟨n, hn⟩ := (o.sweeper_iff _ _).mp hsome
        have hne : n ≠ name := by
          rintro rfl
          cases hn.symm.trans hvacant
        exact ⟨n, (hholding _ _).mpr (.inr ⟨hne, hn⟩)⟩
    · rintro ⟨n, hn⟩
      rcases (hholding _ _).mp hn with ⟨-, hnew⟩ | ⟨-, hn⟩
      · cases hnew
        rw [if_pos rfl]
      · have hsome := o.subscriber? hn
        have hlt := o.wf.lt_nextId _ (Watched.mem_of_subscriber? hsome)
        rw [if_neg (Nat.ne_of_lt hlt)]
        exact hsome
  · rw [hlength]
    rcases (hholding n h).mp hn with ⟨-, rfl⟩ | ⟨-, hn⟩
    · exact Nat.lt_succ_self _
    · exact Nat.lt_succ_of_lt (o.place_lt n h hn)
  · -- the new place is behind all places that were taken before
    rcases (hholding m h).mp hm with ⟨rfl, rfl⟩ | ⟨-, hm⟩
    · rcases (hholding n h').mp hn with ⟨rfl, -⟩ | ⟨-, hn⟩
      · rfl
      · exact absurd heq.symm (Nat.ne_of_lt (o.place_lt n h' hn))
    · rcases (hholding n h').mp hn with ⟨-, rfl⟩ | ⟨-, hn⟩
      · exact absurd heq (Nat.ne_of_lt (o.place_lt m h hm))
      · exact o.place_inj m n h h' hm hn heq

theorem discard (o : f.Owned) (name : Nat) : (f.discard name).Owned := by
  cases hh : f.holding? name with
  | none =>
    rw [discard_of_none hh]
    exact o
  | some h =>
    have hholding : ∀ n h', (f.discard name).holding? n = some h' ↔ _ :=
      fun n h' => holding?_discard_eq_some_iff
    rw [discard_of_some hh] at hholding ⊢
    refine ⟨o.wf.unsubscribe _, fun id place => ?_, fun n h' hn => ?_,
      fun m n h h' hm hn heq => ?_⟩
    · rw [Watched.subscriber?_unsubscribe]
      constructor
      · intro hsome
        split at hsome
        · cases hsome
        · next hne =>
          obtain ⟨n, hn⟩ := (o.sweeper_iff _ _).mp hsome
          refine ⟨n, (hholding _ _).mpr ⟨?_, hn⟩⟩
          rintro rfl
          cases hn.symm.trans hh
          exact hne rfl
      · -- what is left of the subscriptions was owned by others, so it is not the one that goes
        rintro ⟨n, hn⟩
        obtain ⟨hne, hn⟩ := (hholding _ _).mp hn
        rw [if_neg fun hid => hne (o.subscription_inj hn hh hid)]
        exact o.subscriber? hn
    · exact o.place_lt n h' ((hholding n h').mp hn).2
    · exact o.place_inj m n h h' ((hholding m h).mp hm).2 ((hholding n h').mp hn).2 heq

theorem reserve (o : f.Owned) : Owned { f with limiters := f.limiters ++ [none] } :=
  o.congr o.wf (fun _ _ => Iff.rfl) rfl (holding?_reserve f)

theorem create (o : f.Owned) (policy : WindowPolicy) : (f.create policy).Owned := by
  refine o.reserve.install (lt_length_reserve f) ?_ policy
  rw [holding?_reserve]
  show f.limiters[f.limiters.length]?.join = none
  rw [List.getElem?_eq_none (Nat.le_refl _)]
  rfl

theorem rebuild (o : f.Owned) (name : Nat) (policy : WindowPolicy) :
    (f.rebuild name policy).Owned := by
  cases hh : f.holding? name with
  | none =>
    rw [rebuild_of_none hh]
    exact o
  | some h =>
    rw [rebuild_of_some hh]
    refine (o.discard name).install ?_ ?_ policy
    · rw [length_limiters_discard]
      exact lt_of_holding? hh
    · rw [holding?_discard, if_pos rfl]

theorem put (o : f.Owned) (name : Nat) (l : Limiter ω) : (f.put name l).Owned := by
  unfold Fleet.put
  split
  · exact o.congr o.wf (fun _ _ => Iff.rfl) List.length_set fun _ => rfl
  · exact o

theorem subscribe (o : f.Owned) (s : σ) : (f.subscribe s).Owned := by
  refine o.congr (o.wf.subscribe _) (fun id place => ?_) rfl fun _ => rfl
  have hsubscriber : (f.subscribe s).feed.subscriber? id =
      if id = f.feed.nextId then some (.other s) else f.feed.subscriber? id :=
    Watched.subscriber?_subscribe o.wf _ _
  rw [hsubscriber]
  split
  · next hid =>
    rw [hid, Watched.subscriber?_eq_none_of_le o.wf (Nat.le_refl _)]
    exact ⟨nofun, nofun⟩
  · exact Iff.rfl

theorem unsubscribe (o : f.Owned) (id : Nat) : (f.unsubscribe id).Owned := by
  unfold Fleet.unsubscribe
  split
  · next s hother =>
    refine o.congr (o.wf.unsubscribe id) (fun n place => ?_) rfl fun _ => rfl
    rw [Watched.subscriber?_unsubscribe]
    split
    · next hn =>
      rw [hn, hother]
      exact ⟨nofun, nofun⟩
    · exact Iff.rfl
  · exact o

end Owned

theorem exists_limiter? (o : f.Owned) (hh : f.holding? name = some h) :
    ∃ l, f.limiter? name = some l := by
  have hlt := o.place_lt name h hh
  refine ⟨⟨f.feed.current, f.stores[h.place]⟩, ?_⟩
  unfold limiter?
  rw [hh, Option.bind_some, List.getElem?_eq_getElem hlt]
  rfl

/-! ## Sweeping -/

section Sweeping

variable (react : List (Rule ω) → σ → σ) (rules : List (Rule ω)) (now : Instant)

theorem mem_places_iff (o : f.Owned) {place : Nat} :
    place ∈ f.places ↔ ∃ id, f.feed.subscriber? id = some (.sweep place) := by
  simp only [Watched.subscriber?_eq_some_iff o.wf]
  unfold places
  rw [List.mem_filterMap]
  constructor
  · rintro ⟨⟨id, reaction⟩, hmem, hplace⟩
    cases reaction with
    | sweep p =>
      cases hplace
      exact ⟨id, hmem⟩
    | other s => cases hplace
  · rintro ⟨id, hmem⟩
    exact ⟨_, hmem, rfl⟩

theorem mem_places_iff_live (o : f.Owned) {place : Nat} :
    place ∈ f.places ↔ ∃ name h, f.holding? name = some h ∧ h.place = place := by
  rw [mem_places_iff o]
  constructor
  · rintro ⟨id, hid⟩
    obtain ⟨name, hname⟩ := (o.sweeper_iff _ _).mp hid
    exact ⟨name, _, hname, rfl⟩
  · rintro ⟨name, h, hname, rfl⟩
    exact ⟨h.subscription, o.subscriber? hname⟩

theorem places_nodup (o : f.Owned) : f.places.Nodup := by
  unfold places
  have hids := List.pairwise_map.mp o.wf.nodup
  refine List.pairwise_filterMap.mpr (hids.imp_of_mem ?_)
  rintro ⟨id, r⟩ ⟨id', r'⟩ hmem hmem' hne place hr place' hr' rfl
  apply hne
  -- two subscriptions that sweep one place are both the one that its limiter owns
  cases r <;> cases r' <;> cases hr <;> cases hr'
  rw [← Watched.subscriber?_eq_some_iff o.wf] at hmem hmem'
  obtain ⟨name, hname⟩ := (o.sweeper_iff _ _).mp hmem
  exact (o.sweeper_eq hname hmem').symm

theorem getElem?_foldl_modify {α : Type} (f : α → α) {places : List Nat} (h : places.Nodup)
    (l : List α) (i : Nat) :
    (places.foldl (fun l place => l.modify place f) l)[i]? =
      if i ∈ places then l[i]?.map f else l[i]? := by
  induction places generalizing l with
  | nil => rfl
  | cons place rest ih =>
    obtain ⟨hplace, hrest⟩ := List.nodup_cons.mp h
    rw [List.foldl_cons, ih hrest, List.getElem?_modify]
    by_cases heq : i = place
    · simp [heq, hplace]
    · simp [heq, Ne.symm heq]

theorem length_foldl_modify {α : Type} (f : α → α) (places : List Nat) (l : List α) :
    (places.foldl (fun l place => l.modify place f) l).length = l.length := by
  induction places generalizing l with
  | nil => rfl
  | cons place rest ih => rw [List.foldl_cons, ih, List.length_modify]

theorem Owned.publish (o : f.Owned) : (f.publish react rules now).Owned := by
  refine o.congr (o.wf.set _ rules) (fun id place => ?_) (length_foldl_modify _ _ _) fun _ => rfl
  show (f.feed.set _ rules).subscriber? id = _ ↔ _
  rw [Watched.subscriber?_set]
  cases f.feed.subscriber? id with
  | none => exact Iff.rfl
  | some r => cases r <;> simp [Reaction.told]

/-- New rules reach every live limiter, and each of the stores is swept that are counted in. -/
theorem limiter?_publish (o : f.Owned) (name : Nat) :
    (f.publish react rules now).limiter? name =
      (f.limiter? name).map fun l => ⟨rules, l.store.sweep now⟩ := by
  unfold limiter?
  show (f.holding? name).bind _ = _
  cases hh : f.holding? name with
  | none => rfl
  | some h =>
    have hmem : h.place ∈ f.places := (mem_places_iff_live o).mpr ⟨name, h, hh, rfl⟩
    show ((f.publish react rules now).stores[h.place]?).map _ = ((f.stores[h.place]?).map _).map _
    unfold publish
    rw [getElem?_foldl_modify _ (places_nodup o), if_pos hmem, Option.map_map, Option.map_map]
    rfl

end Sweeping

end Fleet

end Admission
