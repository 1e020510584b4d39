import Admission.Proofs.Owning

/-!
# Runs of fleets

A fleet lives through everything that is done to the watched rules and to the limiters that follow
them.  Its limiters own their subscriptions at the end of every run (`Fleet.Owned.foldl`), so it
does not matter that stores and subscriptions are apart: a fleet is a feed with followers
(`Fleet.asFeed`), and each event at a fleet is an event at the feed.

* `Fleet.feed_foldl` — what a run does to the watched rules is a list of calls as any other.
* `Fleet.live_once_created` — a limiter is live from its creation until it is discarded.
* `Fleet.asFeed_step` — an event at a fleet as an event at the feed.
* `subscriptions_last_as_long_as_their_owners` — subscribers of watched values and limiters that
  follow them, over every run.
-/

namespace Admission

variable {ω σ : Type}

/-- What happens to a fleet. -/
inductive FleetEvent (ω σ : Type) where
  | set (rules : List (Rule ω))
  | update (g : List (Rule ω) → List (Rule ω))
  | subscribe (s : σ)
  | drop (id : Nat)
  | create (policy : WindowPolicy)
  | rebuild (name : Nat) (policy : WindowPolicy)
  | discard (name : Nat)
  | call (name : Nat) (c : Call ω)

namespace FleetEvent

def creates : FleetEvent ω σ → Bool
  | create _ => true
  | _ => false

def discards (name : Nat) : FleetEvent ω σ → Bool
  | discard n => n = name
  | _ => false

end FleetEvent

namespace Fleet

variable {f : Fleet ω σ} {name : Nat} {h : Holding}
variable (react : List (Rule ω) → σ → σ)

def step (f : Fleet ω σ) : Instant × FleetEvent ω σ → Fleet ω σ
  | (now, .set rules) => f.publish react rules now
  | (now, .update g) => f.publish react (g f.feed.current) now
  | (_, .subscribe s) => f.subscribe s
  | (_, .drop id) => f.unsubscribe id
  | (_, .create policy) => f.create policy
  | (_, .rebuild name policy) => f.rebuild name policy
  | (_, .discard name) => f.discard name
  | (now, .call name c) =>
    match f.limiter? name with
    | some l => f.put name (l.step (now, c)).1
    | none => f

theorem Owned.step (o : f.Owned) (e : Instant × FleetEvent ω σ) : (f.step react e).Owned := by
  obtain ⟨now, event⟩ := e
  cases event with
  | set rules => exact o.publish react rules now
  | update g => exact o.publish react _ now
  | subscribe s => exact o.subscribe s
  | drop id => exact o.unsubscribe id
  | create policy => exact o.create policy
  | rebuild name policy => exact o.rebuild name policy
  | discard name => exact o.discard name
  | call name c =>
    unfold Fleet.step
    dsimp only
    split
    · exact o.put name _
    · exact o

theorem Owned.foldl (o : f.Owned) (events : List (Instant × FleetEvent ω σ)) :
    (events.foldl (Fleet.step react) f).Owned := by
  induction events generalizing f with
  | nil => exact o
  | cons e rest ih => exact ih (o.step react e)

/-! ## Calls on the watched value -/

/-- What an event does to the watched rules. -/
def watchCalls (f : Fleet ω σ) : FleetEvent ω σ → List (WatchCall (List (Rule ω)) (Reaction σ))
  | .set rules => [.set rules]
  | .update g => [.update g]
  | .subscribe s => [.subscribe (.other s)]
  | .drop id =>
    match f.feed.subscriber? id with
    | some (.other _) => [.drop id]
    | _ => []
  | .create _ => [.subscribe (.sweep f.stores.length)]
  | .rebuild name _ =>
    match f.holding? name with
    | some h => [.drop h.subscription, .subscribe (.sweep f.stores.length)]
    | none => []
  | .discard name =>
    match f.holding? name with
    | some h => [.drop h.subscription]
    | none => []
  | .call _ _ => []

/-- What events do to the watched rules. -/
def allWatchCalls (f : Fleet ω σ) :
    List (Instant × FleetEvent ω σ) → List (WatchCall (List (Rule ω)) (Reaction σ))
  | [] => []
  | e :: rest => f.watchCalls e.2 ++ (f.step react e).allWatchCalls rest

theorem feed_step (f : Fleet ω σ) (e : Instant × FleetEvent ω σ)
    (a : Audience (List (Rule ω)) (Reaction σ)) (ha : a.watched = f.feed) :
    ((f.watchCalls e.2).foldl (Audience.step (Reaction.told react)) a).watched =
      (f.step react e).feed := by
  obtain ⟨now, event⟩ := e
  cases event with
  | set rules => exact congrArg (fun w => Watched.set w _ rules) ha
  | update g => exact congrArg (fun w => Watched.update w _ g) ha
  | subscribe s => exact congrArg (fun w => (Watched.subscribe w _).2) ha
  | drop id =>
    show (List.foldl _ a (f.watchCalls (.drop id))).watched = (f.unsubscribe id).feed
    unfold watchCalls unsubscribe
    dsimp only
    cases hs : f.feed.subscriber? id with
    | none => exact ha
    | some r =>
      cases r with
      | other s => exact congrArg (fun w => Watched.unsubscribe w id) ha
      | sweep place => exact ha
  | create policy => exact congrArg (fun w => (Watched.subscribe w _).2) ha
  | rebuild name policy =>
    show (List.foldl _ a (f.watchCalls (.rebuild name policy))).watched =
      (f.rebuild name policy).feed
    unfold watchCalls
    dsimp only
    cases hh : f.holding? name with
    | none =>
      rw [rebuild_of_none hh]
      exact ha
    | some h =>
      rw [rebuild_of_some hh, discard_of_some hh]
      exact congrArg (fun w => (Watched.subscribe (Watched.unsubscribe w _) _).2) ha
  | discard name =>
    show (List.foldl _ a (f.watchCalls (.discard name))).watched = (f.discard name).feed
    unfold watchCalls
    dsimp only
    cases hh : f.holding? name with
    | none =>
      rw [discard_of_none hh]
      exact ha
    | some h =>
      rw [discard_of_some hh]
      exact congrArg (fun w => Watched.unsubscribe w _) ha
  | call name c =>
    refine ha.trans ?_
    unfold Fleet.step
    dsimp only
    split
    · exact (feed_put f name _).symm
    · rfl

/-- The watched rules of a fleet live through what its events do to them. -/
theorem feed_foldl (f : Fleet ω σ) (events : List (Instant × FleetEvent ω σ))
    (a : Audience (List (Rule ω)) (Reaction σ)) (ha : a.watched = f.feed) :
    ((f.allWatchCalls react events).foldl (Audience.step (Reaction.told react)) a).watched =
      (events.foldl (step react) f).feed := by
  induction events generalizing f a with
  | nil => exact ha
  | cons e rest ih =>
    unfold allWatchCalls
    rw [List.foldl_append, List.foldl_cons]
    exact ih _ _ (feed_step react f e a ha)

/-! ## Which limiters are live -/

/-- How many limiters were created, which is the name of the next one. -/
def creations (events : List (Instant × FleetEvent ω σ)) : Nat := events.countP (·.2.creates)

theorem length_step (f : Fleet ω σ) (e : Instant × FleetEvent ω σ) :
    (f.step react e).limiters.length = f.limiters.length + if e.2.creates then 1 else 0 := by
  obtain ⟨now, event⟩ := e
  cases event with
  | create policy => exact length_limiters_create f policy
  | rebuild name policy => exact length_limiters_rebuild f name policy
  | discard name => exact length_limiters_discard f name
  | drop id => exact congrArg List.length (limiters_unsubscribe f id)
  | call name c =>
    unfold step
    dsimp only
    split
    · exact congrArg List.length (limiters_put f name _)
    · rfl
  | _ => rfl

/-- A limiter lives on unless it is discarded. -/
theorem isSome_holding?_step (f : Fleet ω σ) (hname : name < f.limiters.length)
    (e : Instant × FleetEvent ω σ) :
    ((f.step react e).holding? name).isSome =
      ((f.holding? name).isSome && !e.2.discards name) := by
  obtain ⟨now, event⟩ := e
  cases event with
  | create policy =>
    show ((f.create policy).holding? name).isSome = _
    rw [holding?_create, if_neg (Nat.ne_of_lt hname)]
    exact (Bool.and_true _).symm
  | rebuild n policy =>
    refine Eq.trans ?_ (Bool.and_true _).symm
    show ((f.rebuild n policy).holding? name).isSome = _
    cases hh : f.holding? n with
    | none => rw [rebuild_of_none hh]
    | some h =>
      rw [holding?_rebuild hh]
      split
      · next heq => rw [heq, hh]; rfl
      · rfl
  | discard n =>
    show ((f.discard n).holding? name).isSome = _
    rw [holding?_discard, FleetEvent.discards]
    by_cases heq : name = n
    · simp [heq]
    · simp [heq, Ne.symm heq]
  | drop id =>
    refine Eq.trans ?_ (Bool.and_true _).symm
    show ((f.unsubscribe id).limiters[name]?.join).isSome = _
    rw [limiters_unsubscribe]
    rfl
  | call n c =>
    refine Eq.trans ?_ (Bool.and_true _).symm
    unfold step
    dsimp only
    split
    · show ((f.put n _).limiters[name]?.join).isSome = _
      rw [limiters_put]
      rfl
    · rfl
  | _ => exact (Bool.and_true _).symm

theorem length_foldl (f : Fleet ω σ) (events : List (Instant × FleetEvent ω σ)) :
    (events.foldl (step react) f).limiters.length =
      f.limiters.length + creations events := by
  unfold creations
  induction events generalizing f with
  | nil => rfl
  | cons e rest ih =>
    rw [List.foldl_cons, ih, length_step, List.countP_cons]
    omega

theorem isSome_holding?_foldl (f : Fleet ω σ) (hname : name < f.limiters.length)
    (events : List (Instant × FleetEvent ω σ)) :
    ((events.foldl (step react) f).holding? name).isSome =
      ((f.holding? name).isSome && !events.any (·.2.discards name)) := by
  induction events generalizing f with
  | nil => exact (Bool.and_true _).symm
  | cons e rest ih =>
    have hname' : name < (f.step react e).limiters.length := by
      rw [length_step]
      omega
    rw [List.foldl_cons, ih _ hname', isSome_holding?_step react f hname, List.any_cons,
      Bool.not_or, Bool.and_assoc]

/-- A limiter is live from its creation until it is discarded. -/
theorem live_once_created (rules : List (Rule ω))
    (before after : List (Instant × FleetEvent ω σ)) (now : Instant) (policy : WindowPolicy) :
    (((before ++ (now, .create policy) :: after).foldl (step react) (new rules)).holding?
      (creations before)).isSome = !after.any (·.2.discards (creations before)) := by
  let g := before.foldl (step react) (new rules)
  have hname : creations before = g.limiters.length :=
    ((length_foldl react _ before).trans (Nat.zero_add _)).symm
  have hlt : g.limiters.length < (g.create policy).limiters.length := by
    rw [length_limiters_create]
    exact Nat.lt_succ_self _
  have hlive : ((g.create policy).holding? g.limiters.length).isSome = true := by
    rw [holding?_create, if_pos rfl]
    rfl
  rw [List.foldl_append, List.foldl_cons, hname]
  show ((after.foldl (step react) (g.create policy)).holding? _).isSome = _
  rw [isSome_holding?_foldl react _ hlt, hlive, Bool.true_and]

/-! ## Fleets as feeds -/

/-- The store that a subscriber sweeps, under the number of the subscription. -/
def follower? (stores : List Store) (entry : Nat × Reaction σ) : Option (Nat × Store) :=
  (entry.2.place?.bind (stores[·]?)).map fun store => (entry.1, store)

/-- The limiters of a fleet as followers of a feed, each of which is its store. -/
def asFeed (f : Fleet ω σ) : RuleFeed ω where
  current := f.feed.current
  subscribers := f.feed.subscribers.filterMap (follower? f.stores)
  nextId := f.feed.nextId

theorem follower?_eq_some_iff {stores : List Store} {entry : Nat × Reaction σ} {id : Nat}
    {store : Store} : follower? stores entry = some (id, store) ↔
      ∃ place, entry = (id, .sweep place) ∧ stores[place]? = some store := by
  obtain ⟨n, reaction⟩ := entry
  unfold follower?
  cases reaction with
  | sweep place => simp [Reaction.place?]; tauto
  | other s => simp [Reaction.place?]

theorem asFeed_wf (o : f.Owned) : f.asFeed.Wf where
  nodup := by
    refine List.pairwise_map.mpr (List.pairwise_filterMap.mpr ?_)
    refine (List.pairwise_map.mp o.wf.nodup).imp ?_
    rintro entry entry' hne ⟨id, store⟩ hid ⟨id', store'⟩ hid' rfl
    obtain ⟨place, rfl, -⟩ := follower?_eq_some_iff.mp hid
    obtain ⟨place', rfl, -⟩ := follower?_eq_some_iff.mp hid'
    exact hne rfl
  lt_nextId := by
    rintro ⟨id, store⟩ hmem
    obtain ⟨entry, hentry, hid⟩ := List.mem_filterMap.mp hmem
    obtain ⟨place, rfl, -⟩ := follower?_eq_some_iff.mp hid
    exact o.wf.lt_nextId _ hentry

/-- A live limiter is the follower behind its subscription. -/
theorem limiter?_asFeed (o : f.Owned) (hh : f.holding? name = some h) :
    RuleFeed.limiter? f.asFeed h.subscription = f.limiter? name := by
  have hplace := o.place_lt name h hh
  have hmem := (Watched.subscriber?_eq_some_iff o.wf).mp (o.subscriber? hh)
  have hstore : f.asFeed.subscriber? h.subscription = some f.stores[h.place] := by
    rw [Watched.subscriber?_eq_some_iff (asFeed_wf o)]
    refine List.mem_filterMap.mpr ⟨_, hmem, follower?_eq_some_iff.mpr ⟨_, rfl, ?_⟩⟩
    exact List.getElem?_eq_getElem hplace
  unfold RuleFeed.limiter? limiter?
  rw [hstore, hh, Option.bind_some, List.getElem?_eq_getElem hplace]
  rfl

theorem asFeed_eq {feed : RuleFeed ω} (hcurrent : f.feed.current = feed.current)
    (hsubscribers : f.feed.subscribers.filterMap (follower? f.stores) = feed.subscribers)
    (hnext : f.feed.nextId = feed.nextId) : f.asFeed = feed := by
  unfold asFeed
  rw [hcurrent, hsubscribers, hnext]

/-- What becomes of the followers is decided by what becomes of the stores that live limiters count
in. -/
theorem filterMap_follower? (o : f.Owned) (stores : List Store) (g : Nat × Store → Nat × Store)
    (hstores : ∀ name h, f.holding? name = some h →
      (stores[h.place]?.map fun store => (h.subscription, store)) =
        f.stores[h.place]?.map fun store => g (h.subscription, store)) :
    f.feed.subscribers.filterMap (follower? stores) = f.asFeed.subscribers.map g := by
  unfold asFeed
  rw [List.map_filterMap]
  apply List.filterMap_congr
  rintro ⟨id, reaction⟩ hmem
  cases reaction with
  | other s => rfl
  | sweep place =>
    rw [← Watched.subscriber?_eq_some_iff o.wf] at hmem
    obtain ⟨name, hname⟩ := (o.sweeper_iff id place).mp hmem
    exact (hstores name _ hname).trans (Option.map_map _ _ _).symm

theorem asFeed_publish (o : f.Owned) (rules : List (Rule ω)) (now : Instant) :
    (f.publish react rules now).asFeed = RuleFeed.publish f.asFeed rules now := by
  have htold : (f.publish react rules now).feed.subscribers.filterMap
      (follower? (f.publish react rules now).stores) =
        f.feed.subscribers.filterMap (follower? (f.publish react rules now).stores) := by
    unfold publish Watched.set
    dsimp only
    rw [List.filterMap_map]
    apply List.filterMap_congr
    rintro ⟨id, reaction⟩ -
    cases reaction <;> rfl
  refine asFeed_eq rfl (htold.trans ?_) rfl
  refine filterMap_follower? o _ _ fun name h hh => ?_
  have hplace : h.place ∈ f.places := (mem_places_iff_live o).mpr ⟨name, h, hh, rfl⟩
  unfold publish
  dsimp only
  rw [getElem?_foldl_modify _ (places_nodup o), if_pos hplace, Option.map_map]
  rfl

theorem asFeed_install (o : f.Owned) (name : Nat) (policy : WindowPolicy) :
    (f.install name policy).asFeed = (RuleFeed.follow f.asFeed policy).2 := by
  have hold : f.feed.subscribers.filterMap (follower? (f.stores ++ [.empty policy])) =
      f.asFeed.subscribers.map id := by
    refine filterMap_follower? o _ _ fun n h hn => ?_
    rw [List.getElem?_append_left (o.place_lt n h hn)]
    rfl
  have hnew : follower? (f.stores ++ [.empty policy])
      (f.feed.nextId, (.sweep f.stores.length : Reaction σ)) =
        some (f.feed.nextId, .empty policy) :=
    follower?_eq_some_iff.mpr ⟨_, rfl, List.getElem?_concat_length⟩
  refine asFeed_eq rfl ?_ rfl
  show (f.feed.subscribers ++ [_]).filterMap (follower? (f.stores ++ [Store.empty policy])) =
    f.asFeed.subscribers ++ [_]
  rw [List.filterMap_append, hold, List.map_id, List.filterMap_cons_some hnew]
  rfl

theorem asFeed_without (f : Fleet ω σ) (id : Nat) (limiters : List (Option Holding)) :
    asFeed ⟨f.feed.unsubscribe id, f.stores, limiters⟩ = Watched.unsubscribe f.asFeed id := by
  refine asFeed_eq rfl ?_ rfl
  show (f.feed.subscribers.filter _).filterMap (follower? f.stores) =
    (f.feed.subscribers.filterMap (follower? f.stores)).filter _
  rw [List.filterMap_filter, List.filter_filterMap]
  apply List.filterMap_congr
  rintro entry -
  cases hentry : follower? f.stores entry with
  | none => split <;> rfl
  | some e =>
    obtain ⟨place, rfl, -⟩ := follower?_eq_some_iff.mp hentry
    by_cases heq : e.1 = id <;> simp [heq, Option.filter]

theorem asFeed_discard (hh : f.holding? name = some h) :
    (f.discard name).asFeed = Watched.unsubscribe f.asFeed h.subscription := by
  rw [discard_of_some hh]
  exact asFeed_without f _ _

theorem asFeed_create (o : f.Owned) (policy : WindowPolicy) :
    (f.create policy).asFeed = (RuleFeed.follow f.asFeed policy).2 :=
  asFeed_install o.reserve _ policy

theorem asFeed_rebuild (o : f.Owned) (hh : f.holding? name = some h) (policy : WindowPolicy) :
    (f.rebuild name policy).asFeed = (RuleFeed.rebuild f.asFeed h.subscription policy).2 := by
  unfold RuleFeed.rebuild
  rw [rebuild_of_some hh, ← asFeed_discard hh]
  exact asFeed_install (o.discard name) name policy

theorem asFeed_put (o : f.Owned) (hh : f.holding? name = some h) (l : Limiter ω) :
    (f.put name l).asFeed = RuleFeed.put f.asFeed h.subscription l := by
  unfold put
  rw [hh]
  refine asFeed_eq rfl (filterMap_follower? o _ _ fun n h' hn => ?_) rfl
  by_cases heq : n = name
  · subst heq
    cases hn.symm.trans hh
    have hlt := o.place_lt n h hh
    rw [List.getElem?_set_self hlt, List.getElem?_eq_getElem hlt, Option.map_some, Option.map_some,
      if_pos rfl]
  · have hplace : h.place ≠ h'.place := fun he => heq (o.place_inj _ _ _ _ hn hh he.symm)
    have hsubscription : h'.subscription ≠ h.subscription :=
      fun he => heq (o.subscription_inj hn hh he)
    simp only [List.getElem?_set_ne hplace, if_neg hsubscription]

/-- Another subscriber takes a number. -/
theorem asFeed_subscribe (f : Fleet ω σ) (s : σ) :
    (f.subscribe s).asFeed = { f.asFeed with nextId := f.asFeed.nextId + 1 } := by
  refine asFeed_eq rfl ?_ rfl
  show (f.feed.subscribers ++ [_]).filterMap (follower? f.stores) = _
  rw [List.filterMap_append]
  exact List.append_nil _

/-- A subscriber that is no limiter leaves without a trace. -/
theorem asFeed_unsubscribe (o : f.Owned) (id : Nat) : (f.unsubscribe id).asFeed = f.asFeed := by
  unfold unsubscribe
  split
  · next s hother =>
    have hgone : ∀ entry ∈ f.asFeed.subscribers, entry.1 ≠ id := by
      rintro ⟨n, store⟩ hmem rfl
      obtain ⟨entry, hentry, hn⟩ := List.mem_filterMap.mp hmem
      obtain ⟨place, rfl, -⟩ := follower?_eq_some_iff.mp hn
      rw [(Watched.subscriber?_eq_some_iff o.wf).mpr hentry] at hother
      cases hother
    rw [asFeed_without]
    unfold Watched.unsubscribe
    rw [List.filter_eq_self.mpr fun entry hentry => decide_eq_true (hgone entry hentry)]
  · rfl

/-- What an event at a fleet is for the feed that its limiters follow. -/
def onFeed (f : Fleet ω σ) (feed : RuleFeed ω) : Instant × FleetEvent ω σ → RuleFeed ω
  | (now, .set rules) => RuleFeed.publish feed rules now
  | (now, .update g) => RuleFeed.publish feed (g feed.current) now
  | (_, .subscribe _) => { feed with nextId := feed.nextId + 1 }
  | (_, .drop _) => feed
  | (_, .create policy) => (RuleFeed.follow feed policy).2
  | (_, .rebuild name policy) =>
    match f.holding? name with
    | some h => (RuleFeed.rebuild feed h.subscription policy).2
    | none => feed
  | (_, .discard name) =>
    match f.holding? name with
    | some h => Watched.unsubscribe feed h.subscription
    | none => feed
  | (now, .call name c) =>
    match f.holding? name with
    | some h => (RuleFeed.step h.subscription feed (now, .call c)).1
    | none => feed

/-- A fleet whose limiters own their subscriptions is a feed with followers: it does not matter
that stores and subscriptions are apart. -/
theorem asFeed_step (o : f.Owned) (e : Instant × FleetEvent ω σ) :
    (f.step react e).asFeed = f.onFeed f.asFeed e := by
  obtain ⟨now, event⟩ := e
  cases event with
  | set rules => exact asFeed_publish react o rules now
  | update g => exact asFeed_publish react o _ now
  | subscribe s => exact asFeed_subscribe f s
  | drop id => exact asFeed_unsubscribe o id
  | create policy => exact asFeed_create o policy
  | rebuild name policy =>
    show (f.rebuild name policy).asFeed = _
    unfold onFeed
    dsimp only
    cases hh : f.holding? name with
    | none => rw [rebuild_of_none hh]
    | some h => exact asFeed_rebuild o hh policy
  | discard name =>
    show (f.discard name).asFeed = _
    unfold onFeed
    dsimp only
    cases hh : f.holding? name with
    | none => rw [discard_of_none hh]
    | some h => exact asFeed_discard hh
  | call name c =>
    unfold step onFeed
    dsimp only
    cases hh : f.holding? name with
    | none =>
      unfold limiter?
      rw [hh]
      rfl
    | some h =>
      dsimp only
      unfold RuleFeed.step
      rw [limiter?_asFeed o hh]
      dsimp only
      cases f.limiter? name with
      | none => rfl
      | some l => exact asFeed_put o hh _

end Fleet

/-! ## Subscribers and limiters over every run -/

/-- Subscribers hear what is set from their subscription until they are dropped, and nothing else:
whatever is done to a watched value, its value is the one that was set last, every subscriber has
reacted exactly to the values that were set in between, in order, and is there until it is dropped,
and dropping a subscription leaves all others alone.

Limiters that follow watched rules are such subscribers.  Each of them is there from its creation
until it is discarded, also while it is built anew, and owns exactly one subscription, which sweeps
the store that it counts in: nothing else does, and no subscription sweeps any other store.  So new
rules sweep the store of every live limiter.  A run of limiters with places and subscriptions is a
run of followers, each of which is its store. -/
theorem subscriptions_last_as_long_as_their_owners {α τ : Type}
    (react : α → τ → τ) (initial : α) (calls : List (WatchCall α τ))
    (tell : List (Rule ω) → σ → σ) (rules : List (Rule ω))
    (events : List (Instant × FleetEvent ω σ)) :
    (let a := calls.foldl (Audience.step react) (.new initial)
     a.watched.current = lastSet initial calls ∧
     (∀ before s after, calls = before ++ .subscribe s :: after →
       let id := subscriptions before
       let heard := valuesHeard id (lastSet initial before) after
       a.member? id = some (reactAll react s heard) ∧
         a.watched.subscriber? id =
           if after.any (WatchCall.drops id) then none else some (reactAll react s heard)) ∧
     (a.watched.subscribers.map (·.1)).Nodup ∧
     (∀ id ∈ a.watched.subscribers.map (·.1), id < subscriptions calls) ∧
     ∀ n id, (a.step react (.drop n)).watched.subscriber? id =
       if id = n then none else a.watched.subscriber? id) ∧
    (let f := events.foldl (Fleet.step tell) (.new rules)
     f.feed = (((Fleet.new rules).allWatchCalls tell events).foldl
       (Audience.step (Reaction.told tell)) (.new rules)).watched ∧
     (∀ before now policy after, events = before ++ (now, .create policy) :: after →
       (f.holding? (Fleet.creations before)).isSome =
         !after.any (·.2.discards (Fleet.creations before))) ∧
     (∀ name h, f.holding? name = some h → name < Fleet.creations events ∧
       (∀ id, f.feed.subscriber? id = some (.sweep h.place) ↔ id = h.subscription) ∧
       (∀ n h', f.holding? n = some h' →
         h.place = h'.place ∨ h.subscription = h'.subscription → name = n) ∧
       ∃ l, f.limiter? name = some l ∧ RuleFeed.limiter? f.asFeed h.subscription = some l) ∧
     (∀ id place, f.feed.subscriber? id = some (.sweep place) →
       ∃ name, f.holding? name = some ⟨place, id⟩) ∧
     (∀ name rules now, (f.publish tell rules now).limiter? name =
       (f.limiter? name).map fun l => ⟨rules, l.store.sweep now⟩) ∧
     ∀ e, (f.step tell e).asFeed = f.onFeed f.asFeed e) := by
  refine ⟨?_, ?_⟩
  · intro a
    have hnumbered : a.Numbered := (Audience.numbered_new initial).foldl react calls
    have hnext : a.watched.nextId = subscriptions calls :=
      (Audience.nextId_foldl react _ calls).trans (Nat.zero_add _)
    refine ⟨Audience.current_foldl react _ calls, ?_, hnumbered.wf.nodup, fun id hid => ?_,
      fun n id => Watched.subscriber?_unsubscribe _ n id⟩
    · rintro before s after rfl
      exact Audience.hears_once_subscribed react initial before after s
    · obtain ⟨entry, hentry, rfl⟩ := List.mem_map.mp hid
      rw [← hnext]
      exact hnumbered.wf.lt_nextId entry hentry
  · intro f
    have o : f.Owned := (Fleet.owned_new rules).foldl tell events
    have hlength : f.limiters.length = Fleet.creations events :=
      (Fleet.length_foldl tell _ events).trans (Nat.zero_add _)
    refine ⟨(Fleet.feed_foldl tell _ events _ rfl).symm, ?_, fun name h hh => ⟨?_, fun id => ?_,
      ?_, ?_⟩, fun id place => (o.sweeper_iff id place).mp,
      fun name rules now => Fleet.limiter?_publish tell rules now o name,
      Fleet.asFeed_step tell o⟩
    · rintro before now policy after rfl
      exact Fleet.live_once_created tell rules before after now policy
    · rw [← hlength]
      exact Fleet.lt_of_holding? hh
    · refine ⟨o.sweeper_eq hh, ?_⟩
      rintro rfl
      exact o.subscriber? hh
    · intro n h' hn hsame
      rcases hsame with hplace | hsubscription
      · exact o.place_inj _ _ _ _ hh hn hplace
      · exact o.subscription_inj hh hn hsubscription
    · obtain ⟨l, hl⟩ := Fleet.exists_limiter? o hh
      exact ⟨l, hl, (Fleet.limiter?_asFeed o hh).trans hl⟩

/-- Two subscribers of a number, the first of which hears of two values before it is dropped, and
two limiters, the first of which is built anew and the second of which is dropped. -/
theorem subscriptions_last_as_long_as_their_owners_twoOfEach :
    let calls : List (WatchCall Nat (List Nat)) :=
      [.set 1, .subscribe [], .set 2, .update (· + 3), .subscribe [], .drop 0, .set 9]
    let a := calls.foldl (Audience.step fun value heard => heard ++ [value]) (.new 0)
    let f := [(⟨0⟩, .create .sliding), (⟨0⟩, .create .sliding), (⟨1⟩, .rebuild 0 .fixed),
      (⟨2⟩, .discard 1), (⟨3⟩, .set [])].foldl (Fleet.step fun _ (s : Unit) => s)
        (.new threeASecond)
    a.watched.current = 9 ∧ a.member? 0 = some [2, 5] ∧ a.watched.subscriber? 0 = none ∧
      a.watched.subscriber? 1 = some [9] ∧
      f.holding? 0 = some ⟨2, 2⟩ ∧ f.holding? 1 = none ∧
      ∀ id, f.feed.subscriber? id = some (.sweep 2) ↔ id = 2 := by
  intro calls a f
  obtain ⟨⟨hcurrent, hheard, -⟩, -, -, howned, -⟩ :=
    subscriptions_last_as_long_as_their_owners (fun value heard => heard ++ [value]) 0 calls
      (fun _ (s : Unit) => s) threeASecond
      [(⟨0⟩, .create .sliding), (⟨0⟩, .create .sliding), (⟨1⟩, .rebuild 0 .fixed),
        (⟨2⟩, .discard 1), (⟨3⟩, .set [])]
  obtain ⟨hfirst, hdropped⟩ :=
    hheard [.set 1] [] [.set 2, .update (· + 3), .subscribe [], .drop 0, .set 9] rfl
  obtain ⟨-, hsecond⟩ :=
    hheard [.set 1, .subscribe [], .set 2, .update (· + 3)] [] [.drop 0, .set 9] rfl
  obtain ⟨-, hsweeps, -⟩ := howned 0 ⟨2, 2⟩ rfl
  exact ⟨hcurrent, hfirst, hdropped, hsecond, rfl, rfl, hsweeps⟩

end Admission
