import Collate.Proofs.Conservation
import Collate.Proofs.Owners
import Collate.Proofs.Sittings

/-!
# What a refused message leaves behind

A call that is worked on alone and refuses its message undoes what it did by then, and that depends
on how far it came. Without a key or with a key that others hold, it did nothing. Without room in
the store it made or took the entry of its key, so the entry goes again unless a group needs it. A
processor that fails takes the group and its entry along, and nothing else. No refused message
leaves a key held.
-/

namespace Collate

variable {σ : Type}

/-- In the depot of a handler everything under other keys is as it was. -/
def Hub.SparesOthers (start hub : Hub σ) (d : DepotId) (key : Key) : Prop :=
  ∀ other, other ≠ key → (hub.depot d).shelf.group? other = (start.depot d).shelf.group? other
    ∧ (hub.depot d).shelf.lock? other = (start.depot d).shelf.lock? other

/-- What there is after a message was refused, by the reason. What calls of the processor do under
other keys is not for the handling to undo, so the last case speaks of `quiet` processors. -/
def HandlerError.Leaves (handler : Handler σ) (h : HandlerId) (m : Message) (quiet : Prop)
    (start hub : Hub σ) : HandlerError → Prop
  | .correlation _ | .lockTimeout _ _ => hub.depots = start.depots
  | .store e => ∃ key capacity, handler.correlation m = .returned (some key)
      ∧ e = .capacityExceeded capacity
      ∧ (start.depot handler.depot).store.capacity = some capacity
      ∧ (∀ d, (hub.depot d).store = (start.depot d).store)
      ∧ ∀ d other, (hub.depot d).shelf.lock? other =
        if d = handler.depot ∧ other = key then
          ((start.depot d).shelf.lock? key).map fun e => ⟨false, e.owner.or (some h)⟩
        else (start.depot d).shelf.lock? other
  | .groupProcessing key _ => handler.correlation m = .returned (some key)
      ∧ (hub.depot handler.depot).shelf.group? key = none
      ∧ (hub.depot handler.depot).shelf.lock? key = none
      ∧ (quiet → start.SparesOthers hub handler.depot key)

/-- Calls that thread `i` makes from its first call leave the shelf of a depot alone. -/
def Machine.Quiet (d : DepotId) (i : Nat) : Machine σ → List (Move σ) → Prop
  | _, [] => True
  | s, mv :: moves =>
    (∀ t, s.threads[i]? = some t → 1 < t.stack.length →
        ((s.move mv).hub.depot d).shelf = (s.hub.depot d).shelf)
      ∧ (s.move mv).Quiet d i moves

section Stages

variable (handler : Handler σ) (h : HandlerId) (m : Message) (quiet : Prop) (start : Hub σ)

/-- A hub in which the key of the message was taken and nothing else happened. -/
def Handler.HasTaken (key : Key) (hub : Hub σ) : Prop :=
  handler.correlation m = .returned (some key)
    ∧ (∀ e, (start.depot handler.depot).locks.find? key = some e → e.held = false)
    ∧ hub.depots = (start.setDepot handler.depot { start.depot handler.depot with
        locks := (start.depot handler.depot).locks.set key ⟨true, (((start.depot
          handler.depot).locks.find? key).bind LockEntry.owner).or (some h)⟩ }).depots

/-- A hub in which the group of the message is dealt with. -/
def Handler.IsBusy (key : Key) (hub : Hub σ) : Prop :=
  handler.correlation m = .returned (some key)
    ∧ (quiet → start.SparesOthers hub handler.depot key)

/-- Whether a store has no room left, as an error says. -/
def Handler.IsFull (e : StoreError) : Prop :=
  ∃ capacity, e = .capacityExceeded capacity
    ∧ (start.depot handler.depot).store.capacity = some capacity

/-- What the result of a call leaves, if it is a refusal. -/
def Attempt.Leaves (hub : Hub σ) (r : Attempt (Except HandlerError Handled)) : Prop :=
  ∀ e, r = .returned (.error e) → e.Leaves handler h m quiet start hub

/-- What has been done at a phase, as far as a refusal may come of it. -/
def Handling.Bears (hub : Hub σ) : Handling σ → Prop
  | .arriving m' => m' = m ∧ hub.depots = start.depots
  | .locking key _ _ => handler.correlation m = .returned (some key) ∧ hub.depots = start.depots
  | .adding key _ => handler.HasTaken h m start key hub
  | .reviewing key e => handler.HasTaken h m start key hub ∧ handler.IsFull start e
  | .deciding key _ | .processing key _ _ | .removing key _ _ =>
    handler.IsBusy m quiet start key hub
  | .releasing key retire r => ∀ e, r = .returned (.error e) →
      (∃ e', e = .store e' ∧ handler.HasTaken h m start key hub ∧ handler.IsFull start e'
        ∧ retire = ((start.depot handler.depot).shelf.group? key).isNone)
      ∨ ∃ source, e = .groupProcessing key source ∧ handler.IsBusy m quiet start key hub
        ∧ (hub.depot handler.depot).shelf.group? key = none ∧ retire = true
  | .leaving r => r.Leaves handler h m quiet start hub
  | .disowning _ => False

/-- A thread that works on the handling of the message. -/
inductive Thread.Handles (hub : Hub σ) : Thread σ → Prop where
  | itself {p : Handling σ} (hp : p.Bears handler h m quiet start hub) :
      Handles hub ⟨[.handling h p], none⟩
  | within (f : Frame σ) (below : List (Frame σ)) {key : Key} {g : Group}
      {work : Script σ (Except ProcessingError Unit)} (hp : handler.IsBusy m quiet start key hub) :
      Handles hub ⟨f :: below ++ [.handling h (.processing key g work)], none⟩
  | ended {r : Attempt (Except HandlerError Handled)} (hr : r.Leaves handler h m quiet start hub) :
      Handles hub ⟨[], some (.handled r)⟩

end Stages

variable {handler : Handler σ} {h : HandlerId} {m : Message} {quiet : Prop} {start hub hub' : Hub σ}

/-! ## Depots that stay as they are -/

theorem Hub.depot_congr (hd : hub'.depots = hub.depots) (d : DepotId) :
    hub'.depot d = hub.depot d := by
  simp only [Hub.depot, hd]

theorem HandlerError.Leaves.congr {e : HandlerError} (he : e.Leaves handler h m quiet start hub)
    (hd : hub'.depots = hub.depots) : e.Leaves handler h m quiet start hub' := by
  have hdepot := Hub.depot_congr hd
  cases e with
  | correlation | lockTimeout => exact hd.trans he
  | store e => simpa only [Leaves, hdepot] using he
  | groupProcessing key source => simpa only [Leaves, Hub.SparesOthers, hdepot] using he

theorem Handling.Bears.congr {p : Handling σ} (hp : p.Bears handler h m quiet start hub)
    (hd : hub'.depots = hub.depots) : p.Bears handler h m quiet start hub' := by
  have hdepot := Hub.depot_congr hd
  cases p with
  | arriving | locking => exact ⟨hp.1, hd.trans hp.2⟩
  | adding | reviewing =>
    simpa only [Bears, Handler.HasTaken, hd] using hp
  | deciding | processing | removing =>
    simpa only [Bears, Handler.IsBusy, Hub.SparesOthers, hdepot] using hp
  | releasing =>
    simpa only [Bears, Handler.HasTaken, Handler.IsBusy, Hub.SparesOthers, hdepot, hd] using hp
  | leaving r => exact fun e he => (hp e he).congr hd
  | disowning => exact hp

/-! ## The steps of the handling -/

theorem Store.add_error {s : Store} {key : Key} {m : Message} {now : Instant} {e : StoreError}
    (h : s.add key m now = .error e) :
    ∃ capacity, e = .capacityExceeded capacity ∧ s.capacity = some capacity := by
  unfold add at h
  split at h
  · rename_i capacity hc
    split_ifs at h
    exact ⟨capacity, (Except.error.inj h).symm, hc⟩
  · cases h

/-- In a depot in service an addition fails for want of room only. -/
theorem Depot.InService.add_error {d : Depot} (hd : d.InService) {key : Key} {m : Message}
    {now : Instant} {e : StoreError} (h : d.add key m now = .error e) :
    ∃ capacity, e = .capacityExceeded capacity ∧ d.store.capacity = some capacity := by
  have hadd : d.outages.add = none := by rw [hd]
  simp only [Depot.add, hadd] at h
  rcases hs : d.store.add key m now with e' | r <;> rw [hs] at h <;> simp [Except.map] at h
  exact h ▸ Store.add_error hs

section Taken

variable {key : Key}

/-- A key that was taken is all that changed. -/
theorem Handler.HasTaken.store (ht : handler.HasTaken h m start key hub)
    (hlen : handler.depot < start.depots.length) (d : DepotId) :
    (hub.depot d).store = (start.depot d).store := by
  rw [Hub.depot_congr ht.2.2, Hub.depot_setDepot _ _ _ hlen]
  split_ifs with hd
  · rw [← hd]
  · rfl

theorem Handler.HasTaken.lock? (ht : handler.HasTaken h m start key hub)
    (hlen : handler.depot < start.depots.length) (d : DepotId) (other : Key) :
    (hub.depot d).shelf.lock? other =
      if d = handler.depot ∧ other = key then
        some ⟨true, (((start.depot d).shelf.lock? key).bind LockEntry.owner).or (some h)⟩
      else (start.depot d).shelf.lock? other := by
  rw [Hub.depot_congr ht.2.2, Hub.depot_setDepot _ _ _ hlen]
  by_cases hd : handler.depot = d
  · subst hd
    simp only [if_true, true_and, Depot.shelf, KeyLocks.find?_set, eq_comm]
  · rw [if_neg hd, if_neg fun hboth => hd hboth.1.symm]

theorem Handler.HasTaken.isBusy (ht : handler.HasTaken h m start key hub)
    (hlen : handler.depot < start.depots.length) : handler.IsBusy m quiet start key hub := by
  refine ⟨ht.1, fun _ other hne => ⟨?_, ?_⟩⟩
  · simp only [Depot.shelf, ht.store hlen]
  · rw [ht.lock? hlen, if_neg fun hboth => hne hboth.2]

/-- A key that was taken and is given back, with its entry where no group needs it. -/
theorem Handler.HasTaken.released (ht : handler.HasTaken h m start key hub)
    (hlen : handler.depot < start.depots.length) (hlen' : handler.depot < hub.depots.length)
    (hrest : ∀ e, (start.depot handler.depot).shelf.lock? key = some e → e.held = false →
      ((start.depot handler.depot).shelf.group? key).isSome)
    (hguard : ((start.depot handler.depot).shelf.group? key).isSome →
      ((start.depot handler.depot).shelf.lock? key).isSome) (d : DepotId) :
    let retire := ((start.depot handler.depot).shelf.group? key).isNone
    let given := hub.setDepot handler.depot ((hub.depot handler.depot).release key retire)
    (given.depot d).store = (start.depot d).store
      ∧ ∀ other, (given.depot d).shelf.lock? other =
        if d = handler.depot ∧ other = key then
          ((start.depot d).shelf.lock? key).map fun e => ⟨false, e.owner.or (some h)⟩
        else (start.depot d).shelf.lock? other := by
  intro retire given
  by_cases hd : d = handler.depot
  · subst hd
    have hgiven : given.depot handler.depot = (hub.depot handler.depot).release key retire :=
      Hub.depot_setDepot_self _ _ hlen'
    rw [hgiven]
    refine ⟨ht.store hlen _, fun other => ?_⟩
    rw [Depot.shelf_release, Shelf.setLock_lock?, ht.lock? hlen, ht.lock? hlen]
    by_cases hk : other = key
    · subst hk
      simp only [if_true, and_self, retire]
      -- the entry was there just when a group was
      rcases hl : (start.depot handler.depot).shelf.lock? other with _ | e
      · rcases hg : (start.depot handler.depot).shelf.group? other with _ | g
        · rfl
        · rw [hl, hg] at hguard
          cases hguard rfl
      · obtain ⟨g, hg⟩ := Option.isSome_iff_exists.1 (hrest e hl (ht.2.1 e hl))
        rw [hg]
        rfl
    · simp only [hk, and_false, if_false]
  · have hgiven : given.depot d = hub.depot d := Hub.depot_setDepot_ne _ _ (Ne.symm hd)
    rw [hgiven]
    refine ⟨ht.store hlen d, fun other => ?_⟩
    rw [ht.lock? hlen, if_neg fun hboth => hd hboth.1, if_neg fun hboth => hd hboth.1]

end Taken

/-- Whatever is done under a key spares the others. -/
theorem Handler.IsBusy.setDepot {key : Key} {depot : Depot}
    (hb : handler.IsBusy m quiet start key hub) (hlen : handler.depot < hub.depots.length)
    (hdepot : ∀ other, other ≠ key →
      depot.shelf.group? other = (hub.depot handler.depot).shelf.group? other
        ∧ depot.shelf.lock? other = (hub.depot handler.depot).shelf.lock? other) :
    handler.IsBusy m quiet start key (hub.setDepot handler.depot depot) := by
  refine ⟨hb.1, fun hq other hne => ?_⟩
  rw [Hub.depot_setDepot_self _ _ hlen]
  obtain ⟨hg, hl⟩ := hb.2 hq other hne
  exact ⟨(hdepot other hne).1.trans hg, (hdepot other hne).2.trans hl⟩

/-- What the start has to be for a refusal to undo all of its work. -/
structure Handler.Fit (handler : Handler σ) (start : Hub σ) : Prop where
  opened : handler.depot < start.depots.length
  tidy : (start.depot handler.depot).shelf.Tidy
  resting : ∀ key e, (start.depot handler.depot).shelf.lock? key = some e → e.held = false →
    ((start.depot handler.depot).shelf.group? key).isSome
  guarded : ∀ key, ((start.depot handler.depot).shelf.group? key).isSome →
    ((start.depot handler.depot).shelf.lock? key).isSome

theorem Handling.Goes.bears {p p' : Handling σ} (hg : Goes hub handler h p hub' p')
    (hp : p.Bears handler h m quiet start hub) (hfit : handler.Fit start) (ho : hub.Orderly)
    (hlen : handler.depot < hub.depots.length)
    (hdiscreet : p.Orderly hub h)
    (hleave : p.refers = true → (hub.unrefer h).isLive h = true) :
    p'.Bears handler h m quiet start hub' := by
  cases hg
  case struck => intro e he; cases he
  case keyless =>
    intro e he
    cases he
    exact hp.2
  case keyed hc => exact ⟨hp.1 ▸ hc, hp.2⟩
  case taken hl =>
    rw [Hub.depot_congr hp.2] at hl
    obtain ⟨hfree, rfl⟩ := KeyLocks.eq_of_acquire? hl
    exact ⟨hp.1, hfree, by simp only [Hub.setDepot, hp.2, Hub.depot_congr hp.2]⟩
  case late =>
    intro e he
    cases he
    exact hp.2
  case added ha =>
    obtain ⟨-, hshelf⟩ := Depot.shelf_add (ho.service _) ha
    refine (hp.isBusy hfit.opened).setDepot hlen fun other hne => ?_
    rw [hshelf, Shelf.setGroup_group?, if_neg hne]
    exact ⟨rfl, rfl⟩
  case unadded ha =>
    obtain ⟨capacity, rfl, hc⟩ := (ho.service _).add_error ha
    exact ⟨hp, capacity, rfl, by rw [← hp.store hfit.opened]; exact hc⟩
  case reviewed key e retire hr =>
    rintro e' he
    cases he
    refine .inl ⟨e, rfl, hp.1, hp.2, ?_⟩
    rw [(ho.service _).get, Store.get, hp.1.store hfit.opened] at hr
    rw [← hr, ← hfit.tidy.isEmpty_get key hub.clock]
    rfl
  case undecided => intro e he; cases he
  case pending => intro e he; cases he
  case complete => exact hp
  case processing hw =>
    exact Bears.congr (p := .processing ..) hp (hdiscreet.2.goes hw).2.depots
  case processed => exact hp
  case broken => intro e he; cases he
  case removed key g result depot gone hr =>
    rw [(ho.service _).remove] at hr
    cases hr
    rintro e he
    rcases result with source | _ <;> cases he
    refine .inr ⟨source, rfl, hp.setDepot hlen fun other hne => ?_, ?_, rfl⟩
    · rw [Depot.shelf_remove, Shelf.setGroup_group?, if_neg hne]
      exact ⟨rfl, rfl⟩
    · rw [Hub.depot_setDepot_self _ _ hlen, Depot.shelf_remove, Shelf.setGroup_group?, if_pos rfl]
  case unremoved hr =>
    rw [(ho.service _).remove] at hr
    cases hr
  case released key retire result =>
    intro e he
    rcases hp e he with ⟨e', rfl, ht, ⟨capacity, rfl, hc⟩, rfl⟩ | ⟨source, rfl, hb, hgone, rfl⟩
    · have hgiven := ht.released hfit.opened hlen (hfit.resting key) (hfit.guarded key)
      exact ⟨key, capacity, ht.1, rfl, hc, fun d => (hgiven d).1, fun d => (hgiven d).2⟩
    · have hshelf := (hub.depot handler.depot).shelf_release key true
      have hbusy : handler.IsBusy m quiet start key (hub.setDepot handler.depot
          ((hub.depot handler.depot).release key true)) :=
        hb.setDepot hlen fun other hne => by
          rw [hshelf, Shelf.setLock_lock?, if_neg hne]
          exact ⟨rfl, rfl⟩
      refine ⟨hb.1, ?_, ?_, hbusy.2⟩ <;> rw [Hub.depot_setDepot_self _ _ hlen, hshelf]
      · exact hgone
      · rw [Shelf.setLock_lock?, if_pos rfl]
        rfl
  case last hl =>
    rw [hleave rfl] at hl
    cases hl

/-- What the processor's own calls do is no matter of the handling, but for the quiet ones. -/
theorem Handler.IsBusy.within {key : Key} (hb : handler.IsBusy m quiet start key hub)
    (hq : quiet → (hub'.depot handler.depot).shelf = (hub.depot handler.depot).shelf) :
    handler.IsBusy m quiet start key hub' := by
  refine ⟨hb.1, fun hquiet other hne => ?_⟩
  rw [hq hquiet]
  exact hb.2 hquiet other hne

/-! ## The whole call -/

theorem Thread.Handles.congr {t : Thread σ} (ht : t.Handles handler h m quiet start hub)
    (hd : hub'.depots = hub.depots) : t.Handles handler h m quiet start hub' := by
  cases ht with
  | itself hp => exact .itself (hp.congr hd)
  | within f below hp => exact .within f below (hp.within fun _ => by rw [Hub.depot_congr hd])
  | ended hr => exact .ended fun e he => (hr e he).congr hd

theorem Thread.Handles.step {t t' : Thread σ} (ht : t.Handles handler h m quiet start hub)
    (hfit : handler.Fit start) (ho : hub.Orderly) (hlen : handler.depot < hub.depots.length)
    (hh : hub.handler? h = some handler)
    (hf : ∀ f below, t.stack = f :: below → f.Orderly hub)
    (hleave : ∀ p, t.stack = [.handling h p] → p.refers = true → (hub.unrefer h).isLive h = true)
    (hq : quiet → 1 < t.stack.length →
      (hub'.depot handler.depot).shelf = (hub.depot handler.depot).shelf)
    (hr : t.step hub = .ran hub' t') : t'.Handles handler h m quiet start hub' := by
  cases ht with
  | @itself p hp =>
    rcases hs : p.step hub h with ⟨hub₁, f'⟩ | ⟨hub₁, f', inner⟩ | ⟨hub₁, r⟩ | deadline <;>
      simp only [Thread.step, Frame.step, hs, reduceCtorEq] at hr <;> cases hr
    · obtain ⟨p', rfl, hg⟩ := Handling.goes_of_step hh hs
      exact .itself (hg.bears hp hfit ho hlen (hf _ _ rfl) (hleave p rfl))
    · obtain ⟨rfl, rfl, key, g, work, rfl, -⟩ := Handling.calls_of_step hs
      exact .within inner [] hp
    · obtain ⟨hnone, -⟩ | ⟨result, rfl, rfl, rfl⟩ | ⟨result, rfl, -⟩ := Handling.ends_of_step hs
      · rw [hh] at hnone
        cases hnone
      · exact .ended fun e he => (hp e he).congr rfl
      · exact hp.elim
  | @within f below key g work hp =>
    have hbusy : handler.IsBusy m quiet start key hub' :=
      hp.within fun hquiet => hq hquiet (by simp)
    rcases hs : f.step hub with ⟨hub₁, f'⟩ | ⟨hub₁, f', inner⟩ | ⟨hub₁, r⟩ | deadline <;>
      simp only [Thread.step, List.cons_append, hs, reduceCtorEq] at hr
    · cases hr
      exact .within f' below hbusy
    · cases hr
      exact .within inner (f' :: below) hbusy
    · rcases below with _ | ⟨g', rest⟩ <;> cases hr
      · exact .itself (p := .processing key g (work.resume r)) hbusy
      · exact .within (g'.resume r) rest hbusy
  | ended => simp [Thread.step] at hr

/-- A call in one sitting keeps to what a refusal may leave. -/
theorem Sitting.handles {first s : Machine σ} {t : Thread σ} (hs : Sitting first s t)
    (hfit : handler.Fit first.hub) (hh : first.hub.handler? h = some handler)
    (hlive : first.hub.isLive h = true)
    (ht : t.Handles handler h m quiet first.hub s.hub) (moves : List (Move σ))
    (hm : ∀ mv ∈ moves, mv.isAlone first.threads.length = true)
    (hq : quiet → s.Quiet handler.depot first.threads.length moves) :
    ∃ t', Sitting first (s.after moves) t'
      ∧ t'.Handles handler h m quiet first.hub (s.after moves).hub := by
  induction moves generalizing s t with
  | nil => exact ⟨t, hs, ht⟩
  | cons mv moves ih =>
    have hrest := fun mv' hmv' => hm mv' (List.mem_cons_of_mem _ hmv')
    rcases hs.move (hm mv List.mem_cons_self) with
      ⟨n, hmove, hnext⟩ | hsame | ⟨hub', t', hr, hmove, hnext⟩
    · refine ih hnext ?_ hrest fun hquiet => (hq hquiet).2
      rw [hmove]
      exact ht.congr rfl
    · exact ih (hsame ▸ hs) (by rw [hsame]; exact ht) hrest fun hquiet => (hq hquiet).2
    · refine ih hnext ?_ hrest fun hquiet => (hq hquiet).2
      have hlen : handler.depot < s.hub.depots.length := by
        rw [hs.length]
        exact hfit.opened
      have hleave : ∀ p, t.stack = [.handling h p] → p.refers = true →
          (s.hub.unrefer h).isLive h = true := by
        intro p hp hrefers
        have hcounted := hs.counted h
        have hpos := Hub.isLive_iff.1 hlive
        rw [hp, List.countP_singleton, if_pos (by simp [Frame.refers, hrefers])] at hcounted
        rw [Hub.isLive_iff, Hub.references_unrefer, if_pos rfl]
        omega
      have hhub : (s.move mv).hub = hub' := by rw [hmove]
      rw [hhub]
      refine ht.step hfit hs.orderly.hub hlen ((hs.handlers h).trans hh)
        (fun f below hf => hs.orderly.frames _ f (Machine.frameAt_top hs.thread hf)) hleave
        (fun hquiet hdeep => ?_) hr
      rw [← hhub]
      exact (hq hquiet).1 t hs.thread hdeep

/-! ## Refusals -/

/-- A key that is held after a sitting whose call is over was held before it began. -/
theorem Sitting.held {first s : Machine σ} {t : Thread σ} (hs : Sitting first s t)
    (hover : t.stack = []) {d : DepotId}
    (hbefore : Sound (first.hub.depot d).shelf (grips first.hub first.frameAt d))
    (hafter : Sound (s.hub.depot d).shelf (grips s.hub s.frameAt d)) {key : Key}
    (hheld : (s.hub.depot d).locks.isHeld key = true) :
    (first.hub.depot d).locks.isHeld key = true := by
  obtain ⟨e, he, hheld⟩ := (Option.any_eq_true ..).1 hheld
  obtain ⟨p, x, hp⟩ := hafter.owned key e he hheld
  -- the holder is a call that was there before
  have hgrip : grips first.hub first.frameAt d p = some (key, x) := by
    obtain ⟨f, hf, hgrip⟩ := Option.bind_eq_some_iff.1 hp
    have hsplit : s.frameAt p = if p.thread = first.threads.length then t.stack.reverse[p.depth]?
        else first.frameAt p := by
      rw [← Machine.frameAt_start first t p]
      unfold Machine.frameAt
      rw [hs.threads]
    rw [hsplit, hover] at hf
    split_ifs at hf with hthread
    · cases hf
    · have hsame : f.grip s.hub d = f.grip first.hub d :=
        Frame.grip_congr fun h => by simp only [Hub.home?, hs.handlers]
      exact Option.bind_eq_some_iff.2 ⟨f, hf, hsame ▸ hgrip⟩
  obtain ⟨e', he', hheld'⟩ := hbefore.held p key x hgrip
  exact (Option.any_eq_true ..).2 ⟨e', he', hheld'⟩

namespace Machine

/-- A machine once a message came to a handler and these moves were made. -/
def receive (s : Machine σ) (h : HandlerId) (m : Message) (moves : List (Move σ)) : Machine σ :=
  (s.apply (.start (.handle h m))).after moves

theorem fit_of_sound {s : Machine σ} (ho : s.Orderly) (hh : s.hub.handler? h = some handler)
    (hs : Sound (s.hub.depot handler.depot).shelf (grips s.hub s.frameAt handler.depot)) :
    handler.Fit s.hub :=
  ⟨(ho.hub.handlers h handler hh).2, hs.tidy, hs.resting, hs.guarded⟩

/-- Whatever a run made of the machine, and whoever holds keys in it: a message that a handler
refuses leaves what its error says, and no key held that was not held before. -/
theorem refused_leaves (outside : σ) (idOf : Nat → MessageId) (past moves : List (Move σ))
    (h : HandlerId) (handler : Handler σ) (m : Message) (e : HandlerError)
    (hl : (initial outside idOf).Lawful past) :
    let s := (initial outside idOf).after past
    let s' := s.receive h m moves
    s.hub.handler? h = some handler → s.hub.isLive h = true →
    (∀ mv ∈ moves, mv.isAlone s.threads.length = true) →
    s'.reply? s.threads.length = some (.handled (.returned (.error e))) →
    e.Leaves handler h m
        ((s.apply (.start (.handle h m))).Quiet handler.depot s.threads.length moves) s.hub s'.hub
      ∧ ∀ d key, (s'.hub.depot d).locks.isHeld key = true →
        (s.hub.depot d).locks.isHeld key = true := by
  intro s s' hh hlive hm hr
  have ho : s.Orderly := orderly_after (orderly_initial outside idOf) past hl
  have hsound : ∀ d, Sound (s.hub.depot d).shelf (grips s.hub s.frameAt d) := fun d =>
    sound_after (orderly_initial outside idOf) d (sound_initial outside idOf d) past hl
  have hbegins : Sitting s (s.apply (.start (.handle h m))) (.start (.handle h m)) :=
    .begins ho rfl
  obtain ⟨t, hs, ht⟩ := hbegins.handles (fit_of_sound ho hh (hsound handler.depot)) hh hlive
    (.itself ⟨rfl, rfl⟩) moves hm fun hq => hq
  have hreply : t.reply = some (.handled (.returned (.error e))) := by
    have hthread : s'.threads[s.threads.length]? = some t := hs.thread
    simpa [reply?, hthread] using hr
  cases ht with
  | itself | within => cases hreply
  | ended hleaves =>
    cases hreply
    refine ⟨hleaves e rfl, fun d key hheld => hs.held rfl (hsound d) ?_ hheld⟩
    exact sound_after ho d (hsound d) (.event (.start (.handle h m)) :: moves)
      ⟨trivial, lawful_alone moves _ hm⟩

end Machine

/-- A message in a store that has room for one. -/
def filledRun : List (Move Unit) :=
  .openDepot (some 1) :: .event (.build pairing) :: .event (.start (.handle 0 (plain "first")))
    :: List.replicate 6 (.event (.step 0))

theorem lawful_filledRun : (Machine.initial () fun _ => ⟨""⟩).Lawful filledRun :=
  ⟨trivial, ⟨discreet_pairing, Nat.zero_lt_one⟩, trivial,
    Machine.lawful_alone (i := 0) _ _ (by simp [Move.isAlone])⟩

/-- The second message of a pair that finds no room keeps the entry of the first. -/
theorem filled_refuses :
    (Machine.initial () fun _ => ⟨""⟩).Lawful filledRun
      ∧ (((Machine.initial () fun _ => ⟨""⟩).after filledRun).receive 0 (plain "second")
        (List.replicate 6 (.event (.step 1)))).reply? 1
          = some (.handled (.returned (.error (.store (.capacityExceeded 1)))))
      ∧ ((((Machine.initial () fun _ => ⟨""⟩).after filledRun).receive 0 (plain "second")
        (List.replicate 6 (.event (.step 1)))).hub.depot 0).shelf.lock? ⟨"pair"⟩
          = some ⟨false, some 0⟩ := by
  have hr : (((Machine.initial () fun _ => ⟨""⟩).after filledRun).receive 0 (plain "second")
      (List.replicate 6 (.event (.step 1)))).reply? 1
        = some (.handled (.returned (.error (.store (.capacityExceeded 1))))) := rfl
  obtain ⟨⟨key, capacity, hkey, -, -, -, hlock⟩, -⟩ := Machine.refused_leaves () (fun _ => ⟨""⟩)
    filledRun (List.replicate 6 (.event (.step 1))) 0 pairing (plain "second") _ lawful_filledRun
    rfl (by decide) (by simp [Move.isAlone]; rfl) hr
  cases hkey
  refine ⟨lawful_filledRun, hr, (hlock 0 ⟨"pair"⟩).trans ?_⟩
  rw [if_pos ⟨rfl, rfl⟩]
  rfl

end Collate
