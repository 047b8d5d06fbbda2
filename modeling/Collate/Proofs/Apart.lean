import Collate.Proofs.Ownership
import Collate.Proofs.Solo

/-!
# What an offer comes to

Code of the outside may do many things and still leave a depot alone (`Hub.Apart`). While nothing
but a pass over a depot and its offers is at work there, and the code behind the handlers is of that
kind, the depot is what they made of it (`Hub.Midway`), and it is known what each offer comes to: a
handler that is gone says so (`Offer.comes_detached`), one that comes to its own group or to one of
nobody expires it (`Offer.comes_expired`), whatever its channels and its processor answer, and any
other leaves the group alone (`Offer.comes_foreign`, `Offer.comes_late`).
-/

namespace Collate

variable {σ : Type}

/-! ## Code that leaves a depot alone -/

/-- What leaves a depot alone, and all references to handlers. -/
structure Hub.Spares (d : DepotId) (hub hub' : Hub σ) : Prop where
  depot : hub'.depot d = hub.depot d
  handlers : ∀ h, hub'.handler? h = hub.handler? h
  references : ∀ h, hub'.references h = hub.references h
  length : hub'.depots.length = hub.depots.length

/-- Two hubs that differ in nothing but a depot, the references to its handlers, the time and the
journal. -/
structure Hub.Elsewhere (d : DepotId) (hub hub' : Hub σ) : Prop where
  depots : ∀ other, other ≠ d → hub'.depot other = hub.depot other
  length : hub'.depots.length = hub.depots.length
  handlers : ∀ h, hub'.handler? h = hub.handler? h
  references : ∀ h, hub.home? h ≠ some d → hub'.references h = hub.references h
  hooks : hub'.hooks = hub.hooks
  arrange : hub'.arrange = hub.arrange
  idsDrawn : hub'.idsDrawn = hub.idsDrawn
  idOf : hub'.idOf = hub.idOf
  outside : hub'.outside = hub.outside
  clock : hub.clock ≤ hub'.clock

/-- A script that comes to a value and leaves a depot alone, in every hub of which `I` holds, and
after which `I` holds again. -/
def Script.Apart {α : Type} (I : Hub σ → Prop) (d : DepotId) (s : Script σ α) : Prop :=
  ∀ hub, I hub → s.Comes (fun hub' _ => I hub' ∧ hub.Spares d hub') hub

/-- The code behind the handlers on the register of a depot comes to its end without a panic and
leaves the depot alone, if that holds of its surroundings (`I`) which is not for the depot to
change. -/
def Hub.Apart (hub : Hub σ) (d : DepotId) : Prop :=
  ∃ I : Hub σ → Prop, I hub ∧ (∀ a b, I a → a.Elsewhere d b → I b)
    ∧ ∀ h handler, .handler h ∈ (hub.depot d).participants → hub.handler? h = some handler →
      (∀ g, (handler.process g).Apart I d)
        ∧ ∀ c, handler.discard = some c → ∀ m, (c.send m).Apart I d

section Local

theorem Hub.Spares.refl (d : DepotId) (hub : Hub σ) : hub.Spares d hub :=
  ⟨rfl, fun _ => rfl, fun _ => rfl, rfl⟩

theorem Hub.Spares.trans {d : DepotId} {a b c : Hub σ} (hab : a.Spares d b) (hbc : b.Spares d c) :
    a.Spares d c where
  depot := hbc.depot.trans hab.depot
  handlers h := (hbc.handlers h).trans (hab.handlers h)
  references h := (hbc.references h).trans (hab.references h)
  length := hbc.length.trans hab.length

theorem Script.Comes.imp {α : Type} {P Q : Hub σ → α → Prop} {hub : Hub σ} {s : Script σ α}
    (hs : s.Comes P hub) (hpq : ∀ hub' a, P hub' a → Q hub' a) : s.Comes Q hub := by
  induction hs with
  | done hp => exact .done (hpq _ _ hp)
  | goes hstep hrest ih => exact .goes hstep ih
  | calls hstep hinner hnext ih => exact .calls hstep hinner ih

/-- A script that makes no call and does not panic comes to its end, and leaves every depot
alone. -/
theorem Script.Local.comes {α : Type} {s : Script σ α} (hl : s.Local) (hc : s.Calm) (d : DepotId)
    (hub : Hub σ) : s.Comes (fun hub' _ => hub.Spares d hub') hub := by
  -- one action on, and a delay
  have hone : ∀ {s s' : Script σ α} {hub hub' : Hub σ}, s.step hub = .goes hub' s' →
      (∀ n, hub.Spares d (hub'.elapse n)) →
      (∀ hub, s'.Comes (fun hub' _ => hub.Spares d hub') hub) →
      s.Comes (fun hub' _ => hub.Spares d hub') hub := fun hs hspares ih =>
    .goes hs fun n => (ih _).imp fun hub'' _ hrest => (hspares n).trans hrest
  induction hl generalizing hub with
  | done a => exact .done (.refl d hub)
  | panic => cases hc
  | act hnext ih =>
    cases hc with
    | act hc => exact hone rfl (fun n => ⟨rfl, fun _ => rfl, fun _ => rfl, rfl⟩) (ih _ (hc _))
  | log hnext ih =>
    cases hc with
    | log hc => exact hone rfl (fun n => ⟨rfl, fun _ => rfl, fun _ => rfl, rfl⟩) (ih hc)
  | fresh hnext ih =>
    cases hc with
    | fresh hc => exact hone rfl (fun n => ⟨rfl, fun _ => rfl, fun _ => rfl, rfl⟩) (ih _ (hc _))

/-- Handlers whose code makes no calls and does not panic leave their depot alone. -/
theorem Hub.apart_of_local {hub : Hub σ} {d : DepotId}
    (hp : ∀ h handler g, .handler h ∈ (hub.depot d).participants →
      hub.handler? h = some handler → (handler.process g).Local ∧ (handler.process g).Calm)
    (hd : ∀ h handler c m, .handler h ∈ (hub.depot d).participants →
      hub.handler? h = some handler → handler.discard = some c →
      (c.send m).Local ∧ (c.send m).Calm) : hub.Apart d := by
  refine ⟨fun _ => True, trivial, fun _ _ _ _ => trivial, fun h handler hmem hh => ⟨?_, ?_⟩⟩
  · intro g hub' _
    obtain ⟨hl, hc⟩ := hp h handler g hmem hh
    exact (hl.comes hc d hub').imp fun _ _ hs => ⟨trivial, hs⟩
  · intro c hdc m hub' _
    obtain ⟨hl, hc⟩ := hd h handler c m hmem hh hdc
    exact (hl.comes hc d hub').imp fun _ _ hs => ⟨trivial, hs⟩

end Local

/-! ## The depot during a pass -/

/-- A hub during a pass over a depot, against the hub at the start: no handler came, went or
changed, and the shelf is the one given. -/
structure Hub.Midway (I : Hub σ → Prop) (d : DepotId) (hub start : Hub σ) (shelf : Shelf) :
    Prop where
  rest : I hub
  handlers : ∀ h, hub.handler? h = start.handler? h
  references : ∀ h, hub.references h = start.references h
  participants : (hub.depot d).participants = (start.depot d).participants
  service : (hub.depot d).InService
  opened : d < hub.depots.length
  shelf : (hub.depot d).shelf = shelf

namespace Hub

variable {d : DepotId} {hub : Hub σ} {h : HandlerId}

theorem elsewhere_setDepot (hub : Hub σ) (d : DepotId) (depot : Depot) :
    hub.Elsewhere d (hub.setDepot d depot) where
  depots _ hne := depot_setDepot_ne hub depot (Ne.symm hne)
  length := length_depots_setDepot hub d depot
  handlers _ := rfl
  references _ _ := rfl
  hooks := rfl
  arrange := rfl
  idsDrawn := rfl
  idOf := rfl
  outside := rfl
  clock := Nat.le_refl _

theorem elsewhere_refer (hh : hub.home? h = some d) : hub.Elsewhere d (hub.refer h) where
  depots _ _ := rfl
  length := rfl
  handlers := handler?_refer hub h
  references _ hne := by
    obtain ⟨handler, hhandler, -⟩ := Option.map_eq_some_iff.1 hh
    rw [references_refer hub (by simp [hhandler]), if_neg, Nat.add_zero]
    rintro rfl
    exact hne hh
  hooks := rfl
  arrange := rfl
  idsDrawn := rfl
  idOf := rfl
  outside := rfl
  clock := Nat.le_refl _

theorem elsewhere_unrefer (hh : hub.home? h = some d) : hub.Elsewhere d (hub.unrefer h) where
  depots _ _ := rfl
  length := rfl
  handlers := handler?_unrefer hub h
  references _ hne := by
    rw [references_unrefer, if_neg, Nat.sub_zero]
    rintro rfl
    exact hne hh
  hooks := rfl
  arrange := rfl
  idsDrawn := rfl
  idOf := rfl
  outside := rfl
  clock := Nat.le_refl _

end Hub

namespace Hub.Midway

variable {I : Hub σ → Prop} {d : DepotId} {start hub hub' : Hub σ} {shelf : Shelf}
  {h : HandlerId} {handler : Handler σ}

theorem isLive (hm : hub.Midway I d start shelf) (h : HandlerId) :
    hub.isLive h = start.isLive h := by
  rw [Bool.eq_iff_iff, isLive_iff, isLive_iff, hm.references]

theorem handler? (hm : hub.Midway I d (start.refer h) shelf)
    (hh : start.handler? h = some handler) : hub.handler? h = some handler := by
  rw [hm.handlers, handler?_refer, hh]

theorem spares (hm : hub.Midway I d start shelf) (hs : hub.Spares d hub') (hi : I hub') :
    hub'.Midway I d start shelf where
  rest := hi
  handlers h := (hs.handlers h).trans (hm.handlers h)
  references h := (hs.references h).trans (hm.references h)
  participants := by rw [hs.depot, hm.participants]
  service := by rw [hs.depot]; exact hm.service
  opened := by rw [hs.length]; exact hm.opened
  shelf := by rw [hs.depot, hm.shelf]

variable (hI : ∀ a b : Hub σ, I a → a.Elsewhere d b → I b)
include hI

theorem elapse (hm : hub.Midway I d start shelf) (n : Nat) :
    (hub.elapse n).Midway I d start shelf :=
  hm.spares ⟨rfl, fun _ => rfl, fun _ => rfl, rfl⟩
    (hI _ _ hm.rest ⟨fun _ _ => rfl, rfl, fun _ => rfl, fun _ _ => rfl, rfl, rfl, rfl, rfl, rfl,
      Nat.le_add_right _ _⟩)

theorem log (hm : hub.Midway I d start shelf) (r : Log.Record) :
    (hub.log r).Midway I d start shelf :=
  hm.spares ⟨rfl, fun _ => rfl, fun _ => rfl, rfl⟩
    (hI _ _ hm.rest ⟨fun _ _ => rfl, rfl, fun _ => rfl, fun _ _ => rfl, rfl, rfl, rfl, rfl, rfl,
      Nat.le_refl _⟩)

theorem setDepot (hm : hub.Midway I d start shelf) {depot : Depot} {shelf' : Shelf}
    (hp : depot.participants = (hub.depot d).participants)
    (ho : depot.outages = (hub.depot d).outages) (hs : depot.shelf = shelf') :
    (hub.setDepot d depot).Midway I d start shelf' where
  rest := hI _ _ hm.rest (hub.elsewhere_setDepot d depot)
  handlers := hm.handlers
  references := hm.references
  participants := by rw [depot_setDepot_self hub depot hm.opened, hp, hm.participants]
  service := by
    rw [depot_setDepot_self hub depot hm.opened]
    unfold Depot.InService
    rw [ho]
    exact hm.service
  opened := by simpa using hm.opened
  shelf := by rw [depot_setDepot_self hub depot hm.opened, hs]

theorem refer (hm : hub.Midway I d start shelf) (hh : start.home? h = some d) :
    (hub.refer h).Midway I d (start.refer h) shelf where
  rest := hI _ _ hm.rest (elsewhere_refer (by rw [home?, hm.handlers]; exact hh))
  handlers other := by rw [handler?_refer, handler?_refer, hm.handlers]
  references other := by
    have hsome := isSome_of_home? hh
    rw [references_refer hub (by rw [hm.handlers]; exact hsome), references_refer start hsome,
      hm.references]
  participants := hm.participants
  service := hm.service
  opened := hm.opened
  shelf := hm.shelf

theorem unrefer (hm : hub.Midway I d (start.refer h) shelf) (hh : start.home? h = some d) :
    (hub.unrefer h).Midway I d start shelf where
  rest := hI _ _ hm.rest (elsewhere_unrefer (by rw [home?, hm.handlers, handler?_refer]; exact hh))
  handlers other := by rw [handler?_unrefer, hm.handlers, handler?_refer]
  references other := by
    rw [references_unrefer, hm.references, references_refer start (isSome_of_home? hh),
      Nat.add_sub_cancel]
  participants := hm.participants
  service := hm.service
  opened := hm.opened
  shelf := hm.shelf

end Hub.Midway

/-! ## What an offer comes to -/

namespace Shelf

/-- The shelf without the group and the entry of a key. -/
def clear (s : Shelf) (key : Key) : Shelf := (s.setGroup key none).setLock key none

@[simp] theorem clear_setLock (s : Shelf) (key : Key) (e : Option LockEntry) :
    (s.setLock key e).clear key = s.clear key := by
  simp [clear, setLock, setGroup]

@[simp] theorem clear_setGroup (s : Shelf) (key : Key) (g : Option Group) :
    (s.setGroup key g).clear key = s.clear key := by
  simp [clear, setGroup]

theorem setLock_setLock (s : Shelf) (key : Key) (a b : Option LockEntry) :
    (s.setLock key a).setLock key b = s.setLock key b := by
  simp [setLock]

theorem setLock_of_eq {s : Shelf} {key : Key} {e : Option LockEntry} (h : s.lock? key = e) :
    s.setLock key e = s := by
  subst h
  simp [setLock]

theorem setGroup_of_eq {s : Shelf} {key : Key} {g : Option Group} (h : s.group? key = g) :
    s.setGroup key g = s := by
  subst h
  simp [setGroup]

theorem clear_group? (s : Shelf) (key other : Key) :
    (s.clear key).group? other = if other = key then none else s.group? other := by
  simp [clear]

theorem clear_lock? (s : Shelf) (key other : Key) :
    (s.clear key).lock? other = if other = key then none else s.lock? other := by
  simp [clear]

end Shelf

theorem Depot.shelf_set (d : Depot) (key : Key) (e : LockEntry) :
    ({ d with locks := d.locks.set key e } : Depot).shelf = d.shelf.setLock key (some e) := by
  simp only [shelf, Shelf.setLock, Shelf.mk.injEq, true_and]
  funext other
  simp only [KeyLocks.find?_set, Function.update_apply, eq_comm]

namespace Offer

variable {I : Hub σ → Prop} {d : DepotId} {start hub : Hub σ} {shelf : Shelf} {h : HandlerId}
  {handler : Handler σ} {stale g : Group} {Q : Hub σ → List Doing → Reply → Prop} {p : Place}
  {under : Option (Frame σ)} {done : List Doing} {o : Attempt ExpiryOutcome}

theorem works_sending (h : HandlerId) (stale g : Group) (m : Message) (left : List Message)
    (under : Option (Frame σ)) :
    Frame.Works (fun work => .offer h stale (.sending g m left work)) h under where
  goes hh hs := by
    obtain ⟨handler, hh⟩ := Option.isSome_iff_exists.1 hh
    obtain ⟨member, hmem, -⟩ := Option.map_eq_some_iff.1 hh
    exact ⟨by simp [Frame.step, step, hmem, send, hs], by simp [Frame.doing, doing]⟩
  calls hh hs := by
    obtain ⟨handler, hh⟩ := Option.isSome_iff_exists.1 hh
    obtain ⟨member, hmem, -⟩ := Option.map_eq_some_iff.1 hh
    simp [Frame.step, step, hmem, send, hs]
  resume _ _ := rfl

theorem works_completing (h : HandlerId) (stale g : Group) (under : Option (Frame σ)) :
    Frame.Works (fun work => .offer h stale (.completing g work)) h under where
  goes hh hs := by
    obtain ⟨handler, hh⟩ := Option.isSome_iff_exists.1 hh
    obtain ⟨member, hmem, -⟩ := Option.map_eq_some_iff.1 hh
    exact ⟨by simp [Frame.step, step, hmem, complete, hs], by simp [Frame.doing, doing]⟩
  calls hh hs := by
    obtain ⟨handler, hh⟩ := Option.isSome_iff_exists.1 hh
    obtain ⟨member, hmem, -⟩ := Option.map_eq_some_iff.1 hh
    simp [Frame.step, step, hmem, complete, hs]
  resume _ _ := rfl

theorem comes_detached (hm : hub.Midway I d start shelf) (hh : start.handler? h = some handler)
    (hl : start.isLive h = false) (hq : Q hub done (.offered (.returned .detached))) :
    (Frame.offer h stale .meeting).Comes Q p under hub done := by
  rw [← hm.handlers] at hh
  obtain ⟨m, hmem, -⟩ := Option.map_eq_some_iff.1 hh
  refine .ends ?_ hq
  rw [← hm.isLive] at hl
  simp [Frame.step, step, hmem, meet, hl]

variable (hI : ∀ a b : Hub σ, I a → a.Elsewhere d b → I b)
  (hh : start.handler? h = some handler) (hd : handler.depot = d) (hl : start.isLive h = true)
include hI hh hd hl

theorem comes_leaving (hm : hub.Midway I d (start.refer h) shelf)
    (hq : ∀ hub' : Hub σ, hub'.Midway I d start shelf → Q hub' done (.offered o)) :
    (Frame.offer h stale (.leaving o)).Comes Q p under hub done := by
  have hleft := hm.unrefer hI (by rw [Hub.home?_of_handler? hh, hd])
  obtain ⟨m, hmem, -⟩ := Option.map_eq_some_iff.1 (hm.handler? hh)
  refine .ends ?_ (hq _ hleft)
  have hlive : (hub.unrefer h).isLive h = true := by rw [hleft.isLive, hl]
  simp [Frame.step, step, hmem, leave, hlive]

theorem comes_releasing (hm : hub.Midway I d (start.refer h) shelf) {retire : Bool}
    (hq : ∀ hub' : Hub σ, hub'.Midway I d start
      (shelf.setLock stale.key (Depot.freed retire (shelf.lock? stale.key))) →
      Q hub' done (.offered o)) :
    (Frame.offer h stale (.releasing retire o)).Comes Q p under hub done := by
  obtain ⟨m, hmem, rfl⟩ := Option.map_eq_some_iff.1 (hm.handler? hh)
  have hfreed : (hub.setDepot d ((hub.depot d).release stale.key retire)).Midway I d
      (start.refer h) (shelf.setLock stale.key (Depot.freed retire (shelf.lock? stale.key))) :=
    hm.setDepot hI rfl rfl (by rw [Depot.shelf_release, hm.shelf])
  refine .silent _ (.offer h stale (.leaving o)) ?_ (by simp [Frame.doing, doing])
    fun n => comes_leaving hI hh hd hl (hfreed.elapse hI n) hq
  simp [Frame.step, step, hmem, release, hd]

/-- The removal of the group, and what is left to do then. -/
theorem comes_removing (hm : hub.Midway I d (start.refer h) shelf) (hp : p.depth ≤ 1)
    (hq : ∀ (hub' : Hub σ) t, hub'.Midway I d start (shelf.clear stale.key) →
      Q hub' (done ++ [Doing.removed d stale.key (shelf.group? stale.key) t
        (.offer (under.bind Frame.timeout?))]) (.offered (.returned .expired))) :
    (Frame.offer h stale (.removing g)).Comes Q p under hub done := by
  have hh' := hm.handler? hh
  obtain ⟨m, hmem, hmh⟩ := Option.map_eq_some_iff.1 hh'
  have hremove := hm.service.remove stale.key
  have hgone : (hub.setDepot d
      { hub.depot d with store := ((hub.depot d).store.remove stale.key).1 }).Midway I d
      (start.refer h) (shelf.setGroup stale.key none) :=
    hm.setDepot hI rfl rfl (by rw [Depot.shelf_remove, hm.shelf])
  have hfind : (hub.depot d).store.find? stale.key = shelf.group? stale.key :=
    congrFun (congrArg Shelf.group? hm.shelf) stale.key
  refine .does _ (.offer h stale (.releasing true (.returned .expired))) ?_ ?_ ?_
    fun n => comes_releasing hI hh hd hl (hgone.elapse hI n) fun hub' hm' => hq hub' hub.clock hm'
  · simp [Frame.step, step, hmem, hmh, remove, hd, hremove]
  · simp [Frame.doing, hh', doing, Depot.removal, hd, hremove, hfind]
  · simp [Note.deed?, hp]

/-- Whatever the channel answers, each message goes to it once, and then the group is removed. -/
theorem comes_discarding {c : Channel σ} (hc : handler.discard = some c)
    (hap : ∀ m, (c.send m).Apart I d) (hp : p.depth = 1) (left : List Message)
    (hm : hub.Midway I d (start.refer h) shelf)
    (hq : ∀ (hub' : Hub σ) t, hub'.Midway I d start (shelf.clear stale.key) →
      Q hub' (done ++ left.map .sent ++ [Doing.removed d stale.key (shelf.group? stale.key) t
        (.offer (under.bind Frame.timeout?))]) (.offered (.returned .expired))) :
    (Frame.offer h stale (.discarding g left)).Comes Q p under hub done := by
  induction left generalizing hub done with
  | nil =>
    obtain ⟨member, hmem, -⟩ := Option.map_eq_some_iff.1 (hm.handler? hh)
    refine .silent hub (.offer h stale (.removing g)) ?_
      (by simp [Frame.doing, doing]) fun n => ?_
    · simp [Frame.step, step, hmem, discardNext]
    · exact comes_removing hI hh hd hl (hm.elapse hI n) (Nat.le_of_eq hp) (by simpa using hq)
  | cons m left ih =>
    have hh' := hm.handler? hh
    obtain ⟨member, hmem, hmh⟩ := Option.map_eq_some_iff.1 hh'
    refine .does hub (.offer h stale (.sending g m left (c.send m))) (x := .sent m)
      ?_ ?_ (by simp [Note.deed?, hp]) fun n => ?_
    · simp [Frame.step, step, hmem, hmh, discardNext, hc]
    · simp [Frame.doing, hh', doing]
    · have hmn := hm.elapse hI n
      refine (hap m _ hmn.rest).works (works_sending h stale g m left under) (Nat.le_of_eq hp.symm)
        (by rw [hmn.handler? hh]; rfl) fun hub' a hcame => ?_
      obtain ⟨hrest, hspares⟩ := hcame
      have hm' := hmn.spares hspares hrest
      obtain ⟨member', hmem', -⟩ := Option.map_eq_some_iff.1 (hm'.handler? hh)
      -- the answer of the channel shows in the journal only
      rcases a with e | ⟨⟩
      · refine .silent _ (.offer h stale (.discarding g left)) ?_
          (by simp [Frame.doing, doing])
          fun n' => ih ((hm'.log hI (undiscarded g m e)).elapse hI n') ?_
        · simp [Frame.step, step, hmem', send, Script.step]
        · simpa using hq
      · refine .silent _ (.offer h stale (.discarding g left)) ?_
          (by simp [Frame.doing, doing]) fun n' => ih (hm'.elapse hI n') ?_
        · simp [Frame.step, step, hmem', send, Script.step]
        · simpa using hq

/-- Whatever the processor answers, the group is removed then. -/
theorem comes_completing (hap : (handler.process g).Apart I d) (hp : p.depth = 1)
    (hm : hub.Midway I d (start.refer h) shelf)
    (hq : ∀ (hub' : Hub σ) t, hub'.Midway I d start (shelf.clear stale.key) →
      Q hub' (done ++ [Doing.removed d stale.key (shelf.group? stale.key) t
        (.offer (under.bind Frame.timeout?))]) (.offered (.returned .expired))) :
    (Frame.offer h stale (.completing g (handler.process g))).Comes Q p under hub done := by
  refine (hap _ hm.rest).works (works_completing h stale g under) (Nat.le_of_eq hp.symm)
    (by rw [hm.handler? hh]; rfl) fun hub' a ⟨hrest, hspares⟩ => ?_
  have hm' := hm.spares hspares hrest
  obtain ⟨member, hmem, -⟩ := Option.map_eq_some_iff.1 (hm'.handler? hh)
  rcases a with e | ⟨⟩
  · refine .silent _ (.offer h stale (.removing g)) ?_ (by simp [Frame.doing, doing])
      fun n => comes_removing hI hh hd hl ((hm'.log hI (uncompleted g e)).elapse hI n)
        (Nat.le_of_eq hp) hq
    simp [Frame.step, step, hmem, complete, Script.step]
  · refine .silent _ (.offer h stale (.removing g)) ?_ (by simp [Frame.doing, doing])
      fun n => comes_removing hI hh hd hl (hm'.elapse hI n) (Nat.le_of_eq hp) hq
    simp [Frame.step, step, hmem, complete, Script.step]

/-- A group that is as it was selected is dealt with as the settings of the handler say. -/
theorem comes_rereading (hprocess : ∀ g, (handler.process g).Apart I d)
    (hdiscard : ∀ c, handler.discard = some c → ∀ m, (c.send m).Apart I d) (hp : p.depth = 1)
    (hm : hub.Midway I d (start.refer h) shelf) (hg : shelf.group? stale.key = some stale)
    (hfull : stale.isEmpty = false)
    (hq : ∀ (hub' : Hub σ) t, hub'.Midway I d start (shelf.clear stale.key) →
      Q hub' (done ++ (handler.expiryDoings h stale ++ [Doing.removed d stale.key (some stale) t
        (.offer (under.bind Frame.timeout?))])) (.offered (.returned .expired))) :
    (Frame.offer h stale .rereading).Comes Q p under hub done := by
  have hh' := hm.handler? hh
  obtain ⟨member, hmem, hmh⟩ := Option.map_eq_some_iff.1 hh'
  have hfind : (hub.depot d).store.find? stale.key = some stale :=
    (congrFun (congrArg Shelf.group? hm.shelf) stale.key).trans hg
  have hget : (hub.depot d).get stale.key hub.clock = .ok stale := by
    rw [hm.service.get, Store.get_of_find? hfind]
  have hstep : (Frame.offer h stale .rereading).step hub = act hub handler h stale stale := by
    simp [Frame.step, step, hmem, hmh, reread, hd, hget, hfull]
  rcases haction : handler.settings.expiryAction with _ | _
  · rcases hc : handler.discard with _ | c
    · have hdoings : handler.expiryDoings h stale = [.discarded h stale false] := by
        simp [Handler.expiryDoings, haction, hc]
      obtain ⟨r, hr⟩ : ∃ r, act hub handler h stale stale
          = .goes (hub.log r) (.offer h stale (.removing stale)) := by
        simp only [act, haction, hc]
        exact ⟨_, rfl⟩
      refine .does _ _ (x := .discarded h stale false) (hstep.trans hr)
        (by simp [Frame.doing, hh', doing]) (by simp [Note.deed?, hp]) fun n =>
          comes_removing hI hh hd hl ((hm.log hI r).elapse hI n) (Nat.le_of_eq hp) ?_
      simpa [hdoings, hg] using hq
    · have hdoings : handler.expiryDoings h stale
          = .discarded h stale true :: stale.messages.map .sent := by
        simp [Handler.expiryDoings, haction, hc]
      refine .does hub (.offer h stale (.discarding stale stale.messages))
        (x := .discarded h stale true) (hstep.trans ?_) (by simp [Frame.doing, hh', doing])
        (by simp [Note.deed?, hp]) fun n => comes_discarding hI hh hd hl hc (hdiscard c hc) hp _
          (hm.elapse hI n) ?_
      · simp [act, haction, hc]
      · simpa [hdoings, hg] using hq
  · have hdoings : handler.expiryDoings h stale = [.completed h stale handler.output.isSome] := by
      simp [Handler.expiryDoings, haction]
    refine .does hub (.offer h stale (.completing stale (handler.process stale)))
      (x := .completed h stale handler.output.isSome) (hstep.trans ?_)
      (by simp [Frame.doing, hh', doing]) (by simp [Note.deed?, hp]) fun n =>
        comes_completing hI hh hd hl (hprocess stale) hp (hm.elapse hI n) ?_
    · simp [act, haction]
    · simpa [hdoings, hg] using hq

theorem comes_meeting (hm : hub.Midway I d start shelf)
    (next : ∀ hub' : Hub σ, hub'.Midway I d (start.refer h) shelf →
      (Frame.offer h stale .seizing).Comes Q p under hub' done) :
    (Frame.offer h stale .meeting).Comes Q p under hub done := by
  obtain ⟨member, hmem, -⟩ := Option.map_eq_some_iff.1 ((hm.handlers h).trans hh)
  have hmet := hm.refer hI (by rw [Hub.home?_of_handler? hh, hd])
  refine .silent (hub.refer h) _ ?_ (by simp [Frame.doing, doing]) fun n =>
    next _ (hmet.elapse hI n)
  simp [Frame.step, step, hmem, meet, hm.isLive, hl]

omit hl in
/-- The key is taken, and its entry is `e` then. -/
theorem comes_seizing (hm : hub.Midway I d (start.refer h) shelf) (e : LockEntry)
    (htake : ∀ locks : KeyLocks, locks.find? stale.key = shelf.lock? stale.key →
      locks.tryAcquireOwned? stale.key h = some (locks.set stale.key e))
    (next : ∀ hub' : Hub σ, hub'.Midway I d (start.refer h) (shelf.setLock stale.key (some e)) →
      (Frame.offer h stale .rereading).Comes Q p under hub' done) :
    (Frame.offer h stale .seizing).Comes Q p under hub done := by
  obtain ⟨member, hmem, hmh⟩ := Option.map_eq_some_iff.1 (hm.handler? hh)
  have hheld : (hub.setDepot d { hub.depot d with
      locks := (hub.depot d).locks.set stale.key e }).Midway I d (start.refer h)
      (shelf.setLock stale.key (some e)) :=
    hm.setDepot hI rfl rfl (by rw [Depot.shelf_set, hm.shelf])
  refine .silent _ (.offer h stale .rereading) ?_ (by simp [Frame.doing, doing]) fun n =>
    next _ (hheld.elapse hI n)
  have hlocks := htake (hub.depot d).locks
    (congrFun (congrArg Shelf.lock? hm.shelf) stale.key)
  simp [Frame.step, step, hmem, hmh, seize, hd, hlocks]

/-- A key that nobody owns, or the handler itself, is taken for a stored group, and the group is
expired. -/
theorem comes_expired (hprocess : ∀ g, (handler.process g).Apart I d)
    (hdiscard : ∀ c, handler.discard = some c → ∀ m, (c.send m).Apart I d) (hp : p.depth = 1)
    (hm : hub.Midway I d start shelf) (hg : shelf.group? stale.key = some stale)
    (hfull : stale.isEmpty = false) {owner : Option Owner}
    (hlock : shelf.lock? stale.key = some ⟨false, owner⟩) (hown : owner = none ∨ owner = some h)
    (hq : ∀ (hub' : Hub σ) t, hub'.Midway I d start (shelf.clear stale.key) →
      Q hub' (done ++ (handler.expiryDoings h stale ++ [Doing.removed d stale.key (some stale) t
        (.offer (under.bind Frame.timeout?))])) (.offered (.returned .expired))) :
    (Frame.offer h stale .meeting).Comes Q p under hub done := by
  refine comes_meeting hI hh hd hl hm fun hub' hm' =>
    comes_seizing hI hh hd hm' ⟨true, owner⟩ (fun locks hlocks => ?_) fun hub'' hm'' =>
      comes_rereading hI hh hd hl hprocess hdiscard hp hm'' hg hfull (by simpa using hq)
  rw [hlock] at hlocks
  rcases hown with rfl | rfl <;> simp [KeyLocks.tryAcquireOwned?, hlocks]

/-- A handler leaves a key alone that somebody else owns. -/
theorem comes_foreign (hm : hub.Midway I d start shelf) {other : Owner}
    (hlock : shelf.lock? stale.key = some ⟨false, some other⟩) (hne : other ≠ h)
    (hq : ∀ hub' : Hub σ, hub'.Midway I d start shelf →
      Q hub' done (.offered (.returned .skipped))) :
    (Frame.offer h stale .meeting).Comes Q p under hub done := by
  refine comes_meeting hI hh hd hl hm fun hub' hm' => ?_
  obtain ⟨member, hmem, hmh⟩ := Option.map_eq_some_iff.1 (hm'.handler? hh)
  have hentry : (hub'.depot d).locks.find? stale.key = some ⟨false, some other⟩ :=
    (congrFun (congrArg Shelf.lock? hm'.shelf) stale.key).trans hlock
  have hno : (hub'.depot d).locks.tryAcquireOwned? stale.key h = none := by
    simp [KeyLocks.tryAcquireOwned?, hentry, hne]
  refine .silent hub' (.offer h stale (.leaving (.returned .skipped))) ?_
    (by simp [Frame.doing, doing]) fun n => comes_leaving hI hh hd hl (hm'.elapse hI n) hq
  simp [Frame.step, step, hmem, hmh, seize, hd, hno]

/-- A handler that comes too late makes an entry for the key and takes it away again. -/
theorem comes_late (hm : hub.Midway I d start shelf) (hg : shelf.group? stale.key = none)
    (hlock : shelf.lock? stale.key = none)
    (hq : ∀ hub' : Hub σ, hub'.Midway I d start shelf →
      Q hub' done (.offered (.returned .skipped))) :
    (Frame.offer h stale .meeting).Comes Q p under hub done := by
  refine comes_meeting hI hh hd hl hm fun hub' hm' =>
    comes_seizing hI hh hd hm' ⟨true, some h⟩ (fun locks hlocks => ?_) fun hub'' hm'' => ?_
  · rw [hlock] at hlocks
    simp [KeyLocks.tryAcquireOwned?, hlocks]
  · obtain ⟨member, hmem, hmh⟩ := Option.map_eq_some_iff.1 (hm''.handler? hh)
    have hfind : (hub''.depot d).store.find? stale.key = none :=
      (congrFun (congrArg Shelf.group? hm''.shelf) stale.key).trans hg
    have hget : (hub''.depot d).get stale.key hub''.clock = .ok (.empty stale.key hub''.clock) := by
      rw [hm''.service.get, Store.get_of_find?_none hfind]
    refine .silent hub'' (.offer h stale (.releasing true (.returned .skipped))) ?_
      (by simp [Frame.doing, doing]) fun n => comes_releasing hI hh hd hl (hm''.elapse hI n) ?_
    · simp [Frame.step, step, hmem, hmh, reread, hd, hget, Group.empty, Group.isEmpty]
    · simpa [Depot.freed, Shelf.setLock_setLock, Shelf.setLock_of_eq hlock] using hq

end Offer

end Collate
