import Collate.Proofs.Apart

/-!
# A message handled at once

A handler that nobody else keeps busy, on an unbounded depot in service, is seen through its shelf
and the outside (`Hub.Serves`). What it makes of a message is known then: one without a key is
refused (`Machine.handle_keyless`), one that does not complete its group is stored
(`Machine.handle_pending`), and one that does is taken out with its group once the processor is
through (`Machine.handle_released`). Handling at once is bounded, so all of them count their steps
(`Frame.Soon`).
-/

namespace Collate

variable {σ : Type}

/-! ## Calls that end soon -/

/-- A call comes, within so many steps and without a call of its own, to an end of which `Q` holds,
whatever time goes by between its steps. -/
inductive Frame.Soon (Q : Hub σ → Reply → Prop) : Nat → Hub σ → Frame σ → Prop
  | goes {k hub f} (hub' f') : f.step hub = .goes hub' f' →
      (∀ n, Soon Q k (hub'.elapse n) f') → Soon Q (k + 1) hub f
  | ends {k hub f} (hub' r) : f.step hub = .ends hub' r → Q hub' r → Soon Q (k + 1) hub f

/-- A script that makes no call and leaves the depots alone comes, within so many steps, to a value
of which, and of the outside, `Q` holds. -/
inductive Script.Within {α : Type} (Q : σ → α → Prop) : Nat → σ → Script σ α → Prop
  | done {k o a} : Q o a → Within Q k o (.done a)
  | act {k o change next} : Within Q k (change o) (next o) → Within Q (k + 1) o (.act change next)
  | log {k o r next} : Within Q k o next → Within Q (k + 1) o (.log r next)
  | fresh {k o next} : (∀ id, Within Q k o (next id)) → Within Q (k + 1) o (.fresh next)

theorem Script.Within.imp {α : Type} {P Q : σ → α → Prop} {k : Nat} {o : σ} {s : Script σ α}
    (hs : s.Within P k o) (hpq : ∀ o a, P o a → Q o a) : s.Within Q k o := by
  induction hs with
  | done hp => exact .done (hpq _ _ hp)
  | act _ ih => exact .act ih
  | log _ ih => exact .log ih
  | fresh _ ih => exact .fresh ih

theorem Script.Within.bind {α β : Type} {P : σ → α → Prop} {Q : σ → β → Prop} {k j : Nat} {o : σ}
    {s : Script σ α} {f : α → Script σ β} (hs : s.Within P k o)
    (hf : ∀ o a, P o a → ∀ i, (f a).Within Q (i + j) o) : (s.bind f).Within Q (k + j) o := by
  induction hs with
  | done hp => exact hf _ _ hp _
  | @act k o change next _ ih =>
    rw [Nat.add_right_comm]
    exact .act ih
  | @log k o r next _ ih =>
    rw [Nat.add_right_comm]
    exact .log ih
  | @fresh k o next _ ih =>
    rw [Nat.add_right_comm]
    exact .fresh ih

namespace Frame.Soon

variable {Q : Hub σ → Reply → Prop} {k : Nat} {hub : Hub σ} {f : Frame σ}

theorem le (hs : f.Soon Q k hub) {j : Nat} (hkj : k ≤ j) : f.Soon Q j hub := by
  induction hs generalizing j with
  | goes hub' f' hstep _ ih =>
    obtain ⟨j, rfl⟩ := Nat.exists_eq_add_of_le' (Nat.le_of_add_left_le hkj)
    exact .goes hub' f' hstep fun n => ih n (Nat.le_of_add_le_add_right hkj)
  | ends hub' r hstep hq =>
    obtain ⟨j, rfl⟩ := Nat.exists_eq_add_of_le' (Nat.le_of_add_left_le hkj)
    exact .ends hub' r hstep hq

/-- A thread that works alone on such a call comes to the end of it. -/
theorem work (k fuel : Nat) {s : Machine σ} {i : Nat} {f : Frame σ} (hk : k ≤ fuel)
    (ht : s.threads[i]? = some ⟨[f], none⟩) (hs : ∀ n, f.Soon Q k (s.hub.elapse n)) :
    ∃ hub' r, Q hub' r ∧ s.work fuel i = ⟨hub', s.threads.set i ⟨[], some r⟩⟩ := by
  have hi : i < s.threads.length := (List.getElem?_eq_some_iff.1 ht).1
  induction k generalizing s f fuel with
  | zero => cases hs 0
  | succ k ih =>
    obtain ⟨fuel, rfl⟩ := Nat.exists_eq_add_of_le' (Nat.le_of_add_left_le hk)
    -- the step that is looked at, and the one that is done a moment later
    obtain ⟨_, _, hran⟩ : ∃ hub' t, s.progress i = .ran hub' t := by
      have hnow : f.Soon Q (k + 1) s.hub := hs 0
      cases hnow with
      | goes hub' f' hstep =>
        exact ⟨hub', ⟨[f'], none⟩, by simp [Machine.progress, ht, Thread.step, hstep]⟩
      | ends hub' r hstep =>
        exact ⟨hub', ⟨[], some r⟩, by simp [Machine.progress, ht, Thread.step, hstep]⟩
    have hwork : s.work (fuel + 1) i = (s.advance i).work fuel i := by
      rw [Machine.work, hran]
    rw [hwork]
    cases hs 1 with
    | goes hub' f' hstep hnext =>
      have hadvance : s.advance i = ⟨hub', s.threads.set i ⟨[f'], none⟩⟩ := by
        simp [Machine.advance, Machine.apply, Machine.progress, ht, Thread.step, hstep]
      rw [hadvance]
      obtain ⟨hub'', r, hq, hrest⟩ := ih fuel (s := ⟨hub', s.threads.set i ⟨[f'], none⟩⟩)
        (Nat.le_of_add_le_add_right hk) (List.getElem?_set_self hi) hnext (by simpa using hi)
      exact ⟨hub'', r, hq, by rw [hrest, List.set_set]⟩
    | ends hub' r hstep hq =>
      have hadvance : s.advance i = ⟨hub', s.threads.set i ⟨[], some r⟩⟩ := by
        simp [Machine.advance, Machine.apply, Machine.progress, ht, Thread.step, hstep]
      refine ⟨hub', r, hq, ?_⟩
      rw [hadvance]
      cases fuel with
      | zero => rfl
      | succ fuel =>
        simp [Machine.work, Machine.progress, List.getElem?_set_self hi, Thread.step]

end Frame.Soon

/-- What the handling of a message soon comes to is what it comes to when it is handled at once. -/
theorem Machine.handle_of_soon {s : Machine σ} {h : HandlerId} {m : Message} {k : Nat}
    {Q : Hub σ → Attempt (Except HandlerError Handled) → Prop} (hk : k ≤ patience)
    (hs : ∀ n, (Frame.handling h (.arriving m)).Soon
      (fun hub' r => ∃ result, r = .handled result ∧ Q hub' result) k (s.hub.elapse n)) :
    ∃ hub' result, Q hub' result ∧ s.handle h m = (⟨hub', s.threads⟩, result) := by
  obtain ⟨hub', _, ⟨result, rfl, hq⟩, hwork⟩ := Frame.Soon.work k patience
    (s := s.apply (.start (.handle h m))) (i := s.threads.length) hk
    (by simp [apply, Thread.start, Activity.frame]) hs
  have hfinish : finish patience patience s.threads.length (s.apply (.start (.handle h m)))
      = ⟨hub', s.threads ++ [⟨[], some (.handled result)⟩]⟩ := by
    have hset : (s.apply (.start (.handle h m))).threads.set s.threads.length
        ⟨[], some (.handled result)⟩ = s.threads ++ [⟨[], some (.handled result)⟩] := by
      simp [apply]
    rw [hset] at hwork
    obtain ⟨waits, hwaits⟩ : ∃ waits, patience = waits + 1 := ⟨9999999, rfl⟩
    have hover : (⟨hub', s.threads ++ [⟨[], some (.handled result)⟩]⟩ : Machine σ).progress
        s.threads.length = .over := by simp [progress, Thread.step]
    conv_lhs => rw [show finish patience patience = finish (waits + 1) patience by rw [← hwaits]]
    simp only [finish, hwork, hover]
  refine ⟨hub', result, hq, ?_⟩
  simp [handle, call, hfinish, reply?]

namespace Hub

theorem elapse_add (hub : Hub σ) (t t' : Nat) : hub.elapse (t + t') = (hub.elapse t).elapse t' := by
  simp [elapse, Nat.add_assoc]

theorem unrefer_refer (hub : Hub σ) (h : HandlerId) : (hub.refer h).unrefer h = hub := by
  simp only [refer, unrefer, List.modify_modify_eq]
  have hsame : ((fun m : Member σ => { m with references := m.references - 1 })
      ∘ fun m => { m with references := m.references + 1 }) = id := rfl
  rw [hsame, List.modify_id]

end Hub

/-! ## A handler on its own -/

/-- A handler with so many references, on an unbounded depot in service with a given shelf. -/
structure Hub.Serves (hub : Hub σ) (h : HandlerId) (handler : Handler σ) (n : Nat) (shelf : Shelf)
    (outside : σ) : Prop where
  known : hub.handler? h = some handler
  references : hub.references h = n
  opened : handler.depot < hub.depots.length
  service : (hub.depot handler.depot).InService
  unbounded : (hub.depot handler.depot).store.capacity = none
  shelf : (hub.depot handler.depot).shelf = shelf
  outside : hub.outside = outside

namespace Hub.Serves

variable {hub : Hub σ} {h : HandlerId} {handler : Handler σ} {n : Nat} {shelf : Shelf} {o : σ}

theorem elapse (hs : hub.Serves h handler n shelf o) (nanos : Nat) :
    (hub.elapse nanos).Serves h handler n shelf o :=
  ⟨hs.known, hs.references, hs.opened, hs.service, hs.unbounded, hs.shelf, hs.outside⟩

theorem log (hs : hub.Serves h handler n shelf o) (r : Log.Record) :
    (hub.log r).Serves h handler n shelf o :=
  ⟨hs.known, hs.references, hs.opened, hs.service, hs.unbounded, hs.shelf, hs.outside⟩

theorem note (hs : hub.Serves h handler n shelf o) (journal : Log.Journal) :
    ({ hub with journal := hub.journal ++ journal } : Hub σ).Serves h handler n shelf o :=
  ⟨hs.known, hs.references, hs.opened, hs.service, hs.unbounded, hs.shelf, hs.outside⟩

theorem draw (hs : hub.Serves h handler n shelf o) : hub.draw.1.Serves h handler n shelf o :=
  ⟨hs.known, hs.references, hs.opened, hs.service, hs.unbounded, hs.shelf, hs.outside⟩

theorem act (hs : hub.Serves h handler n shelf o) (change : σ → σ) :
    ({ hub with outside := change hub.outside } : Hub σ).Serves h handler n shelf (change o) :=
  ⟨hs.known, hs.references, hs.opened, hs.service, hs.unbounded, hs.shelf,
    congrArg change hs.outside⟩

theorem refer (hs : hub.Serves h handler n shelf o) :
    (hub.refer h).Serves h handler (n + 1) shelf o where
  known := by rw [handler?_refer, hs.known]
  references := by rw [references_refer hub (by rw [hs.known]; rfl), hs.references, if_pos rfl]
  opened := hs.opened
  service := hs.service
  unbounded := hs.unbounded
  shelf := hs.shelf
  outside := hs.outside

theorem unrefer (hs : hub.Serves h handler (n + 1) shelf o) :
    (hub.unrefer h).Serves h handler n shelf o where
  known := by rw [handler?_unrefer, hs.known]
  references := by rw [references_unrefer, hs.references, if_pos rfl, Nat.add_sub_cancel]
  opened := hs.opened
  service := hs.service
  unbounded := hs.unbounded
  shelf := hs.shelf
  outside := hs.outside

theorem setDepot (hs : hub.Serves h handler n shelf o) (depot : Depot) {shelf' : Shelf}
    (ho : depot.outages = (hub.depot handler.depot).outages)
    (hc : depot.store.capacity = (hub.depot handler.depot).store.capacity)
    (hshelf : depot.shelf = shelf') :
    (hub.setDepot handler.depot depot).Serves h handler n shelf' o where
  known := hs.known
  references := hs.references
  opened := by simpa using hs.opened
  service := by
    rw [depot_setDepot_self hub depot hs.opened]
    unfold Depot.InService
    rw [ho]
    exact hs.service
  unbounded := by rw [depot_setDepot_self hub depot hs.opened, hc, hs.unbounded]
  shelf := by rw [depot_setDepot_self hub depot hs.opened, hshelf]
  outside := hs.outside

end Hub.Serves

namespace Handling

variable {Q : Hub σ → Reply → Prop} {hub : Hub σ} {h : HandlerId} {handler : Handler σ}
  {n k : Nat} {shelf : Shelf} {o : σ} {key : Key} {m : Message} {g : Group}
  {result : Attempt (Except HandlerError Handled)}

theorem soon_leaving (hs : hub.Serves h handler (n + 1) shelf o) (hn : 0 < n)
    (hq : ∀ hub' : Hub σ, hub'.Serves h handler n shelf o → Q hub' (.handled result)) :
    (Frame.handling h (.leaving result)).Soon Q 1 hub := by
  obtain ⟨member, hmem, -⟩ := Option.map_eq_some_iff.1 hs.known
  refine .ends _ _ ?_ (hq _ hs.unrefer)
  have hlive : (hub.unrefer h).isLive h = true := by
    rw [Hub.isLive_iff, hs.unrefer.references]
    exact hn
  simp [Frame.step, step, hmem, leave, hlive]

theorem soon_releasing (hs : hub.Serves h handler (n + 1) shelf o) (hn : 0 < n) {retire : Bool}
    (hq : ∀ hub' : Hub σ, hub'.Serves h handler n
      (shelf.setLock key (Depot.freed retire (shelf.lock? key))) o → Q hub' (.handled result)) :
    (Frame.handling h (.releasing key retire result)).Soon Q 2 hub := by
  obtain ⟨member, hmem, rfl⟩ := Option.map_eq_some_iff.1 hs.known
  have hstep : (Frame.handling h (.releasing key retire result)).step hub
      = .goes (hub.setDepot member.handler.depot
          ((hub.depot member.handler.depot).release key retire))
        (.handling h (.leaving result)) := by
    simp only [Frame.step, step, hmem, release]
  have hfreed := hs.setDepot ((hub.depot member.handler.depot).release key retire) rfl rfl
    (by rw [Depot.shelf_release, hs.shelf])
  exact .goes _ _ hstep fun t => soon_leaving (hfreed.elapse t) hn hq

theorem soon_removing (hs : hub.Serves h handler (n + 1) shelf o) (hn : 0 < n)
    {said : Except ProcessingError Unit}
    (hq : ∀ hub' : Hub σ, hub'.Serves h handler n (shelf.clear key) o →
      Q hub' (.handled (.returned (completed key g.size said)))) :
    (Frame.handling h (.removing key g said)).Soon Q 3 hub := by
  obtain ⟨member, hmem, rfl⟩ := Option.map_eq_some_iff.1 hs.known
  have hstep : (Frame.handling h (.removing key g said)).step hub
      = .goes (hub.setDepot member.handler.depot { hub.depot member.handler.depot with
          store := ((hub.depot member.handler.depot).store.remove key).1 })
        (.handling h (.releasing key true (.returned (completed key g.size said)))) := by
    simp only [Frame.step, step, hmem, remove, hs.service.remove key]
  have hgone := hs.setDepot { hub.depot member.handler.depot with
    store := ((hub.depot member.handler.depot).store.remove key).1 } rfl rfl
    (by rw [Depot.shelf_remove, hs.shelf])
  exact .goes _ _ hstep fun t => soon_releasing (hgone.elapse t) hn hq

/-- The processor comes to its end, and then the group goes. -/
theorem soon_processing {work : Script σ (Except ProcessingError Unit)}
    {P : σ → Except ProcessingError Unit → Prop} (hw : work.Within P k o)
    (hs : hub.Serves h handler (n + 1) shelf o) (hn : 0 < n)
    (hq : ∀ (hub' : Hub σ) o' said, P o' said → hub'.Serves h handler n (shelf.clear key) o' →
      Q hub' (.handled (.returned (completed key g.size said)))) :
    (Frame.handling h (.processing key g work)).Soon Q (k + 4) hub := by
  -- a step of the processor is a step of the handling
  have hgoes : ∀ {hub hub' : Hub σ} {o : σ} {work work' : Script σ (Except ProcessingError Unit)},
      hub.Serves h handler (n + 1) shelf o → work.step hub = .goes hub' work' →
      (Frame.handling h (.processing key g work)).step hub
        = .goes hub' (.handling h (.processing key g work')) := by
    intro hub hub' o work work' hs hstep
    obtain ⟨member, hmem, -⟩ := Option.map_eq_some_iff.1 hs.known
    simp only [Frame.step, step, hmem, process, hstep]
  induction hw generalizing hub with
  | @done k o said hp =>
    obtain ⟨member, hmem, -⟩ := Option.map_eq_some_iff.1 hs.known
    have hstep : (Frame.handling h (.processing key g (.done said))).step hub
        = .goes hub (.handling h (.removing key g said)) := by
      simp only [Frame.step, step, hmem, process, Script.step]
    exact .goes _ _ hstep fun t => (soon_removing (hs.elapse t) hn fun hub' hs' =>
      hq hub' o said hp hs').le (Nat.le_add_left 3 k)
  | @act k o change next hnext ih =>
    rw [Nat.add_right_comm]
    refine .goes _ _ (hgoes hs rfl) fun t => ?_
    have hacted := (hs.act change).elapse t
    rw [hs.outside] at hacted ⊢
    exact ih hacted
  | log hnext ih =>
    rw [Nat.add_right_comm]
    exact .goes _ _ (hgoes hs rfl) fun t => ih ((hs.log _).elapse t)
  | fresh hnext ih =>
    rw [Nat.add_right_comm]
    exact .goes _ _ (hgoes hs rfl) fun t => ih _ (hs.draw.elapse t)

theorem soon_adding (hs : hub.Serves h handler n shelf o)
    (next : ∀ (hub' : Hub σ) now,
      hub'.Serves h handler n (shelf.setGroup key (some ((shelf.get key now).add m now))) o →
      (Frame.handling h (.deciding key ((shelf.get key now).add m now))).Soon Q k hub') :
    (Frame.handling h (.adding key m)).Soon Q (k + 1) hub := by
  obtain ⟨member, hmem, rfl⟩ := Option.map_eq_some_iff.1 hs.known
  obtain ⟨store, hstore⟩ := Store.add_unbounded hs.unbounded key m hub.clock
  have hadd : (hub.depot member.handler.depot).add key m hub.clock
      = .ok ({ hub.depot member.handler.depot with store := store },
        (shelf.get key hub.clock).add m hub.clock) := by
    have hout : (hub.depot member.handler.depot).outages.add = none := by rw [hs.service]
    simp only [Depot.add, hout, hstore, Except.map, ← hs.shelf]
    rfl
  have hstep : (Frame.handling h (.adding key m)).step hub
      = .goes (hub.setDepot member.handler.depot
          { hub.depot member.handler.depot with store := store })
        (.handling h (.deciding key ((shelf.get key hub.clock).add m hub.clock))) := by
    simp only [Frame.step, step, hmem, add, hadd]
  obtain ⟨-, hshelf⟩ := Depot.shelf_add hs.service hadd
  have hadded := hs.setDepot { hub.depot member.handler.depot with store := store } rfl
    (Store.add_ok hstore).2.1 (by rw [hshelf, hs.shelf])
  exact .goes _ _ hstep fun t => next _ _ (hadded.elapse t)

theorem soon_locking (hs : hub.Serves h handler n shelf o)
    (hfree : ∀ e, shelf.lock? key = some e → e.held = false) {deadline : Option Instant}
    (next : ∀ (hub' : Hub σ) owner,
      hub'.Serves h handler n (shelf.setLock key (some ⟨true, owner⟩)) o →
      (Frame.handling h (.adding key m)).Soon Q k hub') :
    (Frame.handling h (.locking key m deadline)).Soon Q (k + 1) hub := by
  obtain ⟨locks, hlocks⟩ : ∃ locks,
      (hub.depot handler.depot).locks.acquire? key (some h) = some locks :=
    KeyLocks.acquire?_of_free (some h) fun e he => hfree e (by rw [← hs.shelf]; exact he)
  obtain ⟨-, owner, hshelf⟩ := Depot.shelf_gives (KeyLocks.gives_of_acquire? hlocks)
  have hheld := hs.setDepot { hub.depot handler.depot with locks := locks } rfl rfl
    (by rw [hshelf, hs.shelf])
  exact .goes _ _ (step_locking hs.known hlocks m deadline) fun t => next _ owner (hheld.elapse t)

/-- A message whose key is free is added to its group. -/
theorem soon_arriving (hs : hub.Serves h handler n shelf o)
    (hc : handler.correlation m = .returned (some key))
    (hfree : ∀ e, shelf.lock? key = some e → e.held = false)
    (next : ∀ (hub' : Hub σ) owner now, hub'.Serves h handler (n + 1)
        ((shelf.setLock key (some ⟨true, owner⟩)).setGroup key
          (some ((shelf.get key now).add m now))) o →
      (Frame.handling h (.deciding key ((shelf.get key now).add m now))).Soon Q k hub') :
    (Frame.handling h (.arriving m)).Soon Q (k + 3) hub := by
  exact .goes _ _ (step_arriving hs.known hc) fun t =>
    soon_locking (hs.refer.elapse t) hfree fun hub' owner hlocked =>
      soon_adding hlocked fun hub'' now hadded => next hub'' owner now hadded

end Handling

/-! ## What becomes of a message -/

namespace Machine

variable {s : Machine σ} {h : HandlerId} {handler : Handler σ} {n : Nat} {shelf : Shelf} {o : σ}
  {key : Key} {m : Message}

/-- A message without a key takes its time and changes nothing. -/
theorem handle_of_keyless (hh : s.hub.handler? h = some handler) (hl : s.hub.isLive h = true)
    (hc : handler.correlation m = .returned none) :
    ∃ t, s.handle h m
      = (⟨s.hub.elapse t, s.threads⟩, .returned (.error (.correlation m.id))) := by
  obtain ⟨hub', result, ⟨t, rfl, rfl⟩, hhandle⟩ := handle_of_soon (k := 2) (s := s) (h := h)
    (m := m)
    (Q := fun hub' result => ∃ t, hub' = s.hub.elapse t
      ∧ result = .returned (.error (.correlation m.id))) (by decide) fun t => by
    have hknown : (s.hub.elapse t).handler? h = some handler := hh
    obtain ⟨member, hmem, rfl⟩ := Option.map_eq_some_iff.1 hknown
    have harrive : (Frame.handling h (.arriving m)).step (s.hub.elapse t)
        = .goes ((s.hub.elapse t).refer h)
          (.handling h (.leaving (.returned (.error (.correlation m.id))))) := by
      simp only [Frame.step, Handling.step, hmem, Handling.arrive, hc]
    refine .goes _ _ harrive fun t' => ?_
    have hback : (((s.hub.elapse t).refer h).elapse t').unrefer h = s.hub.elapse (t + t') := by
      rw [Hub.elapse_add]
      exact Hub.unrefer_refer ((s.hub.elapse t).elapse t') h
    have hlive : (s.hub.elapse (t + t')).isLive h = true := hl
    have hleave : (Frame.handling h (.leaving (.returned (.error (.correlation m.id))))).step
        (((s.hub.elapse t).refer h).elapse t')
          = .ends (s.hub.elapse (t + t'))
            (.handled (.returned (.error (.correlation m.id)))) := by
      obtain ⟨referred, hreferred, -⟩ := Option.map_eq_some_iff.1
        ((Hub.handler?_refer (s.hub.elapse t) h h).trans hknown)
      have hmem' : (((s.hub.elapse t).refer h).elapse t').member? h = some referred := hreferred
      simp only [Frame.step, Handling.step, hmem', Handling.leave, hback, hlive, if_true]
    exact .ends _ _ hleave ⟨_, rfl, t + t', rfl, rfl⟩
  exact ⟨t, hhandle⟩

theorem handle_keyless (hs : s.hub.Serves h handler n shelf o) (hn : 0 < n)
    (hc : handler.correlation m = .returned none) :
    ∃ hub', s.handle h m = (⟨hub', s.threads⟩, .returned (.error (.correlation m.id)))
      ∧ hub'.Serves h handler n shelf o := by
  have hlive : s.hub.isLive h = true := by
    rw [Hub.isLive_iff, hs.references]
    exact hn
  obtain ⟨t, hhandle⟩ := handle_of_keyless hs.known hlive hc
  exact ⟨_, hhandle, hs.elapse t⟩

theorem handle_pending (hs : s.hub.Serves h handler n shelf o) (hn : 0 < n)
    (hc : handler.correlation m = .returned (some key))
    (hfree : ∀ e, shelf.lock? key = some e → e.held = false)
    (hr : ∀ now, handler.release ((shelf.get key now).add m now) = .returned false) :
    ∃ hub' now owner,
      s.handle h m = (⟨hub', s.threads⟩,
        .returned (.ok (.pending key ((shelf.get key now).add m now).size)))
      ∧ hub'.Serves h handler n ((shelf.setGroup key (some ((shelf.get key now).add m now))).setLock
        key (some ⟨false, owner⟩)) o := by
  obtain ⟨hub', result, ⟨now, owner, rfl, hs'⟩, hhandle⟩ := handle_of_soon (k := 6) (s := s)
    (h := h) (m := m) (Q := fun hub' result => ∃ now owner,
      result = .returned (.ok (.pending key ((shelf.get key now).add m now).size))
      ∧ hub'.Serves h handler n ((shelf.setGroup key (some ((shelf.get key now).add m now))).setLock
        key (some ⟨false, owner⟩)) o) (by decide) fun t => by
    refine Handling.soon_arriving (hs.elapse t) hc hfree fun hub' owner now hs' => ?_
    obtain ⟨member, hmem, rfl⟩ := Option.map_eq_some_iff.1 hs'.known
    have hstep : (Frame.handling h (.deciding key ((shelf.get key now).add m now))).step hub'
        = .goes hub' (.handling h (.releasing key false
          (.returned (.ok (.pending key ((shelf.get key now).add m now).size))))) := by
      simp only [Frame.step, Handling.step, hmem, Handling.decide, hr now]
    refine .goes _ _ hstep fun t' => Handling.soon_releasing (hs'.elapse t') hn
      fun hub'' hs'' => ⟨_, rfl, now, owner, rfl, ?_⟩
    simpa [Depot.freed, Shelf.setGroup, Shelf.setLock] using hs''
  exact ⟨hub', now, owner, hhandle, hs'⟩

theorem handle_released {k : Nat} {P : σ → Except ProcessingError Unit → Prop}
    (hs : s.hub.Serves h handler n shelf o) (hn : 0 < n)
    (hc : handler.correlation m = .returned (some key))
    (hfree : ∀ e, shelf.lock? key = some e → e.held = false)
    (hr : ∀ now, handler.release ((shelf.get key now).add m now) = .returned true)
    (hk : k + 8 ≤ patience)
    (hw : ∀ now, (handler.process ((shelf.get key now).add m now)).Within P k o) :
    ∃ hub' now o' said,
      s.handle h m = (⟨hub', s.threads⟩,
        .returned (Handling.completed key ((shelf.get key now).add m now).size said))
      ∧ P o' said ∧ hub'.Serves h handler n (shelf.clear key) o' := by
  obtain ⟨hub', result, ⟨now, o', said, rfl, hp, hs'⟩, hhandle⟩ := handle_of_soon hk (s := s)
    (h := h) (m := m) (Q := fun hub' result => ∃ now o' said,
      result = .returned (Handling.completed key ((shelf.get key now).add m now).size said)
      ∧ P o' said ∧ hub'.Serves h handler n (shelf.clear key) o') fun t => by
    refine Handling.soon_arriving (hs.elapse t) hc hfree fun hub' owner now hs' => ?_
    obtain ⟨member, hmem, rfl⟩ := Option.map_eq_some_iff.1 hs'.known
    have hstep : (Frame.handling h (.deciding key ((shelf.get key now).add m now))).step hub'
        = .goes hub' (.handling h (.processing key ((shelf.get key now).add m now)
          (member.handler.process ((shelf.get key now).add m now)))) := by
      simp only [Frame.step, Handling.step, hmem, Handling.decide, hr now]
    refine .goes _ _ hstep fun t' => Handling.soon_processing (hw now) (hs'.elapse t') hn
      fun hub'' o' said hp hs'' => ⟨_, rfl, now, o', said, rfl, hp, ?_⟩
    simpa [Shelf.clear, Shelf.setGroup, Shelf.setLock] using hs''
  exact ⟨hub', now, o', said, hhandle, hp, hs'⟩

end Machine

end Collate
