import Collate.Proofs.Quiescence
import Collate.Proofs.Steady

/-!
# A handler alone in its depot

While a handler is the only one on the register of an unbounded depot and its calls come one at a
time, it is known what each call makes of the shelf, whatever the delays between its steps. A
message joins the group of its key at the instant of the addition, and the group stays or goes as
the release strategy says (`Handling.finishes_keyed`). A pass takes every group that is idle at the
selection, and the handler acts on each once (`Pass.comes_served`). What a handling notes is told
apart from what the calls note that its processor makes (`Frame.Finishes`).
-/

namespace Collate

variable {σ : Type}

/-! ## Running alone -/

/-- How long so many rounds take. -/
def roundsTime (delays : Nat → Nat) : Nat → Nat
  | 0 => 0
  | k + 1 => delays 0 + roundsTime (fun n => delays (n + 1)) k

theorem roundsTime_zero (k : Nat) : roundsTime (fun _ => 0) k = 0 := by
  induction k with
  | zero => rfl
  | succ k ih => rw [roundsTime, ih]

namespace Machine

theorem steady_step (s : Machine σ) (i : Nat) : s.hub.Steady (s.apply (.step i)).hub := by
  rcases ht : s.threads[i]? with _ | ⟨stack, reply⟩
  · simp only [apply, progress, ht]
    exact .refl _
  rcases stack with _ | ⟨f, below⟩
  · simp only [apply, progress, ht, Thread.step]
    exact .refl _
  rcases hs : f.step s.hub with ⟨hub, f'⟩ | ⟨hub, f', inner⟩ | ⟨hub, r⟩ | deadline
  · simp only [apply, progress, ht, Thread.step, hs]
    exact Frame.steady_goes hs
  · simp only [apply, progress, ht, Thread.step, hs]
    rw [Frame.hub_of_calls hs]
    exact .refl _
  · rcases below with _ | ⟨g, rest⟩
    all_goals
      simp only [apply, progress, ht, Thread.step, hs]
      exact Frame.steady_ends hs
  · simp only [apply, progress, ht, Thread.step, hs]
    exact .refl _

/-- A thread that does so many steps rearranges nothing and makes no room, and they take the time of
the delays. -/
theorem rounds_keep (s : Machine σ) (i : Nat) (delays : Nat → Nat) (k : Nat) :
    (s.after (rounds i delays k)).hub.arrange = s.hub.arrange
      ∧ (∀ d, ((s.after (rounds i delays k)).hub.depot d).store.capacity
        = (s.hub.depot d).store.capacity)
      ∧ (s.after (rounds i delays k)).hub.clock
        = s.hub.clock + roundsTime delays k := by
  induction k generalizing s delays with
  | zero => exact ⟨rfl, fun _ => rfl, rfl⟩
  | succ k ih =>
    have hstep := steady_step (s.apply (.elapse (delays 0))) i
    obtain ⟨harrange, hcapacity, hclock⟩ :=
      ih ((s.apply (.elapse (delays 0))).apply (.step i)) fun n => delays (n + 1)
    refine ⟨harrange.trans hstep.arrange, fun d => (hcapacity d).trans (hstep.capacity d), ?_⟩
    rw [roundsTime, ← Nat.add_assoc]
    exact hclock.trans (by rw [hstep.clock]; rfl)

end Machine

/-! ## Calls that no other waits for -/

/-- What a note tells of a call that no other waits for. -/
def Note.ground? : Note → Option Doing
  | .did p x => if p.depth = 0 then some x else none
  | .came _ => none

def grounds (notes : List Note) : List Doing := notes.filterMap Note.ground?

theorem grounds_append (a b : List Note) : grounds (a ++ b) = grounds a ++ grounds b :=
  List.filterMap_append

/-- A call that no other waits for comes to an end of which `Q` holds: of the hub, its own doings
and the reply. Its steps are taken after the given delays, and after any delays once it has made a
call. -/
inductive Frame.Finishes (Q : Hub σ → List Doing → Reply → Prop) :
    (Nat → Nat) → Hub σ → List Doing → Frame σ → Prop
  | goes {delays hub done f} (hub' f') : f.step hub = .goes hub' f' →
      Finishes Q (fun n => delays (n + 1)) (hub'.elapse (delays 0))
        (done ++ (f.doing hub none f').toList) f' →
      Finishes Q delays hub done f
  | calls {delays hub done f hub' f' inner} {R : Hub σ → Reply → Prop} :
      f.step hub = .calls hub' f' inner →
      (∀ p under given n, inner.Comes (fun hub'' _ r => R hub'' r) p under (hub'.elapse n) given) →
      (∀ hub'' r, R hub'' r → ∀ delays n, Finishes Q delays (hub''.elapse n) done (f'.resume r)) →
      Finishes Q delays hub done f
  | ends {delays hub done f hub' r} : f.step hub = .ends hub' r → Q hub' done r →
      Finishes Q delays hub done f

section Finishes

variable {Q : Hub σ → List Doing → Reply → Prop} {delays : Nat → Nat} {hub : Hub σ}
  {done : List Doing} {f : Frame σ}

theorem Frame.Finishes.silent (hub' : Hub σ) (f' : Frame σ) (hs : f.step hub = .goes hub' f')
    (hd : f.doing hub none f' = none)
    (next : f'.Finishes Q (fun n => delays (n + 1)) (hub'.elapse (delays 0)) done) :
    f.Finishes Q delays hub done := by
  refine .goes hub' f' hs ?_
  simpa [hd] using next

theorem Frame.Finishes.does (hub' : Hub σ) (f' : Frame σ) {x : Doing}
    (hs : f.step hub = .goes hub' f') (hd : f.doing hub none f' = some x)
    (next : f'.Finishes Q (fun n => delays (n + 1)) (hub'.elapse (delays 0)) (done ++ [x])) :
    f.Finishes Q delays hub done := by
  refine .goes hub' f' hs ?_
  simpa [hd] using next

/-- Code of the outside that comes to a value does so where it is at work for such a call. -/
theorem Script.Comes.finishes {α : Type} {P : Hub σ → α → Prop} {s : Script σ α}
    {K : Script σ α → Frame σ} {h : HandlerId} (hs : s.Comes P hub) (hk : Frame.Works K h none)
    (hh : (hub.handler? h).isSome = true) (delays : Nat → Nat)
    (next : ∀ hub' a delays, P hub' a → (K (.done a)).Finishes Q delays hub' done) :
    (K s).Finishes Q delays hub done := by
  induction hs generalizing delays with
  | done hq => exact next _ _ delays hq
  | goes hstep hrest ih =>
    obtain ⟨hgoes, hnone⟩ := hk.goes hh hstep
    refine .silent _ _ hgoes hnone (ih _ ?_ _)
    rw [Hub.handler?_elapse, (Script.sameCode_goes hstep).handlers]
    exact hh
  | @calls hub s inner R hstep hinner hnext ih =>
    refine .calls (hk.calls hh hstep) (R := fun hub' r => R hub' r
        ∧ ∀ h, hub'.handler? h = hub.handler? h)
      (fun p under given n => (hinner p under given n).keeps.imp
        fun hub' done' r ⟨hr, hsame, _⟩ => ⟨hr, hsame.handlers⟩)
      fun hub' r ⟨hr, hh'⟩ delays n => ?_
    rw [hk.resume]
    exact ih hub' r hr n (by rw [Hub.handler?_elapse, hh']; exact hh) delays

namespace Machine

variable {s : Machine σ} {i : Nat} {f' inner : Frame σ} {hub' : Hub σ}

theorem grounds_goes (ht : s.threads[i]? = some ⟨[f], none⟩) (hs : f.step s.hub = .goes hub' f') :
    grounds (s.notes (.event (.step i))) = (f.doing s.hub none f').toList := by
  simp only [notes, ht, Option.elim_some, stackNotes, hs, List.head?_nil, List.length_nil, grounds]
  rcases f.doing s.hub none f' with _ | x <;> rfl

/-- What a call notes that another waits for is none of the doings of that one. -/
theorem grounds_of_deep {delays : Nat → Nat} {k : Nat}
    (hd : s.Deep i 1 (.event (.step i) :: rounds i delays k)) :
    grounds (s.history (.event (.step i) :: rounds i delays k)) = [] := by
  refine List.filterMap_eq_nil_iff.2 fun note hnote => ?_
  cases note with
  | came p => rfl
  | did p x =>
    have hdepth : p.depth ≠ 0 := Nat.ne_of_gt (hd.le_depth hnote)
    simp [Note.ground?, hdepth]

end Machine

/-- Such a call finishes in a run of its thread alone, at its last step. -/
theorem Frame.Finishes.run (hf : f.Finishes Q delays hub done) {s : Machine σ} {i : Nat}
    (hhub : s.hub = hub) (ht : s.threads[i]? = some ⟨[f], none⟩) :
    ∃ k hub' done' r, Q hub' done' r
      ∧ s.after (.event (.step i) :: rounds i delays k) = ⟨hub', s.threads.set i ⟨[], some r⟩⟩
      ∧ done ++ grounds (s.history (.event (.step i) :: rounds i delays k)) = done'
      ∧ s.Deep i 0 (.event (.step i) :: rounds i delays k) := by
  have hi : i < s.threads.length := (List.getElem?_eq_some_iff.1 ht).1
  induction hf generalizing s with
  | @goes delays hub done f hub' f' hs hrest ih =>
    subst hhub
    obtain ⟨hmove, -⟩ := Machine.move_goes ht hs
    obtain ⟨k, hub'', done', r, hq, hafter, hdone, hdeep⟩ :=
      ih (s := ⟨hub'.elapse (delays 0), s.threads.set i ⟨[f'], none⟩⟩) rfl
        (List.getElem?_set_self hi) (by simpa using hi)
    refine ⟨k + 1, hub'', done', r, hq, ?_, ?_, ⟨_, ht, Nat.one_pos⟩, ?_⟩
    · rw [Machine.after_step_rounds delays k hmove, hafter, List.set_set]
    · rw [Machine.history_step_rounds delays k hmove, grounds_append, Machine.grounds_goes ht hs,
        ← List.append_assoc, hdone]
    · rw [hmove]
      exact ⟨⟨_, List.getElem?_set_self hi, Nat.one_pos⟩, hdeep⟩
  | @calls delays hub done f hub' f' inner R hs hinner hnext ihnext =>
    subst hhub
    obtain ⟨hmove, -⟩ := Machine.move_calls ht hs
    have hcall : grounds (s.notes (.event (.step i))) = [] := by
      simp [Machine.notes, ht, Machine.stackNotes, hs, grounds, Note.ground?]
    obtain ⟨k, hub₁, -, r, hr, hafter₁, -, hdeep₁⟩ :=
      (hinner ⟨i, 1⟩ (some f') [] (delays 0)).run_deep
        (s := ⟨hub'.elapse (delays 0), s.threads.set i ⟨[inner, f'], none⟩⟩)
        (by rfl) (by rfl) rfl (List.getElem?_set_self hi) (fun n => delays (n + 1))
    have hquiet := Machine.grounds_of_deep hdeep₁
    have hinto : s.Deep i 0 (.event (.step i) :: rounds i delays (k + 1)) := by
      refine ⟨⟨_, ht, Nat.one_pos⟩, ?_⟩
      rw [hmove]
      exact ⟨⟨_, List.getElem?_set_self hi, Nat.succ_pos _⟩, hdeep₁.mono (Nat.zero_le _)⟩
    rw [← Machine.after_step_rounds delays k hmove, List.set_set] at hafter₁
    obtain ⟨k', hub₂, done₂, r', hq, hafter₂, hdone₂, hdeep₂⟩ :=
      ihnext hub₁ r hr (fun n => delays (n + 1 + (k + 1))) (delays (k + 1))
        (s := ⟨hub₁.elapse (delays (k + 1)), s.threads.set i ⟨[f'.resume r], none⟩⟩)
        rfl (List.getElem?_set_self hi) (by simpa using hi)
    refine ⟨k + 1 + (k' + 1), hub₂, done₂, r', hq, ?_, ?_, ?_⟩
    · rw [Machine.after_rounds, hafter₁]
      exact hafter₂.trans (by rw [List.set_set])
    · rw [Machine.history_rounds, Machine.history_step_rounds delays k hmove, grounds_append,
        grounds_append, hcall, hquiet, List.nil_append, hafter₁]
      exact hdone₂
    · rw [rounds_add, ← List.cons_append, Machine.deep_append, hafter₁]
      refine ⟨hinto, ⟨_, List.getElem?_set_self hi, Nat.one_pos⟩, ?_⟩
      simp only [Nat.zero_add]
      exact hdeep₂
  | ends hs hq =>
    subst hhub
    obtain ⟨hmove, -⟩ := Machine.move_ends ht hs
    refine ⟨0, _, _, _, hq, hmove, ?_, ⟨_, ht, Nat.one_pos⟩, trivial⟩
    simp [rounds, Machine.history, Machine.notes, ht, Machine.stackNotes, hs, grounds]

end Finishes

/-! ## What a message comes to -/

namespace Handling

variable {I : Hub σ → Prop} {d : DepotId} {start hub : Hub σ} {shelf : Shelf} {h : HandlerId}
  {handler : Handler σ} {key : Key} {m : Message} {g : Group}
  {Q : Hub σ → List Doing → Reply → Prop} {delays : Nat → Nat} {done : List Doing}
  {result : Attempt (Except HandlerError Handled)}

theorem works_processing (h : HandlerId) (key : Key) (g : Group) (under : Option (Frame σ)) :
    Frame.Works (fun work => .handling h (.processing key g work)) h under where
  goes hh hs := by
    obtain ⟨handler, hh⟩ := Option.isSome_iff_exists.1 hh
    obtain ⟨member, hmem, -⟩ := Option.map_eq_some_iff.1 hh
    exact ⟨by simp [Frame.step, step, hmem, process, hs], by simp [Frame.doing, doing]⟩
  calls hh hs := by
    obtain ⟨handler, hh⟩ := Option.isSome_iff_exists.1 hh
    obtain ⟨member, hmem, -⟩ := Option.map_eq_some_iff.1 hh
    simp [Frame.step, step, hmem, process, hs]
  resume _ _ := rfl

variable (hI : ∀ a b : Hub σ, I a → a.Elsewhere d b → I b)
  (hh : start.handler? h = some handler) (hd : handler.depot = d) (hl : start.isLive h = true)
include hI hh hd hl

theorem finishes_leaving (hm : hub.Midway I d (start.refer h) shelf)
    (hq : ∀ hub' : Hub σ, hub'.Midway I d start shelf → Q hub' done (.handled result)) :
    (Frame.handling h (.leaving result)).Finishes Q delays hub done := by
  have hleft := hm.unrefer hI (by rw [Hub.home?_of_handler? hh, hd])
  obtain ⟨member, hmem, -⟩ := Option.map_eq_some_iff.1 (hm.handler? hh)
  refine .ends ?_ (hq _ hleft)
  have hlive : (hub.unrefer h).isLive h = true := by rw [hleft.isLive, hl]
  simp [Frame.step, step, hmem, leave, hlive]

theorem finishes_releasing (hm : hub.Midway I d (start.refer h) shelf) {retire : Bool}
    (hq : ∀ hub' : Hub σ, hub'.Midway I d start
      (shelf.setLock key (Depot.freed retire (shelf.lock? key))) → Q hub' done (.handled result)) :
    (Frame.handling h (.releasing key retire result)).Finishes Q delays hub done := by
  obtain ⟨member, hmem, rfl⟩ := Option.map_eq_some_iff.1 (hm.handler? hh)
  have hfreed : (hub.setDepot d ((hub.depot d).release key retire)).Midway I d
      (start.refer h) (shelf.setLock key (Depot.freed retire (shelf.lock? key))) :=
    hm.setDepot hI rfl rfl (by rw [Depot.shelf_release, hm.shelf])
  refine .silent _ (.handling h (.leaving result)) ?_ (by simp [Frame.doing, doing])
    (finishes_leaving hI hh hd hl (hfreed.elapse hI _) hq)
  simp [Frame.step, step, hmem, release, hd]

/-- The removal of the group, and what is left to do then. -/
theorem finishes_removing (hm : hub.Midway I d (start.refer h) shelf)
    {said : Except ProcessingError Unit}
    (hq : ∀ (hub' : Hub σ) t, hub'.Midway I d start (shelf.clear key) →
      Q hub' (done ++ [Doing.removed d key (shelf.group? key) t .handling])
        (.handled (.returned (completed key g.size said)))) :
    (Frame.handling h (.removing key g said)).Finishes Q delays hub done := by
  have hh' := hm.handler? hh
  obtain ⟨member, hmem, hmh⟩ := Option.map_eq_some_iff.1 hh'
  have hremove := hm.service.remove key
  have hgone : (hub.setDepot d
      { hub.depot d with store := ((hub.depot d).store.remove key).1 }).Midway I d
      (start.refer h) (shelf.setGroup key none) :=
    hm.setDepot hI rfl rfl (by rw [Depot.shelf_remove, hm.shelf])
  have hfind : (hub.depot d).store.find? key = shelf.group? key :=
    congrFun (congrArg Shelf.group? hm.shelf) key
  refine .does _ (.handling h (.releasing key true (.returned (completed key g.size said))))
    ?_ ?_ (finishes_releasing hI hh hd hl (hgone.elapse hI _)
      fun hub' hm' => hq hub' hub.clock hm')
  · simp [Frame.step, step, hmem, hmh, remove, hd, hremove]
  · simp [Frame.doing, hh', doing, Depot.removal, hd, hremove, hfind]

/-- Whatever the processor answers, the group is removed then. -/
theorem finishes_processing (hap : (handler.process g).Apart I d)
    (hm : hub.Midway I d (start.refer h) shelf)
    (hq : ∀ (hub' : Hub σ) said t, hub'.Midway I d start (shelf.clear key) →
      Q hub' (done ++ [Doing.removed d key (shelf.group? key) t .handling])
        (.handled (.returned (completed key g.size said)))) :
    (Frame.handling h (.processing key g (handler.process g))).Finishes Q delays hub done := by
  refine (hap _ hm.rest).finishes (works_processing h key g none)
    (by rw [hm.handler? hh]; rfl) delays fun hub' said delays' ⟨hrest, hspares⟩ => ?_
  have hm' := hm.spares hspares hrest
  obtain ⟨member, hmem, -⟩ := Option.map_eq_some_iff.1 (hm'.handler? hh)
  refine .silent hub' (.handling h (.removing key g said)) ?_ (by simp [Frame.doing, doing])
    (finishes_removing hI hh hd hl (hm'.elapse hI _) fun hub'' t => hq hub'' said t)
  simp [Frame.step, step, hmem, process, Script.step]

/-- A group that is not complete stays, also where that cannot be told. -/
theorem finishes_deciding (hap : (handler.process g).Apart I d)
    (hm : hub.Midway I d (start.refer h) shelf)
    (hcomplete : handler.release g = .returned true → ∀ (hub' : Hub σ) said t,
      hub'.Midway I d start (shelf.clear key) →
      Q hub' (done ++ [Doing.completed h g handler.output.isSome,
        .removed d key (shelf.group? key) t .handling])
        (.handled (.returned (completed key g.size said))))
    (hpending : handler.release g = .returned false → ∀ hub' : Hub σ,
      hub'.Midway I d start (shelf.setLock key (Depot.freed false (shelf.lock? key))) →
      Q hub' done (.handled (.returned (.ok (.pending key g.size)))))
    (hpanic : handler.release g = .panicked → ∀ hub' : Hub σ,
      hub'.Midway I d start (shelf.setLock key (Depot.freed false (shelf.lock? key))) →
      Q hub' (done ++ [Doing.panicked]) (.handled .panicked)) :
    (Frame.handling h (.deciding key g)).Finishes Q delays hub done := by
  have hh' := hm.handler? hh
  obtain ⟨member, hmem, hmh⟩ := Option.map_eq_some_iff.1 hh'
  rcases hr : handler.release g with (_ | _) | _
  · refine .silent hub (.handling h (.releasing key false (.returned (.ok (.pending key g.size)))))
      ?_ (by simp [Frame.doing, doing])
      (finishes_releasing hI hh hd hl (hm.elapse hI _) (hpending hr))
    simp [Frame.step, step, hmem, hmh, decide, hr]
  · refine .does hub (.handling h (.processing key g (handler.process g)))
      (x := .completed h g handler.output.isSome) ?_ (by simp [Frame.doing, hh', doing])
      (finishes_processing hI hh hd hl hap (hm.elapse hI _) ?_)
    · simp [Frame.step, step, hmem, hmh, decide, hr]
    · simpa using hcomplete hr
  · refine .does hub (.handling h (.releasing key false .panicked)) (x := .panicked) ?_
      (by simp [Frame.doing, hh', doing])
      (finishes_releasing hI hh hd hl (hm.elapse hI _) (hpanic hr))
    simp [Frame.step, step, hmem, hmh, decide, hr]

omit hl in
/-- The message is added at the instant of this step. -/
theorem finishes_adding (hm : hub.Midway I d (start.refer h) shelf)
    (hcap : (hub.depot d).store.capacity = none)
    (next : ∀ hub' : Hub σ, hub'.Midway I d (start.refer h)
        (shelf.setGroup key (some ((shelf.get key hub.clock).add m hub.clock))) →
      (Frame.handling h (.deciding key ((shelf.get key hub.clock).add m hub.clock))).Finishes Q
        (fun n => delays (n + 1)) hub' (done ++ [Doing.added h d key m hub.clock])) :
    (Frame.handling h (.adding key m)).Finishes Q delays hub done := by
  have hh' := hm.handler? hh
  obtain ⟨member, hmem, hmh⟩ := Option.map_eq_some_iff.1 hh'
  obtain ⟨store, hstore⟩ := Store.add_unbounded hcap key m hub.clock
  have hadd : (hub.depot d).add key m hub.clock = .ok ({ hub.depot d with store := store },
      (shelf.get key hub.clock).add m hub.clock) := by
    have hout : (hub.depot d).outages.add = none := by rw [hm.service]
    simp only [Depot.add, hout, hstore, Except.map, ← hm.shelf]
    rfl
  obtain ⟨-, hshelf⟩ := Depot.shelf_add hm.service hadd
  have hadded : (hub.setDepot d { hub.depot d with store := store }).Midway I d (start.refer h)
      (shelf.setGroup key (some ((shelf.get key hub.clock).add m hub.clock))) :=
    hm.setDepot hI rfl rfl (by rw [hshelf, hm.shelf])
  refine .does _ (.handling h (.deciding key ((shelf.get key hub.clock).add m hub.clock)))
    (x := .added h d key m hub.clock) ?_ ?_ (next _ (hadded.elapse hI _))
  · simp [Frame.step, step, hmem, hmh, add, hd, hadd]
  · simp [Frame.doing, hh', doing, hd]

omit hl in
/-- A key that nobody holds is taken at once; whoever owned it still does. -/
theorem finishes_locking (hm : hub.Midway I d (start.refer h) shelf)
    (hfree : ∀ e, shelf.lock? key = some e → e.held = false) {deadline : Option Instant}
    (next : ∀ hub' : Hub σ, hub'.Midway I d (start.refer h) (shelf.setLock key
        (some ⟨true, ((shelf.lock? key).bind LockEntry.owner).or (some h)⟩)) →
      (hub'.depot d).store = (hub.depot d).store → hub'.clock = hub.clock + delays 0 →
      (Frame.handling h (.adding key m)).Finishes Q (fun n => delays (n + 1)) hub' done) :
    (Frame.handling h (.locking key m deadline)).Finishes Q delays hub done := by
  have hentry : (hub.depot d).locks.find? key = shelf.lock? key :=
    congrFun (congrArg Shelf.lock? hm.shelf) key
  have htake : (hub.depot d).locks.acquire? key (some h) = some ((hub.depot d).locks.set key
      ⟨true, ((shelf.lock? key).bind LockEntry.owner).or (some h)⟩) := by
    rcases he : shelf.lock? key with _ | e
    · simp [KeyLocks.acquire?, hentry, he]
    · simp [KeyLocks.acquire?, hentry, he, hfree e he]
  generalize (⟨true, ((shelf.lock? key).bind LockEntry.owner).or (some h)⟩ : LockEntry) = e
    at htake next
  have hheld : (hub.setDepot d { hub.depot d with locks := (hub.depot d).locks.set key e }).Midway
      I d (start.refer h) (shelf.setLock key (some e)) :=
    hm.setDepot hI rfl rfl (by rw [Depot.shelf_set, hm.shelf])
  rw [← hd] at htake
  have hstep := step_locking (hm.handler? hh) htake m deadline
  rw [hd] at hstep
  refine .silent _ (.handling h (.adding key m)) hstep (by simp [Frame.doing, doing])
    (next _ (hheld.elapse hI _) ?_ rfl)
  · have hstore := congrArg Depot.store (Hub.depot_setDepot_self hub
      { hub.depot d with locks := (hub.depot d).locks.set key e } hm.opened)
    exact hstore

/-- A message under a free key joins the group of that key. -/
theorem finishes_keyed (hap : ∀ g, (handler.process g).Apart I d)
    (hc : handler.correlation m = .returned (some key)) (hm : hub.Midway I d start shelf)
    (hcap : (hub.depot d).store.capacity = none)
    (hfree : ∀ e, shelf.lock? key = some e → e.held = false) {t : Instant}
    (ht : hub.clock + delays 0 + delays 1 = t) (hg : (shelf.get key t).add m t = g)
    {kept : Shelf} (hkept : (shelf.setGroup key (some g)).setLock key
      (some ⟨false, ((shelf.lock? key).bind LockEntry.owner).or (some h)⟩) = kept)
    (hcomplete : handler.release g = .returned true → ∀ (hub' : Hub σ) said t',
      hub'.Midway I d start (shelf.clear key) →
      Q hub' (done ++ [Doing.named h m key, .added h d key m t,
        .completed h g handler.output.isSome, .removed d key (some g) t' .handling])
        (.handled (.returned (completed key g.size said))))
    (hpending : handler.release g = .returned false → ∀ hub' : Hub σ,
      hub'.Midway I d start kept → Q hub' (done ++ [Doing.named h m key, .added h d key m t])
        (.handled (.returned (.ok (.pending key g.size)))))
    (hpanic : handler.release g = .panicked → ∀ hub' : Hub σ, hub'.Midway I d start kept →
      Q hub' (done ++ [Doing.named h m key, .added h d key m t, .panicked]) (.handled .panicked)) :
    (Frame.handling h (.arriving m)).Finishes Q delays hub done := by
  have hh' : hub.handler? h = some handler := (hm.handlers h).trans hh
  have hmet := hm.refer hI (by rw [Hub.home?_of_handler? hh, hd])
  refine .does (hub.refer h) (.handling h (.locking key m (handler.deadline hub.clock)))
    (x := .named h m key) (step_arriving hh' hc) (by simp [Frame.doing, hh', doing])
    (finishes_locking hI hh hd (hmet.elapse hI _) hfree fun hub₁ hm₁ hstore hclock => ?_)
  generalize ((shelf.lock? key).bind LockEntry.owner).or (some h) = owner at hm₁ hkept
  have htime : hub₁.clock = t := by rw [hclock, ← ht]; rfl
  have hcap₁ : (hub₁.depot d).store.capacity = none := by rw [hstore]; exact hcap
  have hget : ((shelf.setLock key (some ⟨true, owner⟩)).get key t).add m t = g := hg
  have hfreed : ((shelf.setLock key (some ⟨true, owner⟩)).setGroup key (some g)).setLock key
      (some ⟨false, owner⟩) = kept := by
    rw [← hkept]
    simp [Shelf.setLock, Shelf.setGroup]
  refine finishes_adding hI hh hd hm₁ hcap₁ fun hub₂ hm₂ => ?_
  rw [htime, hget] at hm₂ ⊢
  refine finishes_deciding hI hh hd hl (hap g) hm₂ (fun hr hub' said t' hm' => ?_)
    (fun hr hub' hm' => ?_) fun hr hub' hm' => ?_
  · simpa using hcomplete hr hub' said t' (by simpa using hm')
  · simpa using hpending hr hub' (by simpa [Depot.freed, hfreed] using hm')
  · simpa using hpanic hr hub' (by simpa [Depot.freed, hfreed] using hm')

/-- A message without a key leaves everything as it is. -/
theorem finishes_keyless (hc : ∀ key, handler.correlation m ≠ .returned (some key))
    (hm : hub.Midway I d start shelf)
    (hq : ∀ (hub' : Hub σ) new result, hub'.Midway I d start shelf → new = [] ∨ new = [.panicked] →
      result = .panicked ∨ result = .returned (.error (.correlation m.id)) →
      Q hub' (done ++ new) (.handled result)) :
    (Frame.handling h (.arriving m)).Finishes Q delays hub done := by
  have hh' : hub.handler? h = some handler := (hm.handlers h).trans hh
  obtain ⟨member, hmem, hmh⟩ := Option.map_eq_some_iff.1 hh'
  have hmet := hm.refer hI (by rw [Hub.home?_of_handler? hh, hd])
  rcases hr : handler.correlation m with (_ | key) | _
  · refine .silent (hub.refer h)
      (.handling h (.leaving (.returned (.error (.correlation m.id))))) ?_
      (by simp [Frame.doing, doing]) (finishes_leaving hI hh hd hl (hmet.elapse hI _)
        fun hub' hm' => by simpa using hq hub' [] _ hm' (.inl rfl) (.inr rfl))
    simp [Frame.step, step, hmem, hmh, arrive, hr]
  · exact absurd hr (hc key)
  · refine .does (hub.refer h) (.handling h (.leaving .panicked)) (x := .panicked) ?_
      (by simp [Frame.doing, hh', doing]) (finishes_leaving hI hh hd hl (hmet.elapse hI _)
        fun hub' hm' => hq hub' _ _ hm' (.inr rfl) (.inl rfl))
    simp [Frame.step, step, hmem, hmh, arrive, hr]

end Handling

/-! ## What a pass comes to -/

/-- The members of a group of a key that a doing hands to completion or to expiry. -/
def Doing.members? (key : Key) : Doing → Option (List Message)
  | .completed _ g _ => if g.key = key then some g.messages else none
  | .discarded _ g _ => if g.key = key then some g.messages else none
  | _ => none

def handed (key : Key) (doings : List Doing) : List (List Message) :=
  doings.filterMap (Doing.members? key)

theorem handed_append (key : Key) (a b : List Doing) :
    handed key (a ++ b) = handed key a ++ handed key b :=
  List.filterMap_append

/-- A group that expires is handed over once, whatever the settings. -/
theorem Handler.handed_expiryDoings (handler : Handler σ) (h : HandlerId) (g : Group) (key : Key) :
    handed key (handler.expiryDoings h g) = if g.key = key then [g.messages] else [] := by
  have hsent : (g.messages.map Doing.sent).filterMap (Doing.members? key) = [] := by
    simp [List.filterMap_map, Function.comp_def, Doing.members?]
  unfold handed expiryDoings
  rcases handler.settings.expiryAction with _ | _
  · dsimp only
    split_ifs <;> simp_all [Doing.members?]
  · dsimp only
    split_ifs <;> simp_all [Doing.members?]

/-- A tidy shelf whose groups all have an entry; nobody holds a key, and no other than a handler
owns one. -/
structure Shelf.AtRest (s : Shelf) (h : HandlerId) : Prop where
  tidy : s.Tidy
  guarded : ∀ key, (s.group? key).isSome → (s.lock? key).isSome
  entries : ∀ key e, s.lock? key = some e →
    e.held = false ∧ (e.owner = none ∨ e.owner = some h)

namespace Shelf.AtRest

variable {s : Shelf} {h : HandlerId} {key : Key}

theorem clear (hs : s.AtRest h) (key : Key) : (s.clear key).AtRest h where
  tidy other g hg := by
    rw [clear_group?] at hg
    split_ifs at hg
    exact hs.tidy other g hg
  guarded other hsome := by
    rw [clear_group?] at hsome
    rw [clear_lock?]
    split_ifs at hsome ⊢
    · cases hsome
    · exact hs.guarded other hsome
  entries other e he := by
    rw [clear_lock?] at he
    split_ifs at he
    exact hs.entries other e he

theorem foldl_clear (hs : s.AtRest h) (l : List Group) :
    (l.foldl (fun s g => s.clear g.key) s).AtRest h := by
  induction l generalizing s with
  | nil => exact hs
  | cons g l ih => exact ih (hs.clear g.key)

theorem keep (hs : s.AtRest h) {g : Group} (hkey : g.key = key) (hfull : g.messages ≠ [])
    {owner : Option Owner} (howner : owner = none ∨ owner = some h) :
    ((s.setGroup key (some g)).setLock key (some ⟨false, owner⟩)).AtRest h where
  tidy other g' hg := by
    rw [setLock_group?, setGroup_group?] at hg
    split_ifs at hg with heq
    · cases hg
      exact ⟨hkey.trans heq.symm, hfull⟩
    · exact hs.tidy other g' hg
  guarded other hsome := by
    rw [setLock_group?, setGroup_group?] at hsome
    rw [setLock_lock?]
    split_ifs at hsome ⊢
    · rfl
    · exact hs.guarded other hsome
  entries other e he := by
    rw [setLock_lock?] at he
    split_ifs at he
    · cases he
      exact ⟨rfl, howner⟩
    · exact hs.entries other e he

/-- A stored group has an entry that its handler can take. -/
theorem exists_entry (hs : s.AtRest h) {g : Group} (hg : s.group? key = some g) :
    ∃ owner, s.lock? key = some ⟨false, owner⟩ ∧ (owner = none ∨ owner = some h) := by
  obtain ⟨⟨held, owner⟩, he⟩ := Option.isSome_iff_exists.1 (hs.guarded key (by rw [hg]; rfl))
  obtain ⟨rfl, howner⟩ := hs.entries key _ he
  exact ⟨owner, he, howner⟩

end Shelf.AtRest

namespace Pass

variable {I : Hub σ → Prop} {d : DepotId} {timeout : Nat} {start hub : Hub σ} {shelf : Shelf}
  {h : HandlerId} {handler : Handler σ} {Q : Hub σ → List Doing → Reply → Prop} {p : Place}
  {under : Option (Frame σ)} {done : List Doing}

variable (hI : ∀ a b : Hub σ, I a → a.Elsewhere d b → I b)
  (hapt : Participant.Apt I d start h handler) (hl : start.isLive h = true) (hp : p.depth = 0)
include hI hapt hl hp

/-- The groups that are selected go one after another, each to the only handler. -/
theorem comes_served {t : Tally} (hm : hub.Midway I d start shelf) (hrest : shelf.AtRest h)
    (hpart : t.participants = [.handler h]) (hgone : t.detached = []) {rest : List Group}
    (htally : t.rest = rest) (hstored : ∀ g ∈ rest, shelf.group? g.key = some g)
    (hkeys : (rest.map Group.key).Nodup)
    (hq : ∀ (hub' : Hub σ) done' n,
      hub'.Midway I d start (rest.foldl (fun s g => s.clear g.key) shelf) →
      (∀ key, handed key done'
        = handed key done ++ (rest.filter (·.key = key)).map Group.messages) →
      Q hub' done' (.passed (.returned (.ok n)))) :
    (Frame.pass d timeout (.next t)).Comes Q p under hub done := by
  induction rest generalizing hub t done shelf with
  | nil =>
    refine .silent hub (.pass d timeout (.pruning t)) ?_ rfl fun n => .ends rfl ?_
    · simp [Frame.step, step, takeNext, htally]
    · have hmn := hm.elapse hI n
      refine hq _ done _ (hmn.setDepot hI ?_ rfl hmn.shelf) (by simp)
      simp [Depot.prune, hgone]
  | cons g rest ih =>
    obtain ⟨owner, hlock, howner⟩ := hrest.exists_entry (hstored g List.mem_cons_self)
    have hfull : g.isEmpty = false := by
      simpa [Group.isEmpty] using (hrest.tidy g.key g (hstored g List.mem_cons_self)).2
    have hdepth : p.above.depth = 1 := by rw [Place.above, hp]
    have hstep : (Frame.pass d timeout (.next t)).step hub = .goes hub (.pass d timeout
        (.offering { t with rest := rest } g [.handler h] ⟨false, false⟩)) := by
      simp [Frame.step, step, takeNext, htally, hpart]
    refine .silent _ _ hstep rfl fun n => ?_
    refine .calls rfl (R := fun hub' done' r => hub'.Midway I d start (shelf.clear g.key)
        ∧ (∃ time, done' = done ++ (handler.expiryDoings h g
          ++ [Doing.removed d g.key (some g) time (.offer (some timeout))]))
        ∧ r = .offered (.returned .expired)) (fun n' => Offer.comes_expired hI hapt.known hapt.home
          hl hapt.process hapt.discard hdepth ((hm.elapse hI n).elapse hI n')
          (hstored g List.mem_cons_self) hfull hlock howner
          fun hub' time hm' => ⟨hm', ⟨time, rfl⟩, rfl⟩) ?_
    rintro hub' done' r ⟨hm', ⟨time, rfl⟩, rfl⟩ n'
    refine .silent _ (.pass d timeout (.next (counted { t with rest := rest } true))) rfl rfl
      fun n'' => ?_
    have hne : ∀ g' ∈ rest, g'.key ≠ g.key := fun g' hg' heq =>
      (List.nodup_cons.1 hkeys).1 (heq ▸ List.mem_map_of_mem hg')
    refine ih ((hm'.elapse hI n').elapse hI n'') (hrest.clear g.key) hpart hgone rfl
      (fun g' hg' => ?_) (List.nodup_cons.1 hkeys).2 fun hub'' done'' n hm'' hhanded => ?_
    · rw [Shelf.clear_group?, if_neg (hne g' hg'), hstored g' (List.mem_cons_of_mem _ hg')]
    · refine hq hub'' done'' n hm'' fun key => ?_
      have hlast : handed key [.removed d g.key (some g) time (.offer (some timeout))] = [] := rfl
      rw [hhanded, handed_append, handed_append, handler.handed_expiryDoings, hlast,
        List.append_nil, List.append_assoc, List.filter_cons]
      by_cases heq : g.key = key <;> simp [heq]

/-- A pass takes each group that is idle when it selects. -/
theorem comes_alone (hm : hub.Midway I d start shelf) (hrest : shelf.AtRest h)
    (hregister : (start.depot d).participants = [.handler h])
    (harrange : ∀ l, (hub.arrange l).Perm l) {stale : List Group}
    (hstale : hub.arrange ((hub.depot d).store.stale timeout hub.clock) = stale)
    (hq : ∀ (hub' : Hub σ) done' n,
      hub'.Midway I d start (stale.foldl (fun s g => s.clear g.key) shelf) →
      (∀ key, handed key done'
        = handed key done ++ (stale.filter (·.key = key)).map Group.messages) →
      Q hub' done' (.passed (.returned (.ok n)))) :
    (Frame.pass d timeout .selecting).Comes Q p under hub done := by
  have htidy : (hub.depot d).shelf.Tidy := by rw [hm.shelf]; exact hrest.tidy
  have hperm := harrange ((hub.depot d).store.stale timeout hub.clock)
  rw [hstale] at hperm
  have hstored : ∀ g ∈ stale, shelf.group? g.key = some g := by
    intro g hg
    rw [← hm.shelf]
    exact ((Depot.mem_stale_iff htidy).1 (hperm.mem_iff.1 hg)).1
  have hkeys : (stale.map Group.key).Nodup :=
    (hperm.map _).nodup_iff.2 (Depot.nodup_stale_keys htidy)
  have houtage : (hub.depot d).outages.expire = none := by rw [hm.service]
  rcases hnil : stale with _ | ⟨g, rest⟩
  · rw [hnil] at hstale hq
    have hstep : (Frame.pass d timeout .selecting).step hub
        = .ends hub (.passed (.returned (.ok 0))) := by
      simp [Frame.step, step, select, houtage, hstale]
    exact .ends hstep (hq hub done 0 hm (by simp))
  · rw [hnil] at hstale hstored hkeys hq
    have hstep : (Frame.pass d timeout .selecting).step hub
        = .goes hub (.pass d timeout (.consulting (g :: rest))) := by
      simp only [Frame.step, step, select, houtage, hstale]
    refine .goes hstep fun n => ?_
    simp only [Frame.deed, Frame.doing, doing, Option.map_some, Option.toList_some, deeds,
      List.filterMap_cons, Note.deed?, List.filterMap_nil, List.append_nil]
    have hmn := hm.elapse hI n
    exact .silent (hub.elapse n)
      (.pass d timeout (.next ⟨((hub.elapse n).depot d).participants, g :: rest, [], 0⟩)) rfl rfl
      fun n' => comes_served hI hapt hl hp (hmn.elapse hI n') hrest
        (hmn.participants.trans hregister) rfl rfl hstored hkeys hq

end Pass

end Collate
