import Collate.Proofs.Ledger
import Collate.Proofs.References

/-!
# The owners of the lock entries

An entry gets its owner from the call that makes it, or from the first handling that finds it
without one (`Frame.Claims`), keeps that owner as long as it lasts, and loses it only when the owner
is gone. So the entry of a stored group names the handler that started the group, as long as that
handler is there, whoever else adds to the group.
-/

namespace Collate

variable {σ : Type}

namespace KeyLocks

variable {l l' : KeyLocks} {key : Key}

theorem eq_of_acquire? {owner : Option Owner} (h : l.acquire? key owner = some l') :
    (∀ e, l.find? key = some e → e.held = false)
      ∧ l' = l.set key ⟨true, ((l.find? key).bind LockEntry.owner).or owner⟩ := by
  refine ⟨(gives_of_acquire? h).1, ?_⟩
  unfold acquire? at h
  split at h
  · rename_i he
    simp [← Option.some.inj h, he]
  · rename_i e he
    split_ifs at h
    simp [← Option.some.inj h, he]

theorem eq_of_tryAcquire? (h : l.tryAcquire? key = some l') :
    (∀ e, l.find? key = some e → e.held = false)
      ∧ l' = l.set key ⟨true, (l.find? key).bind LockEntry.owner⟩ := by
  refine ⟨(gives_of_tryAcquire? h).1, ?_⟩
  unfold tryAcquire? at h
  split at h
  · rename_i he
    simp [← Option.some.inj h, he]
  · rename_i e he
    split_ifs at h
    simp [← Option.some.inj h, he]

theorem eq_of_tryAcquireOwned? {owner : Owner} (h : l.tryAcquireOwned? key owner = some l') :
    (∀ e, l.find? key = some e → e.held = false)
      ∧ (l.find? key = none ∧ l' = l.set key ⟨true, some owner⟩
        ∨ ∃ e, l.find? key = some e ∧ (e.owner = none ∨ e.owner = some owner)
          ∧ l' = l.set key ⟨true, e.owner⟩) := by
  refine ⟨(gives_of_tryAcquireOwned? h).1, ?_⟩
  unfold tryAcquireOwned? at h
  split at h
  · rename_i he
    exact .inl ⟨he, (Option.some.inj h).symm⟩
  · rename_i e he
    split_ifs at h with hno
    refine .inr ⟨e, he, ?_, (Option.some.inj h).symm⟩
    rcases ho : e.owner with _ | o
    · exact .inl rfl
    · simp only [ho, Option.any_some, bne_iff_ne, ne_eq, not_or, not_not] at hno
      exact .inr (congrArg some hno.2)

end KeyLocks

/-- Takes a name off an entry. -/
def LockEntry.forget (owner : Owner) (e : LockEntry) : LockEntry :=
  if e.owner = some owner then { e with owner := none } else e

namespace LockEntry

variable {e : LockEntry} {owner other : Owner}

theorem owner_forget (h : (e.forget owner).owner = some other) :
    e.owner = some other ∧ other ≠ owner := by
  unfold forget at h
  split_ifs at h with ho
  refine ⟨h, ?_⟩
  rintro rfl
  exact ho h

theorem forget_of_ne (h : e.owner = some other) (hne : other ≠ owner) :
    (e.forget owner).owner = some other := by
  unfold forget
  rw [if_neg, h]
  rw [h]
  simpa using hne

theorem forget_none_or (h : e.owner = none ∨ e.owner = some other) :
    (e.forget owner).owner = none ∨ (e.forget owner).owner = some other := by
  unfold forget
  split_ifs
  · exact .inl rfl
  · exact h

end LockEntry

/-- The entry that a depot has for a key. -/
def Hub.lock? (hub : Hub σ) (d : DepotId) (key : Key) : Option LockEntry :=
  (hub.depot d).locks.find? key

namespace Hub

variable {hub hub' : Hub σ} {d : DepotId}

theorem lock?_congr (h : hub'.depot d = hub.depot d) (key : Key) :
    hub'.lock? d key = hub.lock? d key := by
  rw [lock?, h, lock?]

theorem lock?_setDepot (hd : d < hub.depots.length) (depot : Depot) (key : Key) :
    (hub.setDepot d depot).lock? d key = depot.locks.find? key := by
  rw [lock?, depot_setDepot_self _ _ hd]

/-- A store that changes leaves the locks beside it alone. -/
theorem lock?_setStore (hub : Hub σ) (d : DepotId) (store : Store) (key : Key) :
    (hub.setDepot d { hub.depot d with store := store }).lock? d key = hub.lock? d key := by
  rcases Nat.lt_or_ge d hub.depots.length with hd | hd
  · rw [lock?_setDepot hd, lock?]
  · rw [setDepot_of_le _ hd]

theorem lock?_disown {h : HandlerId} (hhome : hub.home? h = some d)
    (hd : d < hub.depots.length) (key : Key) :
    (hub.disown h).lock? d key = (hub.lock? d key).map (LockEntry.forget h) := by
  obtain ⟨handler, hh, rfl⟩ := Option.map_eq_some_iff.1 hhome
  rw [disown_of_handler? hh, lock?_setDepot hd, Depot.disown, KeyLocks.find?_disown]
  rfl

theorem lock?_disown_ne {h : HandlerId} (hhome : hub.home? h ≠ some d) (key : Key) :
    (hub.disown h).lock? d key = hub.lock? d key := by
  rcases hh : hub.handler? h with _ | handler
  · rw [disown_of_handler?_none hh]
  · rw [disown_of_handler? hh]
    refine lock?_congr (depot_setDepot_ne hub _ ?_) key
    rintro rfl
    exact hhome (home?_of_handler? hh)

end Hub

namespace Frame

/-- The owner of an entry that a call takes, by what the entry was before. -/
inductive Claims (entry : Option LockEntry) : Frame σ → Option Owner → Prop
  | handling {h p} : Claims entry (.handling h p) ((entry.bind LockEntry.owner).or (some h))
  | fresh {h stale p} : entry = none → Claims entry (.offer h stale p) (some h)
  | own {h stale p e} : entry = some e → e.owner = none ∨ e.owner = some h →
      Claims entry (.offer h stale p) e.owner
  | pass {d timeout p} : Claims entry (.pass d timeout p) (entry.bind LockEntry.owner)

/-- Whoever takes an entry leaves its owner on it. -/
theorem Claims.keeps {f : Frame σ} {e : LockEntry} {o : Option Owner} {h : Owner}
    (hc : f.Claims (some e) o) (he : e.owner = some h) : o = some h := by
  cases hc with
  | handling => simp [he]
  | fresh hnone => cases hnone
  | own hsome _ => exact Option.some.inj hsome ▸ he
  | pass => simp [he]

/-- The owner of an entry that is taken is the one it had, or the handler of the call. -/
theorem Claims.origin {f : Frame σ} {entry : Option LockEntry} {o : Option Owner} {h : Owner}
    (hc : f.Claims entry o) (ho : o = some h) :
    (∃ e, entry = some e ∧ e.owner = some h)
      ∨ (∃ p, f = .handling h p) ∨ ∃ stale p, f = .offer h stale p := by
  cases hc with
  | @handling h' p =>
    rcases entry with _ | e
    · cases ho
      exact .inr (.inl ⟨p, rfl⟩)
    · rcases hown : e.owner with _ | other
      · simp only [Option.bind_some, hown, Option.none_or, Option.some.injEq] at ho
        exact .inr (.inl ⟨p, by rw [ho]⟩)
      · simp only [Option.bind_some, hown, Option.some_or, Option.some.injEq] at ho
        exact .inl ⟨e, rfl, by rw [hown, ho]⟩
  | @fresh h' stale p hnone =>
    cases ho
    exact .inr (.inr ⟨stale, p, rfl⟩)
  | @own h' stale p e hsome hown => exact .inl ⟨e, hsome, ho⟩
  | pass =>
    obtain ⟨e, he, hown⟩ := Option.bind_eq_some_iff.1 ho
    exact .inl ⟨e, he, hown⟩

/-- What a step of a call makes of the entry of a key. -/
inductive Handover (key : Key) (entry : Option LockEntry) (f : Frame σ) :
    Option (Key × Sight) → Option LockEntry → Option (Key × Sight) → Prop
  | still {grip grip'} : (∀ x, grip' = some (key, x) → ∃ y, grip = some (key, y)) →
      Handover key entry f grip entry grip'
  | takes {o} : (∀ e, entry = some e → e.held = false) → f.Claims entry o →
      Handover key entry f none (some ⟨true, o⟩) (some (key, .blank))
  | frees {retire} :
      Handover key entry f (some (key, .done retire)) (Depot.freed retire entry) none

variable {key other : Key} {f : Frame σ}

theorem Handover.quiet {entry : Option LockEntry} {grip grip' : Option (Key × Sight)}
    (h : grip'.map Prod.fst = grip.map Prod.fst) : Handover other entry f grip entry grip' := by
  refine .still fun x hx => ?_
  rw [hx, Option.map_some] at h
  obtain ⟨⟨k, y⟩, hy, rfl⟩ := Option.map_eq_some_iff.1 h.symm
  exact ⟨y, hy⟩

/-- A key that is taken, as it is for each key. -/
theorem Handover.of_takes {locks : KeyLocks} {o : Option Owner}
    (hfree : ∀ e, locks.find? key = some e → e.held = false)
    (hc : f.Claims (locks.find? key) o) :
    Handover other (locks.find? other) f none ((locks.set key ⟨true, o⟩).find? other)
      (some (key, .blank)) := by
  rw [KeyLocks.find?_set]
  split_ifs with heq
  · subst heq
    exact .takes hfree hc
  · exact .still fun x hx => by simp_all

theorem Handover.of_frees {locks : KeyLocks} {retire : Bool} :
    Handover other (locks.find? other) f (some (key, .done retire))
      ((locks.release key retire).find? other) none := by
  cases retire
  · rw [KeyLocks.find?_release_keep]
    split_ifs with heq
    · subst heq
      exact .frees
    · exact .still (by simp)
  · rw [KeyLocks.find?_release_retire]
    split_ifs with heq
    · subst heq
      exact .frees
    · exact .still (by simp)

/-- Who holds a key after a step held it before, or took it just now. -/
theorem Handover.after {entry entry' : Option LockEntry} {grip : Option (Key × Sight)} {x : Sight}
    (h : Handover key entry f grip entry' (some (key, x))) :
    (entry' = entry ∧ ∃ y, grip = some (key, y))
      ∨ (grip = none ∧ (∀ e, entry = some e → e.held = false)
        ∧ ∃ o, f.Claims entry o ∧ entry' = some ⟨true, o⟩) := by
  cases h with
  | still h => exact .inl ⟨rfl, h x rfl⟩
  | takes hfree hc => exact .inr ⟨rfl, hfree, _, hc, rfl⟩

/-- The name on an entry after a step was there before, or the call has taken the entry. -/
theorem Handover.origin {entry : Option LockEntry} {grip grip' : Option (Key × Sight)}
    {e' : LockEntry} {h : Owner} (hover : Handover key entry f grip (some e') grip')
    (hown : e'.owner = some h) :
    (∃ e, entry = some e ∧ e.owner = some h) ∨ (∃ x, grip' = some (key, x))
      ∧ ((∃ p, f = .handling h p) ∨ ∃ stale p, f = .offer h stale p) := by
  generalize hentry : some e' = entry' at hover
  cases hover with
  | still => exact .inl ⟨e', hentry.symm, hown⟩
  | takes _ hc =>
    cases hentry
    exact (hc.origin hown).imp_right fun hf => ⟨⟨_, rfl⟩, hf⟩
  | @frees retire =>
    cases retire
    · obtain ⟨e, he, rfl⟩ := Option.map_eq_some_iff.1 hentry.symm
      exact .inl ⟨e, he, hown⟩
    · cases hentry

end Frame

section Steps

variable {hub hub' : Hub σ} {handler : Handler σ} {h : HandlerId}

theorem Handling.Goes.handover {p p' : Handling σ}
    (hg : Handling.Goes hub handler h p hub' p') (ho : hub.Orderly)
    (hh : hub.handler? h = some handler) (hp : p.Orderly hub h) (key : Key) :
    Frame.Handover key (hub.lock? handler.depot key) (.handling h p) p.grip
      (hub'.lock? handler.depot key) p'.grip := by
  have hd : handler.depot < hub.depots.length := (ho.handlers h handler hh).2
  cases hg
  case taken hlocks =>
    obtain ⟨hfree, rfl⟩ := KeyLocks.eq_of_acquire? hlocks
    rw [Hub.lock?_setDepot hd]
    exact .of_takes hfree .handling
  case added ha =>
    obtain ⟨s, -, rfl⟩ := (ho.service _).add ha
    rw [Hub.lock?_setStore]
    exact .quiet rfl
  case processing hw =>
    rw [Hub.lock?_congr ((hp.2.goes hw).2.depot _)]
    exact .quiet rfl
  case removed hr =>
    rw [(ho.service _).remove] at hr
    cases hr
    rw [Hub.lock?_setStore]
    exact .quiet rfl
  case released =>
    rw [Hub.lock?_setDepot hd]
    exact .of_frees
  all_goals exact .quiet rfl

theorem Offer.Goes.handover {stale : Group} {p p' : Offer σ}
    (hg : Offer.Goes hub handler h stale p hub' p') (ho : hub.Orderly)
    (hh : hub.handler? h = some handler) (hp : p.Orderly hub h) (key : Key) :
    Frame.Handover key (hub.lock? handler.depot key) (.offer h stale p) (p.grip stale)
      (hub'.lock? handler.depot key) (p'.grip stale) := by
  have hd : handler.depot < hub.depots.length := (ho.handlers h handler hh).2
  cases hg
  case taken hlocks =>
    obtain ⟨hfree, ⟨hnone, rfl⟩ | ⟨e, he, hown, rfl⟩⟩ := KeyLocks.eq_of_tryAcquireOwned? hlocks
    · rw [Hub.lock?_setDepot hd]
      exact .of_takes hfree (.fresh hnone)
    · rw [Hub.lock?_setDepot hd]
      exact .of_takes hfree (.own he hown)
  case sending hw =>
    rw [Hub.lock?_congr ((hp.2.goes hw).2.depot _)]
    exact .quiet rfl
  case completing hw =>
    rw [Hub.lock?_congr ((hp.2.goes hw).2.depot _)]
    exact .quiet rfl
  case sent ha =>
    rw [Hub.lock?_congr (ha.depot _)]
    exact .quiet rfl
  case completed ha =>
    rw [Hub.lock?_congr (ha.depot _)]
    exact .quiet rfl
  case removed hr =>
    rw [(ho.service _).remove] at hr
    cases hr
    rw [Hub.lock?_setStore]
    exact .quiet rfl
  case released =>
    rw [Hub.lock?_setDepot hd]
    exact .of_frees
  all_goals exact .quiet rfl

theorem Pass.Goes.handover {d : DepotId} {timeout : Nat} {p p' : Pass σ}
    (hg : Pass.Goes hub d timeout p hub' p') (hp : p.Orderly hub d) (key : Key) :
    Frame.Handover key (hub.lock? d key) (.pass d timeout p) p.grip (hub'.lock? d key)
      p'.grip := by
  cases hg
  case claimed hlocks =>
    obtain ⟨hfree, rfl⟩ := KeyLocks.eq_of_tryAcquire? hlocks
    rw [Hub.lock?_setDepot hp.1]
    exact .of_takes hfree .pass
  case hooked hw =>
    rw [Hub.lock?_congr ((hp.2.2.2.goes hw).2.depot _)]
    exact .quiet rfl
  case swept =>
    rw [Hub.lock?_setStore]
    exact .quiet rfl
  case kept =>
    rw [Hub.lock?_setStore]
    exact .quiet rfl
  case freed =>
    rw [Hub.lock?_setDepot hp.1]
    exact .of_frees
  all_goals exact .quiet rfl

theorem Frame.handover_goes {f f' : Frame σ} (ho : hub.Orderly) (hf : f.Orderly hub)
    (hs : f.step hub = .goes hub' f') (d : DepotId) (key : Key) :
    Frame.Handover key (hub.lock? d key) f (f.grip hub d) (hub'.lock? d key)
      (f'.grip hub d) := by
  cases f with
  | handling h p =>
    obtain ⟨handler, hh⟩ := Handling.handler_of_step hs
    obtain ⟨p', rfl, hg⟩ := Handling.goes_of_step hh hs
    simp only [grip_handling, Hub.home?_of_handler? hh, Option.some.injEq]
    by_cases hd : handler.depot = d
    · subst hd
      simpa using hg.handover ho hh hf key
    · rw [Hub.lock?_congr (hg.elsewhere hf hd).1, if_neg hd, if_neg hd]
      exact .quiet rfl
  | offer h stale p =>
    obtain ⟨handler, hh⟩ := Offer.handler_of_step hs
    obtain ⟨p', rfl, hg⟩ := Offer.goes_of_step hh hs
    simp only [grip_offer, Hub.home?_of_handler? hh, Option.some.injEq]
    by_cases hd : handler.depot = d
    · subst hd
      simpa using hg.handover ho hh hf key
    · rw [Hub.lock?_congr (hg.elsewhere hf none hd).1, if_neg hd, if_neg hd]
      exact .quiet rfl
  | pass d' timeout p =>
    obtain ⟨p', rfl, hg⟩ := Pass.goes_of_step hs
    simp only [grip_pass]
    by_cases hd : d' = d
    · subst hd
      simpa using hg.handover hf key
    · rw [Hub.lock?_congr (hg.elsewhere hf hd).1, if_neg hd, if_neg hd]
      exact .quiet rfl
  | drop h p =>
    obtain ⟨rfl, rfl⟩ := Drop.goes_of_step hs
    exact .quiet rfl

/-- The end of a call leaves the entries alone, or takes the name of its handler off them. -/
theorem Frame.lock?_ends {f : Frame σ} (ho : hub.Orderly) {r : Reply}
    (hs : f.step hub = .ends hub' r) (d : DepotId) :
    (∀ key, hub'.lock? d key = hub.lock? d key)
      ∨ ∃ h, f.disowns h = true
        ∧ ∀ key, hub'.lock? d key = (hub.lock? d key).map (LockEntry.forget h) := by
  have hdisown : ∀ h : HandlerId, f.disowns h = true → hub' = hub.disown h →
      (∀ key, hub'.lock? d key = hub.lock? d key)
        ∨ ∃ h, f.disowns h = true
          ∧ ∀ key, hub'.lock? d key = (hub.lock? d key).map (LockEntry.forget h) := by
    rintro h hd rfl
    by_cases hhome : hub.home? h = some d
    · obtain ⟨handler, hh, rfl⟩ := Option.map_eq_some_iff.1 hhome
      exact .inr ⟨h, hd, Hub.lock?_disown hhome (ho.handlers h handler hh).2⟩
    · exact .inl (Hub.lock?_disown_ne hhome)
  cases f with
  | handling h p =>
    obtain ⟨-, rfl⟩ | ⟨result, -, rfl, -⟩ | ⟨result, rfl, rfl, -⟩ := Handling.ends_of_step hs
    · exact .inl fun _ => rfl
    · exact .inl fun _ => rfl
    · exact hdisown h (by simp [disowns]) rfl
  | offer h stale p =>
    obtain ⟨-, rfl⟩ | ⟨-, rfl⟩ | ⟨outcome, -, rfl⟩ | ⟨outcome, rfl, rfl⟩ := Offer.ends_of_step hs
    · exact .inl fun _ => rfl
    · exact .inl fun _ => rfl
    · exact .inl fun _ => rfl
    · exact hdisown h (by simp [disowns]) rfl
  | pass d' timeout p =>
    obtain ⟨rfl, -⟩ | ⟨t, -, rfl⟩ := Pass.ends_of_step hs
    · exact .inl fun _ => rfl
    · refine .inl fun key => ?_
      by_cases hd : d' = d
      · subst hd
        rcases Nat.lt_or_ge d' hub.depots.length with hlt | hge
        · rw [Hub.lock?_setDepot hlt, Hub.lock?]
          rfl
        · rw [Hub.setDepot_of_le _ hge]
      · exact Hub.lock?_congr (Hub.depot_setDepot_ne hub _ hd) key
  | drop h p =>
    obtain ⟨-, rfl⟩ | ⟨rfl, rfl⟩ := Drop.cases_of_ends hs
    · exact .inl fun _ => rfl
    · exact hdisown h (by simp [disowns]) rfl

theorem Frame.disown_of_ends {f : Frame σ} {r : Reply} (hs : f.step hub = .ends hub' r)
    (hd : f.disowns h = true) (hsome : (hub.handler? h).isSome = true) : hub' = hub.disown h := by
  cases f with
  | handling h' p =>
    obtain ⟨hnone, -⟩ | ⟨result, rfl, -, -⟩ | ⟨result, rfl, rfl, -⟩ := Handling.ends_of_step hs
    · cases p <;> simp [disowns] at hd
      simp [← hd, hnone] at hsome
    · cases hd
    · rw [show h' = h by simpa [disowns] using hd]
  | offer h' stale p =>
    obtain ⟨hnone, -⟩ | ⟨rfl, -⟩ | ⟨outcome, rfl, -⟩ | ⟨outcome, rfl, rfl⟩ :=
      Offer.ends_of_step hs
    · cases p <;> simp [disowns] at hd
      simp [← hd, hnone] at hsome
    · cases hd
    · cases hd
    · rw [show h' = h by simpa [disowns] using hd]
  | pass d timeout p => cases hd
  | drop h' p =>
    obtain ⟨rfl, -⟩ | ⟨rfl, rfl⟩ := Drop.cases_of_ends hs
    · cases hd
    · rw [show h' = h by simpa [disowns] using hd]

end Steps

/-! ## One call at a time -/

/-- What happens beside the call at a place. -/
inductive Beside (hub : Hub σ) (at_ : Place → Option (Frame σ)) (p : Place) : Hub σ → Prop
  | aside {hub'} : hub.Aside hub' → Beside hub at_ p hub'
  | goes {q f hub' f'} : q ≠ p → at_ q = some f → f.step hub = .goes hub' f' →
      Beside hub at_ p hub'
  | ends {q f hub' r} : q ≠ p → at_ q = some f → f.step hub = .ends hub' r →
      Beside hub at_ p hub'

def Note.place : Note → Place
  | .came p => p
  | .did p _ => p

/-- What is shown of a call as it begins, goes on, calls, is resumed, and stands still while
something else happens, is shown of every call after an advance. -/
theorem Advance.each {hub hub' : Hub σ} {at_ at' : Place → Option (Frame σ)} {new : List Note}
    {Q : Place → Frame σ → Prop} (ha : Advance hub at_ hub' at' new)
    (still : ∀ p f, at_ p = some f → at' p = some f → Beside hub at_ p hub' →
      (∀ x ∈ new, x.place ≠ p) → Q p f)
    (starts : ∀ p (a : Activity), at_ p = none → new = [.came p] → Q p a.frame)
    (goes : ∀ p f f', at_ p = some f → f.step hub = .goes hub' f' → at' p = some f' →
      new = ((f.doing hub (p.below?.bind at_) f').map (Note.did p)).toList → Q p f')
    (calls : ∀ p f f' inner, at_ p = some f → f.step hub = .calls hub' f' inner →
      at' p = some f' → at' p.above = some inner → new = [.came p.above] →
      Q p f' ∧ Q p.above inner)
    (returns : ∀ p f g r, at_ p.above = some f → f.step hub = .ends hub' r → at_ p = some g →
      at' p = some (g.resume r) → new = [] → Q p (g.resume r)) :
    ∀ p f, at' p = some f → Q p f := by
  intro q x hq
  cases ha with
  | aside h => exact still q x hq hq (.aside h) (by simp)
  | @starts p a hp =>
    have hat := hq
    rw [Function.update_apply] at hat
    split_ifs at hat with heq
    · subst heq
      cases hat
      exact starts q a hp rfl
    · exact still q x hat hq (.aside (.refl hub)) (by simpa [Note.place] using Ne.symm heq)
  | @goes p f hub' f' hp hs =>
    have hat := hq
    rw [Function.update_apply] at hat
    split_ifs at hat with heq
    · subst heq
      cases hat
      exact goes q f _ hp hs hq rfl
    · refine still q x hat hq (.goes (Ne.symm heq) hp hs) fun y hy => ?_
      obtain ⟨z, -, rfl⟩ := Option.map_eq_some_iff.1 (Option.mem_toList.1 hy)
      exact Ne.symm heq
  | @calls p f hub' f' inner hp hs hab =>
    have hat := hq
    have hcaller : Function.update (Function.update at_ p (some f')) p.above (some inner) p
        = some f' := by
      rw [Function.update_of_ne (Ne.symm p.above_ne), Function.update_self]
    obtain ⟨hf', hinner⟩ := calls p f f' inner hp hs hcaller (Function.update_self ..) rfl
    rw [Function.update_apply, Function.update_apply] at hat
    split_ifs at hat with h₁ h₂
    · subst h₁
      cases hat
      exact hinner
    · subst h₂
      cases hat
      exact hf'
    · refine still q x hat hq ?_ (by simpa [Note.place] using Ne.symm h₁)
      rw [(Frame.calls_refers hs 0).1]
      exact .aside (.refl hub)
  | @ends p f hub' r hp hs =>
    have hat := hq
    rw [Function.update_apply] at hat
    split_ifs at hat with heq
    exact still q x hat hq (.ends (Ne.symm heq) hp hs) (by simp)
  | @returns p f g hub' r hp hs hg =>
    have hat := hq
    rw [Function.update_apply, Function.update_apply] at hat
    split_ifs at hat with h₁ h₂
    · subst h₁
      cases hat
      exact returns q f g r hp hs hg hq rfl
    · exact still q x hat hq (.ends (Ne.symm h₂) hp hs) (by simp)



theorem Deal.group?_of_unheld {now : Instant} {s s' : Shelf} {x x' : Option (Key × Sight)}
    {e : Option Entry} {key : Key} (hd : Deal now s x e s' x') (hx : ∀ y, x ≠ some (key, y)) :
    s'.group? key = s.group? key := by
  cases hd with
  | @adds k m g hg =>
    rw [Shelf.setGroup_group?, if_neg]
    rintro rfl
    exact hx _ rfl
  | @removes k y =>
    rw [Shelf.setGroup_group?, if_neg]
    rintro rfl
    exact hx _ rfl
  | _ => rfl

section Titles

variable {hub hub' : Hub σ} {at_ at' : Place → Option (Frame σ)} {notes new : List Note}
  {p : Place} {d : DepotId} {key : Key} {x : Sight}

/-- Whatever happens beside a call that holds a key, its group stays and its entry too, but for the
name of a handler that is gone. -/
theorem Beside.spares (hb : Beside hub at_ p hub') (ho : hub.Orderly)
    (hf : ∀ p f, at_ p = some f → f.Orderly hub)
    (hs : Sound (hub.depot d).shelf (grips hub at_ d)) (ha : Attentive hub at_)
    (hp : grips hub at_ d p = some (key, x)) :
    (hub'.depot d).shelf.group? key = (hub.depot d).shelf.group? key
      ∧ (hub'.lock? d key = hub.lock? d key
        ∨ ∃ h, hub.Gone h ∧ hub'.lock? d key = (hub.lock? d key).map (LockEntry.forget h)) := by
  -- nobody else holds the key
  have hapart : ∀ q f y, q ≠ p → at_ q = some f → f.grip hub d ≠ some (key, y) := by
    intro q f y hne hq hgrip
    exact hne (hs.apart q p key y x (by simpa [grips, hq] using hgrip) hp)
  cases hb with
  | aside h =>
    rw [Advance.shelf_aside h]
    exact ⟨rfl, .inl (h.lock? d key)⟩
  | @goes q f hub' f' hne hq hstep =>
    have hdeal := Frame.deal_goes ho (hf q f hq) hstep none d
    refine ⟨hdeal.group?_of_unheld fun y => hapart q f y hne hq, .inl ?_⟩
    have hover := Frame.handover_goes ho (hf q f hq) hstep d key
    obtain ⟨e, he, hheld⟩ := hs.held p key x hp
    generalize hgrip : f.grip hub d = grip, hub'.lock? d key = entry', f'.grip hub d = grip'
      at hover
    cases hover with
    | still => rfl
    | takes hfree =>
      rw [hfree e he] at hheld
      cases hheld
    | frees => exact absurd hgrip (hapart q f _ hne hq)
  | @ends q f hub' r hne hq hstep =>
    obtain ⟨-, hdeal⟩ := Frame.deal_ends ho hstep d
    refine ⟨by rw [hdeal.group?_eq], ?_⟩
    rcases Frame.lock?_ends ho hstep d with hsame | ⟨h, hdis, hforget⟩
    · exact .inl (hsame key)
    · exact .inr ⟨h, ha.disowned hq hdis, hforget key⟩

/-! ## Who started a group -/

/-- Who started the group of a key, after one more doing. -/
def Doing.starts (d : DepotId) (key : Key) (starter : Option HandlerId) :
    Doing → Option HandlerId
  | .added h d' key' _ _ => if d' = d ∧ key' = key then starter.or (some h) else starter
  | .removed d' key' _ _ _ => if d' = d ∧ key' = key then none else starter
  | _ => starter

def Note.starts (d : DepotId) (key : Key) (starter : Option HandlerId) : Note → Option HandlerId
  | .came _ => starter
  | .did _ x => x.starts d key starter

/-- The handler that added the first message of the group of a key. -/
def starter? (d : DepotId) (key : Key) (notes : List Note) : Option HandlerId :=
  notes.foldl (Note.starts d key) none

theorem starter?_append (d : DepotId) (key : Key) (notes new : List Note) :
    starter? d key (notes ++ new) = new.foldl (Note.starts d key) (starter? d key notes) := by
  simp only [starter?, List.foldl_append]

theorem ledger_snoc (d : DepotId) (notes : List Note) (note : Note) :
    ledger d (notes ++ [note]) = ledger d notes ++ (note.posting? d).toList := by
  rw [ledger_append]
  rcases hnote : note.posting? d with _ | e <;> simp [ledger, hnote]

/-- Every group has been started by somebody. -/
theorem isSome_starter? (d : DepotId) (key : Key) (notes : List Note) :
    (starter? d key notes).isSome = ((ledger d notes).group? key).isSome := by
  induction notes using List.reverseRecOn with
  | nil => rfl
  | append_singleton notes note ih =>
    rw [starter?_append, ledger_snoc]
    simp only [List.foldl_cons, List.foldl_nil]
    rcases note with p | ⟨p, x⟩
    · simpa [Note.starts, Note.posting?] using ih
    · cases x with
      | added h d' key' m t =>
        by_cases hd : d' = d <;> by_cases hk : key' = key <;>
          simp [Note.starts, Note.posting?, Doing.starts, Doing.posting?, hd, hk, Ledger.shelve, ih]
      | removed d' key' g t by_ =>
        by_cases hd : d' = d <;> by_cases hk : key' = key <;>
          simp [Note.starts, Note.posting?, Doing.starts, Doing.posting?, hd, hk, Ledger.shelve, ih]
      | _ => simpa [Note.starts, Note.posting?, Doing.starts, Doing.posting?] using ih

/-- A message is added by a handling that holds the key, and no entry changes then. -/
theorem Frame.adding_of_doing {f f' : Frame σ} {under : Option (Frame σ)} (ho : hub.Orderly)
    (hs : f.step hub = .goes hub' f') {h : HandlerId} {m : Message} {t : Instant}
    (hd : f.doing hub under f' = some (.added h d key m t)) :
    f = .handling h (.adding key m) ∧ hub.home? h = some d
      ∧ ∀ other, hub'.lock? d other = hub.lock? d other := by
  cases f with
  | handling h' p =>
    obtain ⟨handler, hh⟩ := Handling.handler_of_step hs
    obtain ⟨p', rfl, hg⟩ := Handling.goes_of_step hh hs
    simp only [doing, hh, Option.bind_some] at hd
    cases hg
    case added ha =>
      cases hd
      obtain ⟨s, -, rfl⟩ := (ho.service _).add ha
      exact ⟨rfl, Hub.home?_of_handler? hh, fun other => Hub.lock?_setStore ..⟩
    case removed hr => simp [Handling.doing, Depot.removal, hr] at hd
    case unremoved hr => simp [Handling.doing, Depot.removal, hr] at hd
    all_goals cases hd
  | offer h' stale p =>
    obtain ⟨handler, hh⟩ := Offer.handler_of_step hs
    obtain ⟨p', rfl, hg⟩ := Offer.goes_of_step hh hs
    simp only [doing, hh, Option.bind_some] at hd
    cases hg
    case removed hr => simp [Offer.doing, Depot.removal, hr] at hd
    case unremoved hr => simp [Offer.doing, Depot.removal, hr] at hd
    all_goals cases hd
  | pass d' timeout p =>
    obtain ⟨p', rfl, hg⟩ := Pass.goes_of_step hs
    simp only [doing] at hd
    cases hg <;> cases hd
  | drop h' p =>
    obtain ⟨rfl, rfl⟩ := Drop.goes_of_step hs
    cases hd

theorem Advance.starter (ha : Advance hub at_ hub' at' new) (ho : hub.Orderly) (d : DepotId)
    (key : Key) (notes : List Note) :
    starter? d key (notes ++ new) = starter? d key notes
      ∨ (∃ p h m, at_ p = some (.handling h (.adding key m)) ∧ hub.home? h = some d
        ∧ starter? d key (notes ++ new) = (starter? d key notes).or (some h)
        ∧ hub'.lock? d key = hub.lock? d key)
      ∨ starter? d key (notes ++ new) = none := by
  rw [starter?_append]
  cases ha with
  | @goes p f hub' f' hp hs =>
    rcases hx : f.doing hub (p.below?.bind at_) f' with _ | x
    · exact .inl rfl
    · simp only [Option.map_some, Option.toList_some, List.foldl_cons, List.foldl_nil,
        Note.starts]
      cases x with
      | added h d' key' m t =>
        simp only [Doing.starts]
        split_ifs with heq
        · obtain ⟨rfl, rfl⟩ := heq
          obtain ⟨rfl, hhome, hentry⟩ := Frame.adding_of_doing ho hs hx
          exact .inr (.inl ⟨p, h, m, hp, hhome, rfl, hentry key'⟩)
        · exact .inl rfl
      | removed d' key' g t by_ =>
        simp only [Doing.starts]
        split_ifs
        · exact .inr (.inr rfl)
        · exact .inl rfl
      | _ => exact .inl rfl
  | _ => exact .inl rfl

/-! ## The owner of a group -/

/-- What a call that holds a key in a depot may count on: with a message for a group that is not
there it is a handling of the owner, and an offer is one to the owner or one of a key without. -/
def Frame.Rightful (hub : Hub σ) (d : DepotId) (f : Frame σ) : Prop :=
  ∀ key x, f.grip hub d = some (key, x) →
    match f with
    | .handling h (.adding _ _) => (hub.depot d).shelf.group? key = none →
        ∀ e, hub.lock? d key = some e → e.owner = some h
    | .offer h _ _ => ∀ e, hub.lock? d key = some e → e.owner = none ∨ e.owner = some h
    | _ => True

/-- The owners of the entries of a depot, against the books. -/
structure Titled (hub : Hub σ) (at_ : Place → Option (Frame σ)) (notes : List Note)
    (d : DepotId) : Prop where
  titled : ∀ key h e, starter? d key notes = some h → hub.isLive h = true →
    hub.lock? d key = some e → e.owner = some h
  home : ∀ key h, starter? d key notes = some h → hub.home? h = some d
  named : ∀ key e h, hub.lock? d key = some e → e.owner = some h → hub.home? h = some d
    ∧ (hub.isLive h = true ∨ ∃ p f, at_ p = some f ∧ f.disowns h = true)
  rightful : ∀ p f, at_ p = some f → f.Rightful hub d

theorem Frame.rightful_of_grip {f : Frame σ} (h : f.grip hub d = none) : f.Rightful hub d := by
  intro key x hx
  rw [h] at hx
  cases hx

theorem Frame.Rightful.resume {f : Frame σ} (h : f.Rightful hub d) (r : Reply) :
    (f.resume r).Rightful hub d := by
  intro key x hx
  rw [Frame.grip_resume] at hx
  have hold := h key x hx
  cases f with
  | handling h' p => cases p <;> exact hold
  | offer h' stale p => exact hold
  | pass d' timeout p => trivial
  | drop h' p => trivial

/-- A call that holds its key keeps what it may count on, whatever happens beside it. -/
theorem Frame.Rightful.still {f : Frame σ} (h : f.Rightful hub d) (hp : at_ p = some f)
    (hb : Beside hub at_ p hub') (ho : hub.Orderly) (hf : ∀ p f, at_ p = some f → f.Orderly hub)
    (hs : Sound (hub.depot d).shelf (grips hub at_ d)) (ha : Attentive hub at_)
    (hgrows : hub.Grows hub') : f.Rightful hub' d := by
  intro key x hx
  rw [(hf p f hp).grip_grows hgrows] at hx
  obtain ⟨hgroup, hentry⟩ := hb.spares ho hf hs ha (by simpa [grips, hp] using hx)
  have hold := h key x hx
  cases f with
  | handling h' q =>
    cases q
    case adding k m =>
      intro hnone e' he'
      rw [hgroup] at hnone
      rcases hentry with hsame | ⟨gone, hgone, hforget⟩
      · exact hold hnone e' (hsame ▸ he')
      · rw [hforget] at he'
        obtain ⟨e, he, rfl⟩ := Option.map_eq_some_iff.1 he'
        refine LockEntry.forget_of_ne (hold hnone e he) ?_
        -- the handler of a call under way is there
        rintro rfl
        have hlive := ha.used hp (show (Frame.handling h' (.adding k m)).refers h' = true by
          simp [Frame.refers, Handling.refers])
        rw [hgone.isLive] at hlive
        cases hlive
    all_goals trivial
  | offer h' stale q =>
    intro e' he'
    rcases hentry with hsame | ⟨gone, -, hforget⟩
    · exact hold e' (hsame ▸ he')
    · rw [hforget] at he'
      obtain ⟨e, he, rfl⟩ := Option.map_eq_some_iff.1 he'
      exact LockEntry.forget_none_or (hold e he)
  | pass d' timeout q => trivial
  | drop h' q => trivial

theorem Frame.Rightful.goes {f f' : Frame σ} (h : f.Rightful hub d) (ho : hub.Orderly)
    (hf : f.Orderly hub) (hstep : f.step hub = .goes hub' f')
    (hs : Sound (hub.depot d).shelf (grips hub at_ d)) : f'.Rightful hub' d := by
  intro key x hx
  have hgrip : f'.grip hub' d = f'.grip hub d :=
    grip_congr fun h => by simp only [Hub.home?, (orderly_goes ho hf hstep).1.handlers]
  rw [hgrip] at hx
  have hover := (hx ▸ handover_goes ho hf hstep d key).after
  have hdeal := deal_goes ho hf hstep none d
  cases f with
  | handling h' p =>
    obtain ⟨handler, hh⟩ := Handling.handler_of_step hstep
    obtain ⟨p', rfl, hg⟩ := Handling.goes_of_step hh hstep
    cases p'
    case adding k m =>
      intro hnone e' he'
      rcases hover with ⟨-, y, hy⟩ | ⟨hgrip, hfree, o, hc, hentry⟩
      · cases hg
        simp [grip_handling, Handling.grip, Handling.holds] at hy
      · rw [hgrip] at hdeal
        rw [hdeal.group?_of_unheld (by simp)] at hnone
        rw [hentry] at he'
        cases he'
        cases hc
        -- an entry that nobody holds would have a group
        rcases hlock : hub.lock? d key with _ | e
        · rfl
        · have hsome := hs.resting key e hlock (hfree e hlock)
          simp [hnone] at hsome
    all_goals trivial
  | offer h' stale p =>
    obtain ⟨handler, hh⟩ := Offer.handler_of_step hstep
    obtain ⟨p', rfl, hg⟩ := Offer.goes_of_step hh hstep
    intro e' he'
    rcases hover with ⟨hsame, y, hy⟩ | ⟨-, -, o, hc, hentry⟩
    · exact h key y hy e' (hsame ▸ he')
    · rw [hentry] at he'
      cases he'
      cases hc with
      | fresh => exact .inr rfl
      | own _ hown => exact hown
  | pass d' timeout p =>
    obtain ⟨p', rfl, hg⟩ := Pass.goes_of_step hstep
    trivial
  | drop h' p =>
    obtain ⟨rfl, rfl⟩ := Drop.goes_of_step hstep
    trivial

theorem Frame.rightful_calls {f f' inner : Frame σ} (hs : f.step hub = .calls hub' f' inner)
    (h : f.Rightful hub d) : f'.Rightful hub' d ∧ inner.Rightful hub' d := by
  obtain ⟨rfl, hcaller, hinner⟩ := grip_calls hs d
  refine ⟨fun key x hx => ?_, rightful_of_grip hinner⟩
  have hold := h key x (hcaller ▸ hx)
  cases f with
  | handling h' p =>
    obtain ⟨-, rfl, key, g, work, rfl, hw⟩ := Handling.calls_of_step hs
    trivial
  | offer h' stale p =>
    obtain ⟨-, rfl, -⟩ := Offer.calls_of_step hs
    exact hold
  | pass d' timeout p =>
    obtain ⟨-, ⟨t, g, h', left, said, rfl, rfl, rfl⟩
      | ⟨t, g, who, left, said, work, -, rfl, hw⟩⟩ := Pass.calls_of_step hs <;> trivial
  | drop h' p => exact (Drop.calls_of_step hs).elim

theorem rightful_advance (ha : Advance hub at_ hub' at' new) (ho : hub.Orderly)
    (hf : ∀ p f, at_ p = some f → f.Orderly hub)
    (hs : Sound (hub.depot d).shelf (grips hub at_ d)) (hatt : Attentive hub at_)
    (h : ∀ p f, at_ p = some f → f.Rightful hub d) :
    ∀ p f, at' p = some f → f.Rightful hub' d := by
  have hgrows := ha.grows ho hf
  refine ha.each (Q := fun _ f => f.Rightful hub' d) (fun p f hp _ hb _ => ?_)
    (fun p a _ _ => ?_) (fun p f f' hp hstep _ _ => ?_) (fun p f f' inner hp hstep _ _ _ => ?_)
    (fun p f g r hp hstep hg _ _ => ?_)
  · exact (h p f hp).still hp hb ho hf hs hatt hgrows
  · refine Frame.rightful_of_grip ?_
    cases a <;> simp [Activity.frame, Frame.grip_handling, Frame.grip_pass, Frame.grip_drop,
      Handling.grip, Handling.holds, Pass.grip, Pass.holds]
  · exact (h p f hp).goes ho (hf p f hp) hstep hs
  · exact Frame.rightful_calls hstep (h p f hp)
  · exact ((h p g hg).still hg (.ends p.above_ne hp hstep) ho hf hs hatt hgrows).resume r

/-- An entry names its owner as long as it lasts and the owner is not gone. -/
theorem Advance.owner_kept (ha : Advance hub at_ hub' at' new) (ho : hub.Orderly)
    (hf : ∀ p f, at_ p = some f → f.Orderly hub) (hatt : Attentive hub at_) {e e' : LockEntry}
    {h : HandlerId} (he : hub.lock? d key = some e) (hown : e.owner = some h)
    (hgone : ¬ hub.Gone h) (he' : hub'.lock? d key = some e') : e'.owner = some h := by
  have hsame : hub'.lock? d key = hub.lock? d key → e'.owner = some h := fun heq => by
    rw [heq, he] at he'
    exact Option.some.inj he' ▸ hown
  have hends : ∀ {p f r}, at_ p = some f → f.step hub = .ends hub' r → e'.owner = some h := by
    intro p f r hp hs
    rcases Frame.lock?_ends ho hs d with heq | ⟨h', hdis, hforget⟩
    · exact hsame (heq key)
    · rw [hforget, he] at he'
      cases he'
      refine LockEntry.forget_of_ne hown ?_
      rintro rfl
      exact hgone (hatt.disowned hp hdis)
  cases ha with
  | aside h => exact hsame (h.lock? d key)
  | starts a hp => exact hsame rfl
  | @goes p f hub' f' hp hs =>
    have hover := Frame.handover_goes ho (hf p f hp) hs d key
    rw [he, he'] at hover
    generalize f.grip hub d = grip, f'.grip hub d = grip', hentry : some e' = entry' at hover
    cases hover with
    | still => exact Option.some.inj hentry ▸ hown
    | takes _ hc =>
      cases hentry
      exact hc.keeps hown
    | @frees retire =>
      cases retire
      · cases hentry
        exact hown
      · cases hentry
  | calls hp hs hab => exact hsame (by rw [(Frame.calls_refers hs 0).1])
  | ends hp hs => exact hends hp hs
  | returns hp hs hg => exact hends hp hs

/-- The name on an entry was there before, or is that of a call which takes the key just now. -/
theorem Advance.owner_origin (ha : Advance hub at_ hub' at' new) (ho : hub.Orderly)
    (hf : ∀ p f, at_ p = some f → f.Orderly hub) {e' : LockEntry} {h : HandlerId}
    (he' : hub'.lock? d key = some e') (hown : e'.owner = some h) :
    (∃ e, hub.lock? d key = some e ∧ e.owner = some h)
      ∨ ∃ p f', at' p = some f' ∧ f'.refers h = true ∧ hub.home? h = some d := by
  have hends : ∀ {p f r}, at_ p = some f → f.step hub = .ends hub' r →
      ∃ e, hub.lock? d key = some e ∧ e.owner = some h := by
    intro p f r hp hs
    rcases Frame.lock?_ends ho hs d with heq | ⟨h', hdis, hforget⟩
    · exact ⟨e', heq key ▸ he', hown⟩
    · rw [hforget] at he'
      obtain ⟨e, he, rfl⟩ := Option.map_eq_some_iff.1 he'
      exact ⟨e, he, (LockEntry.owner_forget hown).1⟩
  cases ha with
  | aside haside => exact .inl ⟨e', (haside.lock? d key).symm.trans he', hown⟩
  | starts a hp => exact .inl ⟨e', he', hown⟩
  | @goes p f hub' f' hp hs =>
    have hover := Frame.handover_goes ho (hf p f hp) hs d key
    rw [he'] at hover
    refine (hover.origin hown).imp_right ?_
    rintro ⟨⟨x, hx⟩, ⟨q, rfl⟩ | ⟨stale, q, rfl⟩⟩
    · obtain ⟨handler, hh⟩ := Handling.handler_of_step hs
      obtain ⟨q', rfl, -⟩ := Handling.goes_of_step hh hs
      rw [Frame.grip_handling] at hx
      split_ifs at hx with hhome
      refine ⟨p, _, Function.update_self .., ?_, hhome⟩
      cases q' <;> simp [Handling.grip, Handling.holds] at hx <;>
        simp [Frame.refers, Handling.refers]
    · obtain ⟨handler, hh⟩ := Offer.handler_of_step hs
      obtain ⟨q', rfl, -⟩ := Offer.goes_of_step hh hs
      rw [Frame.grip_offer] at hx
      split_ifs at hx with hhome
      refine ⟨p, _, Function.update_self .., ?_, hhome⟩
      cases q' <;> simp [Offer.grip, Offer.isHolding] at hx <;> simp [Frame.refers, Offer.refers]
  | calls hp hs hab => exact .inl ⟨e', by rw [← (Frame.calls_refers hs 0).1]; exact he', hown⟩
  | ends hp hs => exact .inl (hends hp hs)
  | returns hp hs hg => exact .inl (hends hp hs)

/-- A handler that is about to lose its locks is so until it lost them. -/
theorem Advance.disowning (ha : Advance hub at_ hub' at' new) {f : Frame σ} {h : HandlerId}
    (hp : at_ p = some f) (hd : f.disowns h = true) (hgone : hub.Gone h) :
    (∃ f', at' p = some f' ∧ f'.disowns h = true) ∨ hub' = hub.disown h := by
  have hnext : ∀ hub'' f', f.step hub ≠ .goes hub'' f' := by
    intro hub'' f' hs
    cases f with
    | handling h' q =>
      obtain ⟨handler, hh⟩ := Handling.handler_of_step hs
      obtain ⟨q', rfl, hg⟩ := Handling.goes_of_step hh hs
      cases hg <;> cases hd
    | offer h' stale q =>
      obtain ⟨handler, hh⟩ := Offer.handler_of_step hs
      obtain ⟨q', rfl, hg⟩ := Offer.goes_of_step hh hs
      cases hg <;> cases hd
    | pass d timeout q => cases hd
    | drop h' q =>
      obtain ⟨rfl, -⟩ := Drop.letting_of_goes hs
      cases hd
  have hkept : at' p = at_ p → ∃ f', at' p = some f' ∧ f'.disowns h = true := fun heq =>
    ⟨f, heq.trans hp, hd⟩
  cases ha with
  | aside => exact .inl (hkept rfl)
  | @starts q a hq =>
    refine .inl (hkept (Function.update_of_ne ?_ _ _))
    rintro rfl
    rw [hq] at hp
    cases hp
  | @goes q f₀ hub' f' hq hs =>
    refine .inl (hkept (Function.update_of_ne ?_ _ _))
    rintro rfl
    cases hq.symm.trans hp
    exact hnext _ _ hs
  | @calls q f₀ hub' f' inner hq hs hab =>
    have hne : p ≠ q := by
      rintro rfl
      cases hq.symm.trans hp
      obtain ⟨-, -, -, hcaller, -⟩ := Frame.calls_refers hs h
      cases f with
      | handling h' r =>
        obtain ⟨-, rfl, key, g, work, rfl, -⟩ := Handling.calls_of_step hs
        cases hd
      | offer h' stale r =>
        obtain ⟨-, rfl, -⟩ := Offer.calls_of_step hs
        rw [hd] at hcaller
        cases hcaller
      | pass d timeout r => cases hd
      | drop h' r => exact Drop.calls_of_step hs
    have hne' : p ≠ q.above := by
      rintro rfl
      rw [hab] at hp
      cases hp
    exact .inl (hkept (by rw [Function.update_of_ne hne', Function.update_of_ne hne]))
  | @ends q f₀ hub' r hq hs =>
    by_cases heq : p = q
    · subst heq
      cases hq.symm.trans hp
      exact .inr (Frame.disown_of_ends hs hd hgone.1)
    · exact .inl (hkept (Function.update_of_ne heq _ _))
  | @returns q f₀ g hub' r hq hs hg =>
    by_cases heq : p = q.above
    · subst heq
      cases hq.symm.trans hp
      exact .inr (Frame.disown_of_ends hs hd hgone.1)
    · by_cases hpq : p = q
      · subst hpq
        cases hg.symm.trans hp
        exact .inl ⟨_, Function.update_self .., by rw [Frame.disowns_resume]; exact hd⟩
      · exact .inl (hkept (by rw [Function.update_of_ne hpq, Function.update_of_ne heq]))

/-- The titles hold on with every move by somebody who may make it. -/
theorem Titled.advance (h : Titled hub at_ notes d) (ha : Advance hub at_ hub' at' new)
    (ht : Tends hub at_ hub' at') (ho : hub.Orderly) (ho' : hub'.Orderly)
    (hf : ∀ p f, at_ p = some f → f.Orderly hub)
    (hs : Sound (hub.depot d).shelf (grips hub at_ d))
    (hk : Kept hub.clock (hub.depot d).shelf (ledger d notes)) :
    Titled hub' at' (notes ++ new) d := by
  have hgrows := ha.grows ho hf
  have hstarter : ∀ key, (starter? d key notes).isSome
      = ((hub.depot d).shelf.group? key).isSome := fun key => by
    rw [isSome_starter?, hk.stored key]
  -- a handler that is there and not new was there before
  have hlive : ∀ h, hub'.isLive h = true → hub.home? h = some d →
      ¬ hub.Gone h ∧ hub.isLive h = true := by
    intro h hl hhome
    have hgone : ¬ hub.Gone h := fun hg => by
      rw [(ht.gone h hg).isLive] at hl
      cases hl
    obtain ⟨handler, hh, -⟩ := Option.map_eq_some_iff.1 hhome
    refine ⟨hgone, Hub.isLive_iff.2 (Nat.pos_of_ne_zero fun hzero => hgone ⟨by simp [hh], hzero⟩)⟩
  refine ⟨fun key h' e' hst hl he' => ?_, fun key h' hst => ?_, fun key e' h' he' hown => ?_,
    rightful_advance ha ho hf hs ht.before h.rightful⟩
  · rcases ha.starter ho d key notes with hsame | ⟨p, h₀, m, hp, hhome, hnew, hentry⟩ | hnone
    · rw [hsame] at hst
      obtain ⟨hgone, hl₀⟩ := hlive h' hl (h.home key h' hst)
      have hsome := hs.guarded key (by rw [← hstarter, hst]; rfl)
      obtain ⟨e, he⟩ := Option.isSome_iff_exists.1 hsome
      exact ha.owner_kept ho hf ht.before he (h.titled key h' e hst hl₀ he) hgone he'
    · rw [hentry] at he'
      rw [hnew] at hst
      rcases hold : starter? d key notes with _ | h₁ <;> rw [hold] at hst
      · cases hst
        have hgrip : (Frame.handling h' (.adding key m)).grip hub d = some (key, .blank) := by
          rw [Frame.grip_handling, if_pos hhome]
          rfl
        refine h.rightful p _ hp key .blank hgrip ?_ e' he'
        rw [← Option.isNone_iff_eq_none, ← Option.not_isSome, ← hstarter, hold]
        rfl
      · cases hst
        exact h.titled key h' e' hold (hlive h' hl (h.home key h' hold)).2 he'
    · rw [hnone] at hst
      cases hst
  · refine hgrows.home? ?_
    rcases ha.starter ho d key notes with hsame | ⟨p, h₀, m, -, hhome, hnew, -⟩ | hnone
    · exact h.home key h' (hsame ▸ hst)
    · rw [hnew] at hst
      rcases hold : starter? d key notes with _ | h₁ <;> rw [hold] at hst
      · cases hst
        exact hhome
      · cases hst
        exact h.home key h' hold
    · rw [hnone] at hst
      cases hst
  · rcases ha.owner_origin ho hf he' hown with ⟨e, he, hown₀⟩ | ⟨p, f', hp, hrefers, hhome⟩
    · obtain ⟨hhome, hl | ⟨p, f, hp, hd⟩⟩ := h.named key e h' he hown₀
      · exact ⟨hgrows.home? hhome, ht.lives h' hl⟩
      · refine ⟨hgrows.home? hhome, ?_⟩
        rcases ha.disowning hp hd (ht.before.disowned hp hd) with ⟨f', hp', hd'⟩ | rfl
        · exact .inr ⟨p, f', hp', hd'⟩
        · obtain ⟨handler, hh, rfl⟩ := Option.map_eq_some_iff.1 hhome
          rw [Hub.lock?_disown hhome (ho.handlers h' handler hh).2, he] at he'
          cases he'
          exact absurd rfl (LockEntry.owner_forget hown).2
    · exact ⟨hgrows.home? hhome, .inl (ht.after.used hp hrefers)⟩

theorem titled_initial (outside : σ) (idOf : Nat → MessageId) (d : DepotId) :
    Titled (Machine.initial outside idOf).hub (Machine.initial outside idOf).frameAt [] d where
  titled key h e hst := by cases hst
  home key h hst := by cases hst
  named key e h he := by cases he
  rightful p f hp := by cases hp

end Titles

end Collate
