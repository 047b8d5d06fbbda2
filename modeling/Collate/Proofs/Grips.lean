import Collate.Proofs.Order
import Collate.Proofs.Shelves

/-!
# What calls make of the shelves

Each step of each call is a deal with the shelf of its depot and leaves all other shelves alone.
Together with the soundness of the deals this is the exclusion that everything else rests on: in
every lawful run a key is held by one call at most, and what that call knows of the group under the
key stays true until the call itself changes it (`Machine.sound_after`).
-/

namespace Collate

variable {σ : Type}

namespace Handling

/-- What is known of the group of the key at a phase. -/
def sight : Handling σ → Sight
  | .deciding _ g => .seen g
  | .processing _ g _ => .seen g
  | .removing _ g _ => .seen g
  | .releasing _ retire _ => .done retire
  | _ => .blank

def grip (p : Handling σ) : Option (Key × Sight) := p.holds.map fun key => (key, p.sight)

end Handling

namespace Offer

def sight : Offer σ → Sight
  | .discarding g _ => .seen g
  | .sending g _ _ _ => .seen g
  | .completing g _ => .seen g
  | .removing g => .seen g
  | .releasing retire _ => .done retire
  | _ => .blank

def grip (stale : Group) (p : Offer σ) : Option (Key × Sight) :=
  if p.isHolding then some (stale.key, p.sight) else none

end Offer

namespace Pass

def sight : Pass σ → Sight
  | .freeing _ _ retire _ => .done retire
  | _ => .blank

def grip (p : Pass σ) : Option (Key × Sight) := p.holds.map fun key => (key, p.sight)

theorem grip_resume (p : Pass σ) (r : Reply) : (p.resume r).grip = p.grip := by
  cases p <;> simp only [resume]
  · split <;> rfl
  · rfl

end Pass

namespace Frame

def sight : Frame σ → Sight
  | .handling _ p => p.sight
  | .offer _ _ p => p.sight
  | .pass _ _ p => p.sight
  | .drop .. => .blank

/-- The key that a call holds in a depot, with what it knows of the group. -/
def grip (hub : Hub σ) (d : DepotId) (f : Frame σ) : Option (Key × Sight) :=
  (f.holds hub).bind fun hold => if hold.1 = d then some (hold.2, f.sight) else none

variable {hub hub' : Hub σ} {d : DepotId}

theorem grip_handling (hub : Hub σ) (d : DepotId) (h : HandlerId) (p : Handling σ) :
    (Frame.handling h p).grip hub d = if hub.home? h = some d then p.grip else none := by
  simp only [grip, holds, Handling.grip, Hub.home?, Hub.handler?, sight]
  obtain hm | ⟨m, hm⟩ := Option.eq_none_or_eq_some (hub.member? h)
  · simp [hm]
  · rcases p.holds with _ | key <;> simp [hm]

theorem grip_offer (hub : Hub σ) (d : DepotId) (h : HandlerId) (stale : Group) (p : Offer σ) :
    (Frame.offer h stale p).grip hub d = if hub.home? h = some d then p.grip stale else none := by
  simp only [grip, holds, Offer.grip, Hub.home?, Hub.handler?, sight]
  obtain hm | ⟨m, hm⟩ := Option.eq_none_or_eq_some (hub.member? h)
  · simp [hm]
  · rcases p.isHolding <;> simp [hm]

theorem grip_pass (hub : Hub σ) (d d' : DepotId) (timeout : Nat) (p : Pass σ) :
    (Frame.pass d' timeout p).grip hub d = if d' = d then p.grip else none := by
  simp only [grip, holds, Pass.grip, sight]
  rcases p.holds with _ | key <;> simp

theorem grip_drop (hub : Hub σ) (d : DepotId) (h : HandlerId) (p : Drop) :
    (Frame.drop h p).grip hub d = none := rfl

theorem grip_resume (hub : Hub σ) (d : DepotId) (f : Frame σ) (r : Reply) :
    (f.resume r).grip hub d = f.grip hub d := by
  cases f with
  | handling h p =>
    simp only [resume, grip_handling]
    cases p <;> rfl
  | offer h stale p =>
    simp only [resume, grip_offer]
    cases p <;> rfl
  | pass d' timeout p =>
    simp only [resume, grip_pass, Pass.grip_resume]
  | drop h p => rfl

theorem grip_eq_some_of_holds {f : Frame σ} {key : Key} (h : f.holds hub = some (d, key)) :
    f.grip hub d = some (key, f.sight) := by
  simp [grip, h]

theorem grip_congr {f : Frame σ} (hh : ∀ h, hub'.home? h = hub.home? h) :
    f.grip hub' d = f.grip hub d := by
  cases f <;> simp only [grip_handling, grip_offer, grip_pass, grip_drop, hh]

/-- A call in good order holds what it held when the hub grows. -/
theorem Orderly.grip_grows {f : Frame σ} (hf : f.Orderly hub) (hg : hub.Grows hub') :
    f.grip hub' d = f.grip hub d := by
  have hhome : ∀ h, (hub.handler? h).isSome → hub'.home? h = hub.home? h := by
    intro h hh
    obtain ⟨old, hold⟩ := Option.isSome_iff_exists.1 hh
    rw [Hub.home?_of_handler? hold, hg.home? (Hub.home?_of_handler? hold)]
  cases f with
  | handling h p =>
    rw [grip_handling, grip_handling]
    cases p
    case arriving => simp [Handling.grip, Handling.holds]
    case processing => rw [hhome h hf.1]
    all_goals rw [hhome h hf]
  | offer h stale p =>
    rw [grip_offer, grip_offer]
    cases p
    case sending => rw [hhome h hf.1]
    case completing => rw [hhome h hf.1]
    all_goals rw [hhome h hf]
  | pass d' timeout p => rw [grip_pass, grip_pass]
  | drop h p => rfl

end Frame

/-- The entry that the ledger of a depot has for a doing. -/
def Doing.posting? (d : DepotId) : Doing → Option Entry
  | .added _ d' key m time => if d' = d then some (.put key m time) else none
  | .removed d' key g _ _ => if d' = d then some (.took key g) else none
  | _ => none

namespace Hub

theorem depot_setDepot_ne (hub : Hub σ) {d other : DepotId} (depot : Depot) (h : d ≠ other) :
    (hub.setDepot d depot).depot other = hub.depot other := by
  simp [Hub.depot, setDepot, List.getElem?_set_ne h]

theorem depot_setDepot_self (hub : Hub σ) {d : DepotId} (depot : Depot)
    (hd : d < hub.depots.length) : (hub.setDepot d depot).depot d = depot := by
  rw [depot_setDepot hub d depot hd, if_pos rfl]

end Hub

namespace Handling.Goes

variable {hub hub' : Hub σ} {handler : Handler σ} {h : HandlerId} {p p' : Handling σ}

theorem deal (hg : Goes hub handler h p hub' p') (ho : hub.Orderly)
    (hh : hub.handler? h = some handler) (hp : p.Orderly hub h) :
    Deal hub.clock (hub.depot handler.depot).shelf p.grip
      ((p.doing hub handler h p').bind (Doing.posting? handler.depot))
      (hub'.depot handler.depot).shelf p'.grip := by
  have hd : handler.depot < hub.depots.length := (ho.handlers h handler hh).2
  have hservice := ho.service handler.depot
  cases hg
  case taken hlocks =>
    obtain ⟨hfree, owner, hshelf⟩ := Depot.shelf_gives (KeyLocks.gives_of_acquire? hlocks)
    rw [Hub.depot_setDepot_self hub _ hd, hshelf]
    exact .takes hfree
  case added key m depot g ha =>
    obtain ⟨hgroup, hshelf⟩ := Depot.shelf_add hservice ha
    rw [Hub.depot_setDepot_self hub _ hd, hshelf]
    simp only [doing, Option.bind_some, Doing.posting?, if_true]
    exact .adds hgroup
  case reviewed key e retire hretire =>
    refine .learns fun ht _ => ?_
    rw [hservice.get] at hretire
    exact (ht.isEmpty_get key hub.clock).symm.trans hretire
  case undecided => exact .learns fun _ hfits => by simp_all [Sight.Fits, sight]
  case pending => exact .learns fun _ hfits => by simp_all [Sight.Fits, sight]
  case broken => exact .learns fun _ hfits => by simp_all [Sight.Fits, sight]
  case processing hw =>
    rw [(hp.2.goes hw).2.depot]
    exact .quiet
  case removed key g result depot gone hr =>
    have hremoval := hr
    rw [hservice.remove] at hr
    cases hr
    rw [Hub.depot_setDepot_self hub _ hd, Depot.shelf_remove]
    simp only [doing, Depot.removal, hremoval, Option.bind_some, Doing.posting?, if_true]
    exact .removes
  case unremoved hr =>
    rw [hservice.remove] at hr
    cases hr
  case released =>
    rw [Hub.depot_setDepot_self hub _ hd, Depot.shelf_release]
    exact .frees
  all_goals exact .quiet

theorem elsewhere (hg : Goes hub handler h p hub' p') (hp : p.Orderly hub h) {d : DepotId}
    (hne : handler.depot ≠ d) :
    hub'.depot d = hub.depot d ∧ (p.doing hub handler h p').bind (Doing.posting? d) = none := by
  cases hg
  case processing hw => exact ⟨(hp.2.goes hw).2.depot d, rfl⟩
  case removed hr =>
    exact ⟨Hub.depot_setDepot_ne hub _ hne, by simp [doing, Depot.removal, hr, Doing.posting?, hne]⟩
  case unremoved hr => exact ⟨rfl, by simp [doing, Depot.removal, hr]⟩
  all_goals
    first
    | exact ⟨rfl, rfl⟩
    | exact ⟨Hub.depot_setDepot_ne hub _ hne, by simp [doing, Doing.posting?, hne]⟩

end Handling.Goes

namespace Offer.Goes

variable {hub hub' : Hub σ} {handler : Handler σ} {h : HandlerId} {stale : Group} {p p' : Offer σ}

theorem deal (hg : Goes hub handler h stale p hub' p') (ho : hub.Orderly)
    (hh : hub.handler? h = some handler) (hp : p.Orderly hub h) (timeout : Option Nat) :
    Deal hub.clock (hub.depot handler.depot).shelf (p.grip stale)
      ((p.doing hub handler h stale timeout p').bind (Doing.posting? handler.depot))
      (hub'.depot handler.depot).shelf (p'.grip stale) := by
  have hd : handler.depot < hub.depots.length := (ho.handlers h handler hh).2
  have hservice := ho.service handler.depot
  have hget : ∀ g, (hub.depot handler.depot).get stale.key hub.clock = .ok g →
      g = (hub.depot handler.depot).shelf.get stale.key hub.clock := by
    intro g hg
    rw [hservice.get] at hg
    exact (Except.ok.inj hg).symm
  -- a group that is read and not empty is the stored one
  have hstored : ∀ g, (hub.depot handler.depot).get stale.key hub.clock = .ok g →
      g.isEmpty = false → (hub.depot handler.depot).shelf.group? stale.key = some g := by
    intro g hg he
    rcases hgroup : (hub.depot handler.depot).shelf.group? stale.key with _ | stored
    · rw [hget g hg, Shelf.get_of_none hgroup] at he
      cases he
    · rw [hget g hg, Shelf.get_of_group? hgroup]
  cases hg
  case taken hlocks =>
    obtain ⟨hfree, owner, hshelf⟩ := Depot.shelf_gives (KeyLocks.gives_of_tryAcquireOwned? hlocks)
    rw [Hub.depot_setDepot_self hub _ hd, hshelf]
    exact .takes hfree
  case unread hr =>
    rw [hservice.get] at hr
    cases hr
  case gone g hr he =>
    refine .learns fun ht _ => ?_
    have hnone := ht.isEmpty_get stale.key hub.clock
    rw [← hget g hr, he] at hnone
    exact hnone.symm
  case changed g hr he _ => exact .learns fun _ _ => by simp [Sight.Fits, sight, hstored g hr he]
  case completes hun _ => exact .learns fun _ _ => hstored _ hun.read hun.filled
  case discards hun _ _ => exact .learns fun _ _ => hstored _ hun.read hun.filled
  case drops hun _ _ => exact .learns fun _ _ => hstored _ hun.read hun.filled
  case sending hw =>
    rw [(hp.2.goes hw).2.depot]
    exact .quiet
  case completing hw =>
    rw [(hp.2.goes hw).2.depot]
    exact .quiet
  case sent ha =>
    rw [ha.depot]
    exact .quiet
  case completed ha =>
    rw [ha.depot]
    exact .quiet
  case unsent => exact .learns fun _ hfits => by simp_all [Sight.Fits, sight]
  case broken => exact .learns fun _ hfits => by simp_all [Sight.Fits, sight]
  case removed g depot gone hr =>
    have hremoval := hr
    rw [hservice.remove] at hr
    cases hr
    rw [Hub.depot_setDepot_self hub _ hd, Depot.shelf_remove]
    simp only [doing, Depot.removal, hremoval, Option.bind_some, Doing.posting?, if_true]
    exact .removes
  case unremoved hr =>
    rw [hservice.remove] at hr
    cases hr
  case released =>
    rw [Hub.depot_setDepot_self hub _ hd, Depot.shelf_release]
    exact .frees
  all_goals exact .quiet

theorem elsewhere (hg : Goes hub handler h stale p hub' p') (hp : p.Orderly hub h)
    (timeout : Option Nat) {d : DepotId} (hne : handler.depot ≠ d) :
    hub'.depot d = hub.depot d
      ∧ (p.doing hub handler h stale timeout p').bind (Doing.posting? d) = none := by
  cases hg
  case sending hw => exact ⟨(hp.2.goes hw).2.depot d, rfl⟩
  case completing hw => exact ⟨(hp.2.goes hw).2.depot d, rfl⟩
  case sent ha => exact ⟨ha.depot d, rfl⟩
  case completed ha => exact ⟨ha.depot d, rfl⟩
  case removed hr =>
    exact ⟨Hub.depot_setDepot_ne hub _ hne, by simp [doing, Depot.removal, hr, Doing.posting?, hne]⟩
  case unremoved hr => exact ⟨rfl, by simp [doing, Depot.removal, hr]⟩
  all_goals
    first
    | exact ⟨rfl, rfl⟩
    | exact ⟨Hub.depot_setDepot_ne hub _ hne, rfl⟩

end Offer.Goes

namespace Pass.Goes

variable {hub hub' : Hub σ} {d : DepotId} {timeout : Nat} {p p' : Pass σ}

theorem deal (hg : Goes hub d timeout p hub' p') (hp : p.Orderly hub d) :
    Deal hub.clock (hub.depot d).shelf p.grip
      ((p.doing hub d timeout p').bind (Doing.posting? d)) (hub'.depot d).shelf p'.grip := by
  cases hg
  case claimed hlocks =>
    obtain ⟨hfree, owner, hshelf⟩ := Depot.shelf_gives (KeyLocks.gives_of_tryAcquire? hlocks)
    rw [Hub.depot_setDepot_self hub _ hp.1, hshelf]
    exact .takes hfree
  case swept =>
    rw [Hub.depot_setDepot_self hub _ hp.1, Depot.shelf_remove]
    simp only [doing, Option.bind_some, Doing.posting?, if_true]
    exact .removes
  case kept t g hu =>
    rw [Hub.depot_setDepot_self hub _ hp.1]
    refine .learns fun _ _ => ?_
    simp [Sight.Fits, sight, Store.contains, Depot.shelf]
  case freed =>
    rw [Hub.depot_setDepot_self hub _ hp.1, Depot.shelf_release]
    exact .frees
  case hooked hw =>
    rw [(hp.2.2.2.goes hw).2.depot]
    exact .quiet
  all_goals exact .quiet

theorem elsewhere (hg : Goes hub d timeout p hub' p') (hp : p.Orderly hub d) {other : DepotId}
    (hne : d ≠ other) :
    hub'.depot other = hub.depot other
      ∧ (p.doing hub d timeout p').bind (Doing.posting? other) = none := by
  cases hg
  case hooked hw => exact ⟨(hp.2.2.2.goes hw).2.depot other, rfl⟩
  all_goals
    first
    | exact ⟨rfl, rfl⟩
    | exact ⟨Hub.depot_setDepot_ne hub _ hne, by simp [doing, Doing.posting?, hne]⟩

end Pass.Goes

namespace Frame

variable {hub hub' : Hub σ} {f f' inner : Frame σ}

theorem deal_goes (ho : hub.Orderly) (hf : f.Orderly hub) (hs : f.step hub = .goes hub' f')
    (under : Option (Frame σ)) (d : DepotId) :
    Deal hub.clock (hub.depot d).shelf (f.grip hub d)
      ((f.doing hub under f').bind (Doing.posting? d)) (hub'.depot d).shelf (f'.grip hub' d) := by
  have hkeeps := (orderly_goes ho hf hs).1
  have hgrip : f'.grip hub' d = f'.grip hub d :=
    grip_congr fun h => by simp only [Hub.home?, hkeeps.handlers]
  rw [hgrip]
  cases f with
  | handling h p =>
    obtain ⟨handler, hh⟩ := Handling.handler_of_step hs
    obtain ⟨p', rfl, hg⟩ := Handling.goes_of_step hh hs
    simp only [grip_handling, doing, hh, Option.bind_some, Hub.home?_of_handler? hh,
      Option.some.injEq]
    by_cases hd : handler.depot = d
    · subst hd
      simpa using hg.deal ho hh hf
    · obtain ⟨hdepot, hnote⟩ := hg.elsewhere hf hd
      rw [hdepot, hnote, if_neg hd, if_neg hd]
      exact .quiet
  | offer h stale p =>
    obtain ⟨handler, hh⟩ := Offer.handler_of_step hs
    obtain ⟨p', rfl, hg⟩ := Offer.goes_of_step hh hs
    simp only [grip_offer, doing, hh, Option.bind_some, Hub.home?_of_handler? hh,
      Option.some.injEq]
    by_cases hd : handler.depot = d
    · subst hd
      simpa using hg.deal ho hh hf (under.bind timeout?)
    · obtain ⟨hdepot, hnote⟩ := hg.elsewhere hf (under.bind timeout?) hd
      rw [hdepot, hnote, if_neg hd, if_neg hd]
      exact .quiet
  | pass d' timeout p =>
    obtain ⟨p', rfl, hg⟩ := Pass.goes_of_step hs
    simp only [grip_pass, doing]
    by_cases hd : d' = d
    · subst hd
      simpa using hg.deal hf
    · obtain ⟨hdepot, hnote⟩ := hg.elsewhere hf hd
      rw [hdepot, hnote, if_neg hd, if_neg hd]
      exact .quiet
  | drop h p =>
    obtain ⟨rfl, rfl⟩ := Drop.goes_of_step hs
    exact .quiet

/-- Who calls goes on holding what it held, and the new call holds nothing. -/
theorem grip_calls (hs : f.step hub = .calls hub' f' inner) (d : DepotId) :
    hub' = hub ∧ f'.grip hub d = f.grip hub d ∧ inner.grip hub d = none := by
  have hscript : ∀ {α : Type} {s : Script σ α}, s.step hub = .calls inner →
      inner.grip hub d = none := by
    intro α s hcall
    rcases Script.calls_of_step hcall with ⟨id, m, rfl⟩ | ⟨d, timeout, rfl⟩
    · simp [grip_handling, Handling.grip, Handling.holds]
    · simp [grip_pass, Pass.grip, Pass.holds]
  cases f with
  | handling h p =>
    obtain ⟨rfl, rfl, key, g, work, -, hw⟩ := Handling.calls_of_step hs
    exact ⟨rfl, rfl, hscript hw⟩
  | offer h stale p =>
    obtain ⟨rfl, rfl, ⟨g, m, left, work, -, hw⟩ | ⟨g, work, -, hw⟩⟩ := Offer.calls_of_step hs <;>
      exact ⟨rfl, rfl, hscript hw⟩
  | pass d' timeout p =>
    obtain ⟨rfl, ⟨t, g, h, left, said, rfl, rfl, rfl⟩
      | ⟨t, g, who, left, said, work, -, rfl, hw⟩⟩ := Pass.calls_of_step hs
    · refine ⟨rfl, ?_, ?_⟩
      · simp [grip_pass, Pass.grip, Pass.holds]
      · simp [grip_offer, Offer.grip, Offer.isHolding]
    · exact ⟨rfl, rfl, hscript hw⟩
  | drop h p => exact (Drop.calls_of_step hs).elim

theorem deal_disown (ho : hub.Orderly) (h : HandlerId) (now : Instant) (d : DepotId)
    (x : Option (Key × Sight)) :
    Deal now (hub.depot d).shelf x none ((hub.disown h).depot d).shelf x := by
  rcases hh : hub.handler? h with _ | handler
  · rw [Hub.disown_of_handler?_none hh]
    exact .quiet
  · rw [Hub.disown_of_handler? hh]
    by_cases hd : handler.depot = d
    · subst hd
      rw [Hub.depot_setDepot_self hub _ (ho.handlers h handler hh).2]
      obtain ⟨g, hheld, hshelf⟩ := (hub.depot handler.depot).shelf_disown h
      rw [hshelf]
      exact .disowns hheld
    · rw [Hub.depot_setDepot_ne hub _ hd]
      exact .quiet

theorem deal_ends (ho : hub.Orderly) {r : Reply} (hs : f.step hub = .ends hub' r) (d : DepotId) :
    f.grip hub d = none
      ∧ Deal hub.clock (hub.depot d).shelf none none (hub'.depot d).shelf none := by
  cases f with
  | handling h p =>
    obtain ⟨hh, rfl⟩ | ⟨result, rfl, rfl, -⟩ | ⟨result, rfl, rfl, -⟩ := Handling.ends_of_step hs
    · exact ⟨by simp [grip_handling, Hub.home?, hh], .quiet⟩
    · exact ⟨by simp [grip_handling, Handling.grip, Handling.holds], .quiet⟩
    · exact ⟨by simp [grip_handling, Handling.grip, Handling.holds], deal_disown ho h _ d none⟩
  | offer h stale p =>
    obtain ⟨hh, rfl⟩ | ⟨rfl, rfl⟩ | ⟨outcome, rfl, rfl⟩ | ⟨outcome, rfl, rfl⟩ :=
      Offer.ends_of_step hs
    · exact ⟨by simp [grip_offer, Hub.home?, hh], .quiet⟩
    · exact ⟨by simp [grip_offer, Offer.grip, Offer.isHolding], .quiet⟩
    · exact ⟨by simp [grip_offer, Offer.grip, Offer.isHolding], .quiet⟩
    · exact ⟨by simp [grip_offer, Offer.grip, Offer.isHolding], deal_disown ho h _ d none⟩
  | pass d' timeout p =>
    obtain ⟨rfl, rfl | rfl⟩ | ⟨t, rfl, rfl⟩ := Pass.ends_of_step hs
    · exact ⟨by simp [grip_pass, Pass.grip, Pass.holds], .quiet⟩
    · exact ⟨by simp [grip_pass, Pass.grip, Pass.holds], .quiet⟩
    · refine ⟨by simp [grip_pass, Pass.grip, Pass.holds], ?_⟩
      -- the register of the depot is no part of its shelf
      have hshelf : ((hub.setDepot d' ((hub.depot d').prune t.detached)).depot d).shelf
          = (hub.depot d).shelf := by
        rcases Nat.lt_or_ge d' hub.depots.length with hlt | hge
        · rw [Hub.depot_setDepot hub d _ hlt]
          split_ifs with heq
          · rw [heq]
            rfl
          · rfl
        · rw [Hub.setDepot_of_le _ hge]
      rw [hshelf]
      exact .quiet
  | drop h p =>
    obtain rfl | rfl := Drop.ends_of_step hs
    · exact ⟨rfl, .quiet⟩
    · exact ⟨rfl, deal_disown ho h _ d none⟩

end Frame

def Note.posting? (d : DepotId) : Note → Option Entry
  | .came _ => none
  | .did _ x => x.posting? d

/-- The holds that the calls have on the shelf of a depot. -/
def grips (hub : Hub σ) (at_ : Place → Option (Frame σ)) (d : DepotId) (p : Place) :
    Option (Key × Sight) :=
  (at_ p).bind (Frame.grip hub d)

namespace Advance

variable {hub hub' : Hub σ} {at_ at' : Place → Option (Frame σ)} {notes : List Note}

theorem shelf_aside (ha : hub.Aside hub') (d : DepotId) :
    (hub'.depot d).shelf = (hub.depot d).shelf := by
  simp only [Depot.shelf, Shelf.mk.injEq]
  exact ⟨funext (ha.find? d), funext (ha.lock? d)⟩

theorem deal (ha : Advance hub at_ hub' at' notes) (ho : hub.Orderly)
    (hf : ∀ p f, at_ p = some f → f.Orderly hub) (d : DepotId) :
    ∃ p e x, Deal hub.clock (hub.depot d).shelf (grips hub at_ d p) e (hub'.depot d).shelf x
      ∧ grips hub' at' d = Function.update (grips hub at_ d) p x
      ∧ notes.filterMap (Note.posting? d) = e.toList := by
  have hgrows := ha.grows ho hf
  -- the holds of the calls are the same in the new hub
  have hsame : ∀ q f, at_ q = some f → f.grip hub' d = f.grip hub d :=
    fun q f hq => (hf q f hq).grip_grows hgrows
  have hgrips : ∀ q, grips hub' at_ d q = grips hub at_ d q := by
    intro q
    simp only [grips]
    rcases hq : at_ q with _ | f
    · rfl
    · exact hsame q f hq
  cases ha with
  | aside h =>
    refine ⟨⟨0, 0⟩, none, grips hub at_ d ⟨0, 0⟩, ?_, ?_, rfl⟩
    · rw [shelf_aside h]
      exact .quiet
    · rw [Function.update_eq_self]
      exact funext hgrips
  | @starts p a hp =>
    refine ⟨p, none, none, ?_, ?_, rfl⟩
    · simp only [grips, hp, Option.bind_none]
      exact .quiet
    · funext q
      simp only [grips, Function.update_apply]
      split_ifs
      · cases a with
        | handle h m => simp [Activity.frame, Frame.grip_handling, Handling.grip, Handling.holds]
        | expire d' timeout => simp [Activity.frame, Frame.grip_pass, Pass.grip, Pass.holds]
        | drop h => rfl
      · rfl
  | @goes p f hub' f' hp hs =>
    have hdeal := Frame.deal_goes ho (hf p f hp) hs (p.below?.bind at_) d
    refine ⟨p, _, _, by simpa only [grips, hp, Option.bind_some] using hdeal, ?_, ?_⟩
    · funext q
      rw [Function.update_apply]
      split_ifs with heq
      · simp [grips, heq]
      · rw [← hgrips q]
        simp [grips, Function.update_of_ne heq]
    · rcases f.doing hub (p.below?.bind at_) f' with _ | x
      · rfl
      · simp only [Option.map_some, Option.toList_some, List.filterMap_cons, Note.posting?,
          List.filterMap_nil, Option.bind_some]
        cases x.posting? d <;> rfl
  | @calls p f hub' f' inner hp hs hab =>
    obtain ⟨rfl, hcaller, hinner⟩ := Frame.grip_calls hs d
    refine ⟨p, none, grips hub' at_ d p, .quiet, ?_, rfl⟩
    rw [Function.update_eq_self]
    funext q
    simp only [grips, Function.update_apply]
    split_ifs with h₁ h₂
    · rw [h₁, hab]
      exact hinner
    · rw [h₂, hp]
      exact hcaller
    · rfl
  | @ends p f hub' r hp hs =>
    obtain ⟨hnone, hdeal⟩ := Frame.deal_ends ho hs d
    refine ⟨p, none, none, by simpa only [grips, hp, Option.bind_some, hnone] using hdeal, ?_, rfl⟩
    funext q
    rw [Function.update_apply]
    split_ifs with heq
    · simp [grips, heq]
    · rw [← hgrips q]
      simp [grips, Function.update_of_ne heq]
  | @returns p f g hub' r hp hs hg =>
    obtain ⟨hnone, hdeal⟩ := Frame.deal_ends ho hs d
    refine ⟨p.above, none, none, by simpa only [grips, hp, Option.bind_some, hnone] using hdeal,
      ?_, rfl⟩
    funext q
    rw [Function.update_apply]
    split_ifs with heq
    · simp [grips, heq, Function.update_of_ne p.above_ne]
    · rw [← hgrips q]
      simp only [grips, Function.update_apply, if_neg heq]
      split_ifs with hq
      · simp only [hq, hg, Option.bind_some, Frame.grip_resume]
      · rfl

theorem sound (ha : Advance hub at_ hub' at' notes) (ho : hub.Orderly)
    (hf : ∀ p f, at_ p = some f → f.Orderly hub) (d : DepotId)
    (hs : Sound (hub.depot d).shelf (grips hub at_ d)) :
    Sound (hub'.depot d).shelf (grips hub' at' d) := by
  obtain ⟨p, e, x, hdeal, hgrips, -⟩ := ha.deal ho hf d
  rw [hgrips]
  exact hs.deal rfl hdeal

end Advance

theorem sound_initial (outside : σ) (idOf : Nat → MessageId) (d : DepotId) :
    Sound ((Machine.initial outside idOf).hub.depot d).shelf
      (grips (Machine.initial outside idOf).hub (Machine.initial outside idOf).frameAt d) :=
  Sound.empty (fun _ => rfl) fun _ => rfl

/-- In every lawful run no key is held twice, and what a holder knows of its group is true. -/
theorem Machine.sound_after {s : Machine σ} (ho : s.Orderly) (d : DepotId)
    (hs : Sound (s.hub.depot d).shelf (grips s.hub s.frameAt d)) (moves : List (Move σ))
    (hl : s.Lawful moves) :
    Sound ((s.after moves).hub.depot d).shelf
      (grips (s.after moves).hub (s.after moves).frameAt d) := by
  exact Machine.along_run (P := fun hub at_ _ => Sound (hub.depot d).shelf (grips hub at_ d))
    (fun ho hf ha hs => ha.sound ho hf d hs) ho hs moves hl

end Collate
