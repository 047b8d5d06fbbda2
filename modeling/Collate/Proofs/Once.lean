import Collate.Proofs.Expiry
import Collate.Proofs.Resting
import Mathlib.Data.List.Duplicate

/-!
# Groups are handed over once

A call that completes a group owes its removal: it keeps the key and the group until it removes the
group, or a panic of the processor breaks it off (`Owed.advance`). So what is handed over a second
time was either added a second time, or the first call panicked with it
(`Machine.handed_over_again_after_panic`). The second does happen: the unwinding call lets go of the
key and leaves the group where it is, and the next message of the key completes it again
(`fragile_hands_over_again`).
-/

namespace Collate

variable {σ : Type}

/-! ## Additions that are told apart -/

namespace Ledger

variable {l : Ledger} {key : Key} {m : Message}

/-- All messages that were added, under whatever key. -/
def arrived (l : Ledger) : List Message :=
  l.flatMap fun
    | .put _ m _ => [m]
    | .took _ _ => []

theorem arrived_append (a b : Ledger) : arrived (a ++ b) = arrived a ++ arrived b :=
  List.flatMap_append

theorem added_sublist_arrived (key : Key) (l : Ledger) : (added key l).Sublist (arrived l) := by
  induction l with
  | nil => exact .refl []
  | cons e l ih =>
    rw [← List.singleton_append, added_append, arrived_append]
    refine .append ?_ ih
    cases e with
    | put k m t =>
      by_cases hk : k = key
      · simp [added, arrived, hk]
      · simp [added, hk]
    | took k g => simp [added, arrived]

/-- A message that went out with a group and is stored again was added again. -/
theorem duplicate_of_taken (h : l.Fair) {messages : List Message} (ht : messages ∈ taken key l)
    {g : Group} (hg : group? key l = some g) (hm : m ∈ messages) (hm' : m ∈ g.messages) :
    (arrived l).Duplicate m := by
  refine List.Duplicate.mono_sublist ?_ (added_sublist_arrived key l)
  rw [conservation h key, hg, List.duplicate_iff_sublist]
  exact .append (List.singleton_sublist.2 (List.mem_flatten.2 ⟨messages, ht, hm⟩))
    (List.singleton_sublist.2 hm')

theorem duplicate_of_keys {key' : Key} (hne : key ≠ key') (hm : m ∈ added key l)
    (hm' : m ∈ added key' l) : (arrived l).Duplicate m := by
  induction l with
  | nil => cases hm
  | cons e l ih =>
    cases e with
    | put k m₀ t =>
      have hadd : ∀ key, m ∈ added key (.put k m₀ t :: l) → k = key ∧ m = m₀ ∨ m ∈ added key l := by
        intro key hmem
        simp only [added, List.flatMap_cons, List.mem_append] at hmem ⊢
        refine hmem.imp_left fun hmem => ?_
        split_ifs at hmem with hk
        · exact ⟨hk, List.mem_singleton.1 hmem⟩
        · cases hmem
      have hcons : arrived (.put k m₀ t :: l) = m₀ :: arrived l := rfl
      rw [hcons]
      obtain ⟨rfl, rfl⟩ | hrest := hadd key hm
      · obtain ⟨rfl, -⟩ | hrest' := hadd key' hm'
        · exact absurd rfl hne
        · exact ((added_sublist_arrived key' l).subset hrest').duplicate_cons_self
      · obtain ⟨rfl, rfl⟩ | hrest' := hadd key' hm'
        · exact ((added_sublist_arrived key l).subset hrest).duplicate_cons_self
        · exact (ih hrest hrest').duplicate_cons m₀
    | took k g => exact ih hm hm'

end Ledger

/-! ## What a completion owes -/

namespace Frame

variable {hub hub' : Hub σ} {f f' inner : Frame σ} {d : DepotId} {g : Group}

/-- A call that completed a group and has yet to remove it. -/
def Owes (g : Group) : Frame σ → Prop
  | .handling _ (.processing _ g' _) => g' = g
  | .handling _ (.removing _ g' _) => g' = g
  | .offer _ _ (.completing g' _) => g' = g
  | .offer _ _ (.removing g') => g' = g
  | _ => False

theorem Owes.resume (h : f.Owes g) (r : Reply) : (f.resume r).Owes g := by
  cases f with
  | handling id x => cases x <;> exact h
  | offer id stale x => cases x <;> exact h
  | _ => cases h

theorem Owes.calls (h : f.Owes g) (hs : f.step hub = .calls hub' f' inner) : f'.Owes g := by
  cases f with
  | handling id x =>
    obtain ⟨-, rfl, -⟩ := Handling.calls_of_step hs
    exact h
  | offer id stale x =>
    obtain ⟨-, rfl, -⟩ := Offer.calls_of_step hs
    exact h
  | _ => cases h

/-- Who owes the removal of a group goes on to, unless a panic breaks it off or it removes the
group. -/
theorem Owes.goes (h : f.Owes g) (ho : hub.Orderly) (hf : f.Orderly hub) (hr : f.Right hub)
    (hgrip : f.grip hub d = some (g.key, .seen g)) (hs : f.step hub = .goes hub' f')
    (under : Option (Frame σ)) :
    f.doing hub under f' = some .panicked
      ∨ (∃ t by_, f.doing hub under f' = some (.removed d g.key (some g) t by_))
      ∨ f'.Owes g ∧ f'.grip hub' d = some (g.key, .seen g) := by
  have hkeeps := (orderly_goes ho hf hs).1
  have hstored : (hub.depot d).store.find? g.key = some g := hr.fits d g.key _ hgrip
  cases f with
  | handling id x =>
    obtain ⟨handler, hh⟩ := Handling.handler_of_step hs
    obtain ⟨x', rfl, hgoes⟩ := Handling.goes_of_step hh hs
    rw [grip_handling] at hgrip
    split_ifs at hgrip with hhome
    obtain rfl : handler.depot = d := Option.some.inj ((Hub.home?_of_handler? hh).symm.trans hhome)
    simp only [doing, hh, Option.bind_some]
    rw [grip_handling, hkeeps.home?, if_pos hhome]
    cases hgoes
    case processing => exact .inr (.inr ⟨h, hgrip⟩)
    case processed => exact .inr (.inr ⟨h, hgrip⟩)
    case broken => exact .inl rfl
    case removed key g' result depot gone hremove =>
      obtain rfl : g' = g := h
      obtain ⟨rfl, -⟩ : key = g'.key ∧ True := by
        simpa [Handling.grip, Handling.holds, Handling.sight] using hgrip
      refine .inr (.inl ⟨hub.clock, .handling, ?_⟩)
      have hgone := hremove
      rw [(ho.service handler.depot).remove, hstored] at hgone
      cases hgone
      simp only [Handling.doing, Depot.removal, hremove]
    case unremoved hremove =>
      rw [(ho.service handler.depot).remove] at hremove
      cases hremove
    all_goals cases h
  | offer id stale x =>
    obtain ⟨handler, hh⟩ := Offer.handler_of_step hs
    obtain ⟨x', rfl, hgoes⟩ := Offer.goes_of_step hh hs
    rw [grip_offer] at hgrip
    split_ifs at hgrip with hhome
    obtain rfl : handler.depot = d := Option.some.inj ((Hub.home?_of_handler? hh).symm.trans hhome)
    simp only [doing, hh, Option.bind_some]
    rw [grip_offer, hkeeps.home?, if_pos hhome]
    cases hgoes
    case completing => exact .inr (.inr ⟨h, hgrip⟩)
    case completed => exact .inr (.inr ⟨h, hgrip⟩)
    case broken => exact .inl rfl
    case removed g' depot gone hremove =>
      obtain rfl : g' = g := h
      have hkey : stale.key = g'.key := by
        simpa [Offer.grip, Offer.isHolding, Offer.sight] using hgrip
      refine .inr (.inl ⟨hub.clock, .offer (under.bind timeout?), ?_⟩)
      rw [hkey] at hremove
      have hgone := hremove
      rw [(ho.service handler.depot).remove, hstored] at hgone
      cases hgone
      simp only [Offer.doing, hkey, Depot.removal, hremove]
    case unremoved hremove =>
      rw [(ho.service handler.depot).remove] at hremove
      cases hremove
    all_goals cases h
  | _ => cases h

/-- Who completes a group sees it stored, holds its key and owed nothing before. -/
theorem completes_of_doing (ho : hub.Orderly) (hf : f.Orderly hub) (hr : f.Right hub)
    (hs : f.step hub = .goes hub' f') {under : Option (Frame σ)} {h : HandlerId} {called : Bool}
    (hx : f.doing hub under f' = some (.completed h g called)) :
    ∃ d, hub.home? h = some d ∧ (hub.depot d).shelf.group? g.key = some g
      ∧ (∃ x, f.grip hub d = some (g.key, x)) ∧ (∀ g', ¬ f.Owes g')
      ∧ f'.Owes g ∧ f'.grip hub' d = some (g.key, .seen g) := by
  have hkeeps := (orderly_goes ho hf hs).1
  cases f with
  | handling id x =>
    obtain ⟨handler, hh⟩ := Handling.handler_of_step hs
    obtain ⟨x', rfl, hgoes⟩ := Handling.goes_of_step hh hs
    have hhome := Hub.home?_of_handler? hh
    simp only [doing, hh, Option.bind_some] at hx
    simp only [grip_handling, hkeeps.home?]
    cases hgoes
    case complete key g' hrelease =>
      cases hx
      have hgrip : (handling h (.deciding key g)).grip hub handler.depot
          = some (key, .seen g) := by
        rw [grip_handling, if_pos hhome]
        rfl
      have hstored := hr.fits handler.depot key _ hgrip
      obtain rfl : g.key = key := (hr.tidy handler.depot key g hstored).1
      refine ⟨handler.depot, hhome, hstored, ⟨.seen g, if_pos hhome⟩, fun _ howes => howes, rfl, ?_⟩
      rw [if_pos hhome]
      rfl
    case removed hremove => simp [Handling.doing, Depot.removal, hremove] at hx
    case unremoved hremove => simp [Handling.doing, Depot.removal, hremove] at hx
    all_goals cases hx
  | offer id stale x =>
    obtain ⟨handler, hh⟩ := Offer.handler_of_step hs
    obtain ⟨x', rfl, hgoes⟩ := Offer.goes_of_step hh hs
    have hhome := Hub.home?_of_handler? hh
    simp only [doing, hh, Option.bind_some] at hx
    simp only [grip_offer, hkeeps.home?]
    cases hgoes
    case completes g' hun haction =>
      cases hx
      have hstored := Offer.Goes.stored_of_unmoved ho hun
      have hkey : g.key = stale.key := (hr.tidy handler.depot stale.key g hstored).1
      refine ⟨handler.depot, hhome, hkey ▸ hstored, ⟨.blank, ?_⟩, fun _ howes => howes, rfl, ?_⟩ <;>
        rw [if_pos hhome, hkey] <;> rfl
    case removed hremove => simp [Offer.doing, Depot.removal, hremove] at hx
    case unremoved hremove => simp [Offer.doing, Depot.removal, hremove] at hx
    all_goals cases hx
  | pass d' timeout x =>
    obtain ⟨x', rfl, hgoes⟩ := Pass.goes_of_step hs
    simp only [doing] at hx
    cases hgoes <;> cases hx
  | drop h' x =>
    obtain ⟨rfl, rfl⟩ := Drop.goes_of_step hs
    cases hx

end Frame

/-- What is left of the completion of a group by the call at a place, after what has been noted
since: the call panicked, it removed the group, or it still has it in its grip. -/
def Owed (hub : Hub σ) (at_ : Place → Option (Frame σ)) (d : DepotId) (p : Place) (g : Group)
    (since : List Note) : Prop :=
  .did p .panicked ∈ since ∨ g.messages ∈ (ledger d since).taken g.key
    ∨ ∃ f, at_ p = some f ∧ f.Owes g ∧ f.grip hub d = some (g.key, .seen g)

theorem Owed.advance {hub hub' : Hub σ} {at_ at' : Place → Option (Frame σ)} {d : DepotId}
    {p : Place} {g : Group} {since new : List Note} (h : Owed hub at_ d p g since)
    (ho : hub.Orderly) (hf : ∀ p f, at_ p = some f → f.Orderly hub)
    (hs : ∀ d, Sound (hub.depot d).shelf (grips hub at_ d)) (ha : Advance hub at_ hub' at' new) :
    Owed hub' at' d p g (since ++ new) := by
  obtain hpanic | htaken | ⟨f, hat, howes, hgrip⟩ := h
  · exact .inl (List.mem_append_left _ hpanic)
  · refine .inr (.inl ?_)
    rw [ledger_append, Ledger.taken_append]
    exact List.mem_append_left _ htaken
  have hgrows := ha.grows ho hf
  have hsame : f.grip hub' d = some (g.key, .seen g) := ((hf p f hat).grip_grows hgrows).trans hgrip
  have hstays : at' p = some f → Owed hub' at' d p g (since ++ new) :=
    fun hp => .inr (.inr ⟨f, hp, howes, hsame⟩)
  cases ha with
  | aside h => exact hstays hat
  | @starts q a hq =>
    refine hstays ?_
    rw [Function.update_of_ne, hat]
    rintro rfl
    rw [hat] at hq
    cases hq
  | @goes q f₀ hub' f' hq hstep =>
    by_cases hp : p = q
    · subst hp
      obtain rfl : f = f₀ := Option.some.inj (hat.symm.trans hq)
      obtain hpanic | ⟨t, by_, hremoved⟩ | ⟨howes', hgrip'⟩ :=
        howes.goes ho (hf p f hat) (Sound.right hs hat) hgrip hstep (p.below?.bind at_)
      · refine .inl (List.mem_append_right _ ?_)
        rw [hpanic]
        exact List.mem_singleton_self _
      · refine .inr (.inl ?_)
        rw [hremoved, ledger_append, Ledger.taken_append]
        refine List.mem_append_right _ ?_
        simp [ledger, Note.posting?, Doing.posting?, Ledger.taken]
      · exact .inr (.inr ⟨f', Function.update_self .., howes', hgrip'⟩)
    · exact hstays (by rw [Function.update_of_ne hp, hat])
  | @calls q f₀ hub' f' inner hq hstep hab =>
    have hpa : p ≠ q.above := by
      rintro rfl
      rw [hat] at hab
      cases hab
    by_cases hp : p = q
    · subst hp
      obtain rfl : f = f₀ := Option.some.inj (hat.symm.trans hq)
      obtain ⟨rfl, hcaller, -⟩ := Frame.grip_calls hstep d
      refine .inr (.inr ⟨f', ?_, howes.calls hstep, hcaller.trans hgrip⟩)
      rw [Function.update_of_ne hpa, Function.update_self]
    · exact hstays (by rw [Function.update_of_ne hpa, Function.update_of_ne hp, hat])
  | @ends q f₀ hub' r hq hstep =>
    refine hstays ?_
    rw [Function.update_of_ne, hat]
    rintro rfl
    obtain rfl : f = f₀ := Option.some.inj (hat.symm.trans hq)
    rw [(Frame.deal_ends ho hstep d).1] at hgrip
    cases hgrip
  | @returns q f₀ f₁ hub' r hq hstep hg =>
    have hpa : p ≠ q.above := by
      rintro rfl
      obtain rfl : f = f₀ := Option.some.inj (hat.symm.trans hq)
      rw [(Frame.deal_ends ho hstep d).1] at hgrip
      cases hgrip
    by_cases hp : p = q
    · subst hp
      obtain rfl : f = f₁ := Option.some.inj (hat.symm.trans hg)
      refine .inr (.inr ⟨f.resume r, Function.update_self .., howes.resume r, ?_⟩)
      rw [Frame.grip_resume, hsame]
    · exact hstays (by rw [Function.update_of_ne hp, Function.update_of_ne hpa, hat])

/-! ## Runs -/

/-- Every completion so far has been paid for or is still owed, and what was handed over twice was
added twice or came with a panic. -/
structure Honoured (hub : Hub σ) (at_ : Place → Option (Frame σ)) (notes : List Note) : Prop where
  sound : ∀ d, Sound (hub.depot d).shelf (grips hub at_ d)
  kept : ∀ d, Kept hub.clock (hub.depot d).shelf (ledger d notes)
  owed : ∀ before p h g called since,
    notes = before ++ Note.did p (.completed h g called) :: since →
    ∃ d, hub.home? h = some d ∧ (ledger d before).group? g.key = some g
      ∧ Owed hub at_ d p g since
  once : ∀ before p h g called since q h' g' called' rest,
    notes = before ++ Note.did p (.completed h g called)
      :: (since ++ Note.did q (.completed h' g' called') :: rest) →
    hub.home? h = hub.home? h' → ∀ m ∈ g.messages, m ∈ g'.messages →
    .did p .panicked ∈ since
      ∨ ∃ d, hub.home? h = some d ∧ (ledger d notes).arrived.Duplicate m

/-- What a note of a doing tells of the move that made it. -/
theorem Advance.of_did {hub hub' : Hub σ} {at_ at' : Place → Option (Frame σ)} {p : Place}
    {x : Doing} (ha : Advance hub at_ hub' at' [.did p x]) :
    ∃ f f', at_ p = some f ∧ f.step hub = .goes hub' f'
      ∧ f.doing hub (p.below?.bind at_) f' = some x ∧ at' = Function.update at_ p (some f') := by
  generalize hnew : [Note.did p x] = new at ha
  cases ha with
  | starts a hq => cases hnew
  | calls hq hstep hab => cases hnew
  | @goes q f hub' f' hq hstep =>
    rcases hx : f.doing hub (q.below?.bind at_) f' with _ | y <;> rw [hx] at hnew
    · cases hnew
    · cases hnew
      exact ⟨f, f', hq, hstep, hx, rfl⟩
  | _ => cases hnew

theorem Ledger.mem_arrived_of_group? {l : Ledger} (hf : l.Fair) {key : Key} {g : Group}
    (hg : l.group? key = some g) {m : Message} (hm : m ∈ g.messages) : m ∈ l.added key := by
  rw [conservation hf key, hg]
  exact List.mem_append_right _ hm

namespace Honoured

variable {hub hub' : Hub σ} {at_ at' : Place → Option (Frame σ)} {notes new : List Note}

/-- A second group with a message of the first: the message was added again, or the call that had
completed the first panicked. -/
theorem again (hh : Honoured hub at_ notes) (ho : hub.Orderly)
    (hf : ∀ p f, at_ p = some f → f.Orderly hub) {q : Place} {h' : HandlerId} {g' : Group}
    {called' : Bool} (ha : Advance hub at_ hub' at' [.did q (.completed h' g' called')])
    {before since : List Note} {p : Place} {h : HandlerId} {g : Group} {called : Bool}
    (hnotes : notes = before ++ Note.did p (.completed h g called) :: since)
    (hhome : hub.home? h = hub.home? h') {m : Message} (hm : m ∈ g.messages)
    (hm' : m ∈ g'.messages) :
    .did p .panicked ∈ since
      ∨ ∃ d, hub.home? h = some d ∧ (ledger d notes).arrived.Duplicate m := by
  obtain ⟨d, hd, hbefore, howed⟩ := hh.owed before p h g called since hnotes
  obtain ⟨f, f', hq, hstep, hx, -⟩ := ha.of_did
  obtain ⟨d', hd', hstored, ⟨x, hgrip⟩, howes, -, -⟩ :=
    Frame.completes_of_doing ho (hf q f hq) (Sound.right hh.sound hq) hstep hx
  obtain rfl : d = d' := Option.some.inj (hd.symm.trans (hhome.trans hd'))
  have hfair := (hh.kept d).fair
  have hnow : (ledger d notes).group? g'.key = some g' := (hh.kept d).stored g'.key ▸ hstored
  have hsplit : ledger d notes
      = ledger d before ++ ledger d (.did p (.completed h g called) :: since) := by
    rw [hnotes, ledger_append]
  have hfair' := (hsplit ▸ hfair).left
  by_cases hkey : g.key = g'.key
  · obtain hpanic | htaken | ⟨f₀, hp, howes₀, hgrip₀⟩ := howed
    · exact .inl hpanic
    · refine .inr ⟨d, hd, Ledger.duplicate_of_taken hfair ?_ (hkey ▸ hnow) hm hm'⟩
      rw [hsplit, Ledger.taken_append]
      exact List.mem_append_right _ htaken
    · -- both calls hold the key, so they are one, which still owes its first group
      obtain rfl : p = q := (hh.sound d).apart p q g.key (.seen g) x
        (by simp only [grips, hp, Option.bind_some, hgrip₀])
        (by simp only [grips, hq, Option.bind_some, hgrip, hkey])
      obtain rfl : f₀ = f := Option.some.inj (hp.symm.trans hq)
      exact absurd howes₀ (howes g)
  · refine .inr ⟨d, hd, Ledger.duplicate_of_keys hkey ?_ ?_⟩
    · rw [hsplit, Ledger.added_append]
      exact List.mem_append_left _ (Ledger.mem_arrived_of_group? hfair' hbefore hm)
    · exact Ledger.mem_arrived_of_group? hfair hnow hm'

theorem advance (ho : hub.Orderly) (hf : ∀ p f, at_ p = some f → f.Orderly hub)
    (ha : Advance hub at_ hub' at' new) (hh : Honoured hub at_ notes) :
    Honoured hub' at' (notes ++ new) := by
  have hgrows := ha.grows ho hf
  have hkept := fun d => ha.kept ho hf (hh.kept d)
  refine ⟨fun d => ha.sound ho hf d (hh.sound d), hkept, ?_, ?_⟩
  · intro before p h g called since hsplit
    -- a completion that was noted before is owed on
    have hold : ∀ since', notes = before ++ Note.did p (.completed h g called) :: since' →
        since = since' ++ new → ∃ d, hub'.home? h = some d
          ∧ (ledger d before).group? g.key = some g ∧ Owed hub' at' d p g since := by
      rintro since' hnotes rfl
      obtain ⟨d, hd, hbefore, howed⟩ := hh.owed before p h g called since' hnotes
      exact ⟨d, hgrows.home? hd, hbefore, howed.advance ho hf hh.sound ha⟩
    rcases ha.new_cases with rfl | ⟨note, rfl, -⟩
    · rw [List.append_nil] at hsplit
      exact hold since hsplit (List.append_nil since).symm
    · obtain ⟨rfl, hlast⟩ | ⟨since', hnotes⟩ := snoc_eq_append_cons hsplit
      · subst hlast
        obtain rfl : since = [] := by simpa using hsplit
        obtain ⟨f, f', hp, hstep, hx, rfl⟩ := ha.of_did
        obtain ⟨d, hd, hstored, -, -, howes, hgrip⟩ :=
          Frame.completes_of_doing ho (hf p f hp) (Sound.right hh.sound hp) hstep hx
        refine ⟨d, hgrows.home? hd, (hh.kept d).stored g.key ▸ hstored, ?_⟩
        exact .inr (.inr ⟨f', Function.update_self .., howes, hgrip⟩)
      · refine hold since' hnotes ?_
        rw [hnotes, List.append_assoc, List.cons_append] at hsplit
        exact (List.cons.inj (List.append_cancel_left hsplit)).2.symm
  · intro before p h g called since q h' g' called' rest hsplit hhome m hm hm'
    have hlonger : ∀ d, (ledger d notes).arrived.Duplicate m →
        (ledger d (notes ++ new)).arrived.Duplicate m := by
      intro d hdup
      rw [ledger_append, Ledger.arrived_append]
      exact hdup.mono_sublist (List.sublist_append_left _ _)
    -- both handlers were there before the move
    have hback : ∀ since', notes = before ++ Note.did p (.completed h g called) :: since' →
        ∀ d', hub.home? h' = some d' → hub.home? h = hub.home? h' := by
      intro since' hnotes d' hd'
      obtain ⟨d, hd, -⟩ := hh.owed before p h g called since' hnotes
      rw [hgrows.home? hd, hgrows.home? hd'] at hhome
      rw [hd, hd', hhome]
    have hforth : ∀ {d}, hub.home? h = some d ∧ (ledger d notes).arrived.Duplicate m →
        ∃ d, hub'.home? h = some d ∧ (ledger d (notes ++ new)).arrived.Duplicate m :=
      fun ⟨hd, hdup⟩ => ⟨_, hgrows.home? hd, hlonger _ hdup⟩
    have hold : ∀ rest', notes = before ++ Note.did p (.completed h g called)
          :: (since ++ Note.did q (.completed h' g' called') :: rest') →
        .did p .panicked ∈ since
          ∨ ∃ d, hub'.home? h = some d ∧ (ledger d (notes ++ new)).arrived.Duplicate m := by
      intro rest' hnotes
      obtain ⟨d', hd', -⟩ := hh.owed (before ++ Note.did p (.completed h g called) :: since) q h' g'
        called' rest' (by rw [hnotes, List.append_assoc, List.cons_append])
      refine (hh.once before p h g called since q h' g' called' rest' hnotes
        (hback _ hnotes d' hd') m hm hm').imp_right fun ⟨d, hd⟩ => hforth hd
    rcases ha.new_cases with rfl | ⟨note, rfl, -⟩
    · rw [List.append_nil] at hsplit
      exact hold rest hsplit
    · have hassoc : notes ++ [note] = (before ++ Note.did p (.completed h g called) :: since)
          ++ Note.did q (.completed h' g' called') :: rest := by
        rw [hsplit, List.append_assoc, List.cons_append]
      obtain ⟨hnotes, hlast⟩ | ⟨rest', hnotes⟩ := snoc_eq_append_cons hassoc
      · subst hlast
        obtain ⟨f, f', hq, hstep, hx, -⟩ := ha.of_did
        obtain ⟨d', hd', -⟩ :=
          Frame.completes_of_doing ho (hf q f hq) (Sound.right hh.sound hq) hstep hx
        exact (hh.again ho hf ha hnotes.symm (hback _ hnotes.symm d' hd') hm hm').imp_right
          fun ⟨d, hd⟩ => hforth hd
      · refine hold rest' ?_
        rw [hnotes, List.append_assoc, List.cons_append]

end Honoured

namespace Machine

theorem honoured_initial (outside : σ) (idOf : Nat → MessageId) :
    Honoured (initial outside idOf).hub (initial outside idOf).frameAt [] where
  sound := sound_initial outside idOf
  kept d := Kept.start _ (bare_initial outside idOf d)
  owed before p h g called since hnotes := by simp at hnotes
  once before p h g called since q h' g' called' rest hnotes := by simp at hnotes

/-- In every lawful run, a message that was added once to a depot is in two groups that its handlers
completed only if the call that completed the first one panicked with it before the second was
completed. -/
theorem handed_over_again_after_panic {outside : σ} {idOf : Nat → MessageId}
    {moves : List (Move σ)} (hl : (initial outside idOf).Lawful moves)
    {before since rest : List Note} {p q : Place} {h h' : HandlerId} {g g' : Group}
    {called called' : Bool} {d : DepotId} {m : Message}
    (hnotes : (initial outside idOf).history moves
      = before ++ Note.did p (.completed h g called)
        :: (since ++ Note.did q (.completed h' g' called') :: rest))
    (hh : ((initial outside idOf).after moves).hub.home? h = some d)
    (hh' : ((initial outside idOf).after moves).hub.home? h' = some d)
    (hm : m ∈ g.messages) (hm' : m ∈ g'.messages)
    (honce : ¬ (ledger d ((initial outside idOf).history moves)).arrived.Duplicate m) :
    .did p .panicked ∈ since := by
  have hhonoured : Honoured ((initial outside idOf).after moves).hub
      ((initial outside idOf).after moves).frameAt ((initial outside idOf).history moves) :=
    along_run (P := Honoured) Honoured.advance (orderly_initial outside idOf)
      (honoured_initial outside idOf) moves hl
  obtain hpanic | ⟨d', hd', hdup⟩ := hhonoured.once before p h g called since q h' g' called' rest
    hnotes (hh.trans hh'.symm) m hm hm'
  · exact hpanic
  · obtain rfl : d = d' := Option.some.inj (hh.symm.trans hd')
    exact absurd hdup honce

end Machine

/-! ## A processor that panics -/

/-- Two messages make a group, and the processor panics with each. -/
def fragile : Handler Unit :=
  { pairing with processor := fun _ _ => .panic, output := some ⟨fun _ => .done (.ok ())⟩ }

theorem discreet_fragile : fragile.Discreet where
  process g := .panic
  discard c hc := by cases hc

/-- Three messages of one kind, one after another; the last two meet the panic. -/
def fragileTurns : List (Event Unit) :=
  .start (.handle 0 (plain "first")) :: List.replicate 6 (Event.step 0)
    ++ Event.start (.handle 0 (plain "second")) :: List.replicate 7 (Event.step 1)
    ++ Event.start (.handle 0 (plain "third")) :: List.replicate 7 (Event.step 2)

def fragileRun : List (Move Unit) :=
  .openDepot none :: .event (.build fragile) :: fragileTurns.map .event

def fragileNotes : List Note := (Machine.initial () fun _ => ⟨""⟩).history fragileRun

theorem lawful_fragileRun : (Machine.initial () fun _ => ⟨""⟩).Lawful fragileRun := by
  refine ⟨trivial, ⟨discreet_fragile, Nat.zero_lt_one⟩, Machine.lawful_events _ _ ?_⟩
  rintro e he handler rfl
  simp [fragileTurns] at he

theorem fragileNotes_eq : fragileNotes = fragileNotes.take 6
    ++ Note.did ⟨1, 0⟩ (.completed 0 ⟨⟨"pair"⟩, [plain "first", plain "second"], 0⟩ true)
    :: ((fragileNotes.drop 7).take 4
      ++ Note.did ⟨2, 0⟩
        (.completed 0 ⟨⟨"pair"⟩, [plain "first", plain "second", plain "third"], 0⟩ true)
      :: fragileNotes.drop 12) := rfl

theorem not_duplicate_fragileNotes (m : Message) :
    ¬ (ledger 0 fragileNotes).arrived.Duplicate m := by
  have hids : ((ledger 0 fragileNotes).arrived.map fun m => m.id.text).Nodup := by
    have hmap : (ledger 0 fragileNotes).arrived.map (fun m => m.id.text)
        = ["first", "second", "third"] := rfl
    rw [hmap]
    decide
  exact List.nodup_iff_forall_not_duplicate.1 hids.of_map m

/-- The first panic strikes before the first message is handed over again. -/
theorem fragile_panics_between :
    ¬ (ledger 0 fragileNotes).arrived.Duplicate (plain "first")
      ∧ .did ⟨1, 0⟩ .panicked ∈ (fragileNotes.drop 7).take 4 := by
  refine ⟨not_duplicate_fragileNotes _, ?_⟩
  exact Machine.handed_over_again_after_panic lawful_fragileRun fragileNotes_eq rfl rfl
    (m := plain "first") List.mem_cons_self List.mem_cons_self (not_duplicate_fragileNotes _)

/-- A message that was added once is handed to the processor twice. -/
theorem fragile_hands_over_again : ∃ before since rest p q g g' m,
    (Machine.initial () fun _ => ⟨""⟩).Lawful fragileRun
      ∧ (Machine.initial () fun _ => ⟨""⟩).history fragileRun
        = before ++ Note.did p (.completed 0 g true)
          :: (since ++ Note.did q (.completed 0 g' true) :: rest)
      ∧ m ∈ g.messages ∧ m ∈ g'.messages
      ∧ ¬ (ledger 0 ((Machine.initial () fun _ => ⟨""⟩).history fragileRun)).arrived.Duplicate m :=
  ⟨_, _, _, _, _, _, _, plain "first", lawful_fragileRun, fragileNotes_eq, List.mem_cons_self,
    List.mem_cons_self, not_duplicate_fragileNotes _⟩

end Collate
