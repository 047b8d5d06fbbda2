import Collate.Proofs.Grips
import Collate.Proofs.Transcripts

/-!
# Faithful books

What the books of a run note did happen. Above all, a group that is noted to be completed goes to
the very processor of the handler, with the very output channel, and a message that is noted to be
sent goes to the discard channel: the script that the outside has for it is what the call works on
from then on. It is carried out (`Machine.CarriesOut`): as long as the call is there, the script
takes its steps in the turns of the call, its calls are made and answered, and nothing else is done
before it comes to its answer. And no call sets to work on a script that is not noted.

* `Machine.carriesOut`: calls whose turns are the steps of a script carry it out.
* `Machine.faithful`: the books of every lawful run are faithful.
-/

namespace Collate

variable {σ : Type}

/-! ## Scripts that are carried out -/

/-- In a run, the call at a place carries out a script, where `At work` says of a call that it works
on a script. When the script comes to its answer, `Ends` holds of the move; if it panics, that is
noted. The run may be over before the script is. -/
inductive Machine.CarriesOut {α : Type} (At : Script σ α → Frame σ → Prop)
    (Ends : Machine σ → Move σ → α → Prop) (p : Place) :
    Machine σ → Script σ α → List (Move σ) → Prop
  | still {s work f} : s.frameAt p = some f → At work f → CarriesOut At Ends p s work []
  /-- Nothing happens to the call. -/
  | waits {s work f mv moves} : s.frameAt p = some f → At work f → s.turns p mv = false →
      CarriesOut At Ends p (s.move mv) work moves → CarriesOut At Ends p s work (mv :: moves)
  | goes {s work f mv moves work'} : s.frameAt p = some f → At work f → s.turns p mv = true →
      work.step s.hub = .goes (s.move mv).hub work' →
      CarriesOut At Ends p (s.move mv) work' moves → CarriesOut At Ends p s work (mv :: moves)
  | calls {s work f mv moves inner} : s.frameAt p = some f → At work f → s.turns p mv = true →
      work.step s.hub = .calls inner → (s.move mv).frameAt p.above = some inner →
      CarriesOut At Ends p (s.move mv) work moves → CarriesOut At Ends p s work (mv :: moves)
  /-- A call that the script made is over. -/
  | resumes {s work f mv moves r} : s.frameAt p = some f → At work f → s.Returns p f mv r →
      CarriesOut At Ends p (s.move mv) (work.resume r) moves →
      CarriesOut At Ends p s work (mv :: moves)
  | gives {s work f mv moves a} : s.frameAt p = some f → At work f → s.turns p mv = true →
      work.step s.hub = .gives a → Ends s mv a → CarriesOut At Ends p s work (mv :: moves)
  | panics {s work f mv moves} : s.frameAt p = some f → At work f → s.turns p mv = true →
      work.step s.hub = .panics → .did p .panicked ∈ s.notes mv →
      CarriesOut At Ends p s work (mv :: moves)

/-- Calls that work on a script take its steps in their turns. -/
structure Frame.Enacts {α : Type} (At : Script σ α → Frame σ → Prop) : Prop where
  goes : ∀ {hub hub' : Hub σ} {work f f'}, At work f → f.step hub = .goes hub' f' →
    (∃ work', work.step hub = .goes hub' work' ∧ At work' f')
      ∨ (∃ a, work.step hub = .gives a)
      ∨ work.step hub = .panics ∧ ∀ under, f.doing hub under f' = some .panicked
  calls : ∀ {hub hub' : Hub σ} {work f f' inner}, At work f → f.step hub = .calls hub' f' inner →
    f' = f ∧ work.step hub = .calls inner
  resume : ∀ {work f} r, At work f → At (work.resume r) (f.resume r)
  ne_waits : ∀ {hub : Hub σ} {work f}, At work f → ∀ deadline, f.step hub ≠ .waits deadline

namespace Machine

variable {s : Machine σ} {mv : Move σ} {p : Place} {f f' : Frame σ}

/-- What a turn of a call notes. -/
theorem mem_notes_of_turn {hub' : Hub σ} {x : Doing} (hf : s.frameAt p = some f)
    (hturn : s.turns p mv = true) (hs : f.step s.hub = .goes hub' f')
    (hx : f.doing s.hub (p.below?.bind s.frameAt) f' = some x) : .did p x ∈ s.notes mv := by
  obtain ⟨rfl, t, below, ht, hstack, hp⟩ := top_of_turns hf hturn
  have hunder := frameAt_under_top ht hstack
  rw [← hp] at hunder
  rw [hunder] at hx
  simp only [notes, ht, Option.elim_some, hstack, stackNotes, hs, hx]
  rw [← hp]
  exact List.mem_singleton_self _

/-- Calls whose turns are the steps of a script carry it out, as long as they do not end. -/
theorem carriesOut {α : Type} {At : Script σ α → Frame σ → Prop}
    {Ends : Machine σ → Move σ → α → Prop} (he : Frame.Enacts At)
    (hends : ∀ {s : Machine σ} {mv work f f' hub' a}, s.frameAt p = some f → At work f →
      s.turns p mv = true → f.step s.hub = .goes hub' f' → work.step s.hub = .gives a →
      Ends s mv a) :
    ∀ (moves : List (Move σ)) {s : Machine σ} {work : Script σ α} {f : Frame σ},
      s.frameAt p = some f → At work f →
      (∀ a b work f hub' r, moves = a ++ b → (s.after a).frameAt p = some f → At work f →
        f.step (s.after a).hub ≠ .ends hub' r) →
      CarriesOut At Ends p s work moves
  | [], s, work, f, hf, hat, _ => .still hf hat
  | mv :: moves, s, work, f, hf, hat, hnever => by
    have hnext := fun a b work f hub' r hmoves =>
      hnever (mv :: a) b work f hub' r (congrArg (mv :: ·) hmoves)
    rcases hturn : s.turns p mv with _ | _
    · obtain ⟨hsame, -⟩ | ⟨r, hreturn⟩ := move_of_not_turns hf hturn
      · exact .waits hf hat hturn (carriesOut he hends moves hsame hat hnext)
      · exact .resumes hf hat hreturn
          (carriesOut he hends moves hreturn.back (he.resume r hat) hnext)
    · rcases hs : f.step s.hub with ⟨hub', f'⟩ | ⟨hub', f', inner⟩ | ⟨hub', r⟩ | deadline
      · obtain ⟨work', hw, hat'⟩ | ⟨a, hw⟩ | ⟨hw, hpanics⟩ := he.goes hat hs
        · obtain ⟨hhub, hback, -⟩ := turn_goes hf hturn hs
          exact .goes hf hat hturn (by rw [hw, hhub])
            (carriesOut he hends moves hback hat' hnext)
        · exact .gives hf hat hturn hw (hends hf hat hturn hs hw)
        · exact .panics hf hat hturn hw (mem_notes_of_turn hf hturn hs (hpanics _))
      · obtain ⟨rfl, hw⟩ := he.calls hat hs
        obtain ⟨-, hback, habove⟩ := turn_calls hf hturn hs
        exact .calls hf hat hturn hw habove (carriesOut he hends moves hback hat hnext)
      · exact absurd hs (hnever [] _ work f hub' r rfl hf hat)
      · exact absurd hs (he.ne_waits hat deadline)

end Machine

/-! ## Calls at work -/

namespace Frame

/-- A call that works on a group with a script. -/
def WorksOn (g : Group) (work : Script σ (Except ProcessingError Unit)) : Frame σ → Prop
  | .handling _ (.processing _ g' work') => g' = g ∧ work' = work
  | .offer _ _ (.completing g' work') => g' = g ∧ work' = work
  | _ => False

/-- A call that is about to take a group out of its store, whatever came of working on it. -/
def Removes (g : Group) (result : Except ProcessingError Unit) : Frame σ → Prop
  | .handling _ (.removing _ g' result') => g' = g ∧ result' = result
  | .offer _ _ (.removing g') => g' = g
  | _ => False

/-- A call that has a message of a group on its way with a script. -/
def Sends (g : Group) (m : Message) (work : Script σ (Except ChannelError Unit)) : Frame σ → Prop
  | .offer _ _ (.sending g' m' _ work') => g' = g ∧ m' = m ∧ work' = work
  | _ => False

/-- A call that goes through the messages of a group. -/
def Discards (g : Group) : Frame σ → Prop
  | .offer _ _ (.discarding g' _) => g' = g
  | _ => False

variable {g : Group} {m : Message} {f : Frame σ}

theorem WorksOn.eq {work : Script σ (Except ProcessingError Unit)} (h : f.WorksOn g work) :
    (∃ id key, f = .handling id (.processing key g work))
      ∨ ∃ id stale, f = .offer id stale (.completing g work) := by
  cases f with
  | handling id x =>
    cases x <;> simp only [WorksOn] at h
    obtain ⟨rfl, rfl⟩ := h
    exact .inl ⟨_, _, rfl⟩
  | offer id stale x =>
    cases x <;> simp only [WorksOn] at h
    obtain ⟨rfl, rfl⟩ := h
    exact .inr ⟨_, _, rfl⟩
  | _ => exact h.elim

theorem Sends.eq {work : Script σ (Except ChannelError Unit)} (h : f.Sends g m work) :
    ∃ id stale left, f = .offer id stale (.sending g m left work) := by
  cases f with
  | offer id stale x =>
    cases x <;> simp only [Sends] at h
    obtain ⟨rfl, rfl, rfl⟩ := h
    exact ⟨_, _, _, rfl⟩
  | _ => exact h.elim

/-- In good order, a call at work has its handler, and does not end before the work is done. -/
theorem WorksOn.ne_ends {work : Script σ (Except ProcessingError Unit)} (h : f.WorksOn g work)
    {hub hub' : Hub σ} (hf : f.Orderly hub) (r : Reply) : f.step hub ≠ .ends hub' r := by
  intro hs
  obtain ⟨id, key, rfl⟩ | ⟨id, stale, rfl⟩ := h.eq
  · change (Handling.processing key g work).step hub id = _ at hs
    obtain ⟨hnone, -⟩ | ⟨_, hx, -⟩ | ⟨_, hx, -⟩ := Handling.ends_of_step hs
    · simp [Frame.Orderly, Handling.Orderly, hnone] at hf
    · cases hx
    · cases hx
  · change (Offer.completing g work).step hub id stale = _ at hs
    obtain ⟨hnone, -⟩ | ⟨hx, -⟩ | ⟨_, hx, -⟩ | ⟨_, hx, -⟩ := Offer.ends_of_step hs
    · simp [Frame.Orderly, Offer.Orderly, hnone] at hf
    all_goals cases hx

theorem Sends.ne_ends {work : Script σ (Except ChannelError Unit)} (h : f.Sends g m work)
    {hub hub' : Hub σ} (hf : f.Orderly hub) (r : Reply) : f.step hub ≠ .ends hub' r := by
  intro hs
  obtain ⟨id, stale, left, rfl⟩ := h.eq
  change (Offer.sending g m left work).step hub id stale = _ at hs
  obtain ⟨hnone, -⟩ | ⟨hx, -⟩ | ⟨_, hx, -⟩ | ⟨_, hx, -⟩ := Offer.ends_of_step hs
  · simp [Frame.Orderly, Offer.Orderly, hnone] at hf
  all_goals cases hx

/-- The ways on of a call at work: the processor goes on, comes to its answer, with the group still
to be removed, or panics. -/
theorem WorksOn.goes {work : Script σ (Except ProcessingError Unit)} (h : f.WorksOn g work)
    {hub hub' : Hub σ} {f' : Frame σ} (hs : f.step hub = .goes hub' f') :
    (∃ work', work.step hub = .goes hub' work' ∧ f'.WorksOn g work')
      ∨ (∃ result, work.step hub = .gives result ∧ f'.Removes g result)
      ∨ work.step hub = .panics ∧ ∀ under, f.doing hub under f' = some .panicked := by
  obtain ⟨id, key, rfl⟩ | ⟨id, stale, rfl⟩ := h.eq
  · change (Handling.processing key g work).step hub id = _ at hs
    obtain ⟨handler, hh⟩ := Handling.handler_of_step hs
    obtain ⟨x, rfl, hg⟩ := Handling.goes_of_step hh hs
    cases hg with
    | processing hw => exact .inl ⟨_, hw, rfl, rfl⟩
    | processed hw => exact .inr (.inl ⟨_, hw, rfl, rfl⟩)
    | broken hw => exact .inr (.inr ⟨hw, fun _ => by simp [doing, hh, Handling.doing]⟩)
  · change (Offer.completing g work).step hub id stale = _ at hs
    obtain ⟨handler, hh⟩ := Offer.handler_of_step hs
    obtain ⟨x, rfl, hg⟩ := Offer.goes_of_step hh hs
    cases hg with
    | completing hw => exact .inl ⟨_, hw, rfl, rfl⟩
    | completed hw => exact .inr (.inl ⟨_, hw, rfl⟩)
    | broken hw => exact .inr (.inr ⟨hw, fun _ => by simp [doing, hh, Offer.doing]⟩)

/-- The ways on of a call with a message on its way: the discard channel goes on, comes to its
answer, with the rest of the group still to be gone through, or panics. -/
theorem Sends.goes {work : Script σ (Except ChannelError Unit)} (h : f.Sends g m work)
    {hub hub' : Hub σ} {f' : Frame σ} (hs : f.step hub = .goes hub' f') :
    (∃ work', work.step hub = .goes hub' work' ∧ f'.Sends g m work')
      ∨ (∃ answer, work.step hub = .gives answer ∧ f'.Discards g)
      ∨ work.step hub = .panics ∧ ∀ under, f.doing hub under f' = some .panicked := by
  obtain ⟨id, stale, left, rfl⟩ := h.eq
  change (Offer.sending g m left work).step hub id stale = _ at hs
  obtain ⟨handler, hh⟩ := Offer.handler_of_step hs
  obtain ⟨x, rfl, hg⟩ := Offer.goes_of_step hh hs
  cases hg with
  | sending hw => exact .inl ⟨_, hw, rfl, rfl, rfl⟩
  | sent hw => exact .inr (.inl ⟨_, hw, rfl⟩)
  | unsent hw => exact .inr (.inr ⟨hw, fun _ => by simp [doing, hh, Offer.doing]⟩)

/-- A processor that answers leaves its call about to remove the group. -/
theorem WorksOn.removes {work : Script σ (Except ProcessingError Unit)} (h : f.WorksOn g work)
    {hub hub' : Hub σ} {f' : Frame σ} {result : Except ProcessingError Unit}
    (hw : work.step hub = .gives result) (hs : f.step hub = .goes hub' f') :
    f'.Removes g result := by
  obtain ⟨work', hw', -⟩ | ⟨result', hw', hremoves⟩ | ⟨hw', -⟩ := h.goes hs <;>
    cases hw.symm.trans hw'
  exact hremoves

/-- A discard channel that answers leaves its call with the rest of the group. -/
theorem Sends.discards {work : Script σ (Except ChannelError Unit)} (h : f.Sends g m work)
    {hub hub' : Hub σ} {f' : Frame σ} {answer : Except ChannelError Unit}
    (hw : work.step hub = .gives answer) (hs : f.step hub = .goes hub' f') : f'.Discards g := by
  obtain ⟨work', hw', -⟩ | ⟨answer', hw', hdiscards⟩ | ⟨hw', -⟩ := h.goes hs <;>
    cases hw.symm.trans hw'
  exact hdiscards

theorem enacts_worksOn (g : Group) :
    Enacts (fun work (f : Frame σ) => f.WorksOn g work) where
  goes hat hs := (hat.goes hs).imp_right (.imp_left fun ⟨result, hw, _⟩ => ⟨result, hw⟩)
  calls := by
    intro hub hub' work f f' inner hat hs
    obtain ⟨id, key, rfl⟩ | ⟨id, stale, rfl⟩ := hat.eq
    · change (Handling.processing key g work).step hub id = _ at hs
      obtain ⟨-, rfl, _, _, _, hx, hw⟩ := Handling.calls_of_step hs
      cases hx
      exact ⟨rfl, hw⟩
    · change (Offer.completing g work).step hub id stale = _ at hs
      obtain ⟨-, rfl, ⟨_, _, _, _, hx, -⟩ | ⟨_, _, hx, hw⟩⟩ := Offer.calls_of_step hs <;> cases hx
      exact ⟨rfl, hw⟩
  resume := by
    intro work f r hat
    obtain ⟨id, key, rfl⟩ | ⟨id, stale, rfl⟩ := hat.eq <;> exact ⟨rfl, rfl⟩
  ne_waits := by
    intro hub work f hat deadline hs
    obtain ⟨id, key, rfl⟩ | ⟨id, stale, rfl⟩ := hat.eq
    · simp only [step, Handling.step, Handling.process] at hs
      repeat' split at hs
      all_goals cases hs
    · exact Offer.step_ne_waits (.completing g work) hub id stale deadline hs

theorem enacts_sends (g : Group) (m : Message) :
    Enacts (fun work (f : Frame σ) => f.Sends g m work) where
  goes hat hs := (hat.goes hs).imp_right (.imp_left fun ⟨answer, hw, _⟩ => ⟨answer, hw⟩)
  calls := by
    intro hub hub' work f f' inner hat hs
    obtain ⟨id, stale, left, rfl⟩ := hat.eq
    change (Offer.sending g m left work).step hub id stale = _ at hs
    obtain ⟨-, rfl, ⟨_, _, _, _, hx, hw⟩ | ⟨_, _, hx, -⟩⟩ := Offer.calls_of_step hs <;> cases hx
    exact ⟨rfl, hw⟩
  resume := by
    intro work f r hat
    obtain ⟨id, stale, left, rfl⟩ := hat.eq
    exact ⟨rfl, rfl, rfl⟩
  ne_waits := by
    intro hub work f hat deadline hs
    obtain ⟨id, stale, left, rfl⟩ := hat.eq
    exact Offer.step_ne_waits (.sending g m left work) hub id stale deadline hs

end Frame

/-! ## What is noted, and what happens -/

/-- What a call has code of the outside work on: a group that is processed, or a message that is
sent. -/
inductive Job where
  | processing (g : Group)
  | sending (m : Message)

def Frame.job? : Frame σ → Option Job
  | .handling _ (.processing _ g _) => some (.processing g)
  | .offer _ _ (.completing g _) => some (.processing g)
  | .offer _ _ (.sending _ m _ _) => some (.sending m)
  | _ => none

def Doing.job? : Doing → Option Job
  | .completed _ g _ => some (.processing g)
  | .sent m => some (.sending m)
  | _ => none

/-- What a note says did happen in the step from one hub to the next that took a call to `f`. The
processor is called with the group and the output channel, if there is one, and the discard channel
with the message. -/
def Doing.Happens (hub hub' : Hub σ) (f : Frame σ) : Doing → Prop
  | .named h m key => ∃ handler, hub.handler? h = some handler
      ∧ handler.correlation m = .returned (some key)
  | .added h d key m t => hub.home? h = some d ∧ t = hub.clock
      ∧ ∃ g, (hub.depot d).add key m t = .ok (hub'.depot d, g)
  | .completed h g called => ∃ handler, hub.handler? h = some handler
      ∧ called = handler.output.isSome
      ∧ f.WorksOn g (handler.output.elim (.done (.error .noOutputChannel)) (handler.processor g))
  | .discarded h g channelled => ∃ handler, hub.handler? h = some handler
      ∧ channelled = handler.discard.isSome
      ∧ ∃ stale, f = .offer h stale (if channelled then .discarding g g.messages else .removing g)
  | .sent m => ∃ h handler channel, hub.handler? h = some handler ∧ handler.discard = some channel
      ∧ ∃ stale g left, f = .offer h stale (.sending g m left (channel.send m))
  | .removed d key g t _ => t = hub.clock ∧ (hub.depot d).store.find? key = g
      ∧ (hub'.depot d).store.find? key = none
  | .selected _ _ t => t = hub.clock
  | .panicked => True

theorem Doing.happens_removed {hub : Hub σ} {d : DepotId} {key : Key} {depot : Depot}
    {g : Option Group} (hservice : (hub.depot d).InService) (hd : d < hub.depots.length)
    (hr : (hub.depot d).remove key = .ok (depot, g)) (f : Frame σ) (by_ : Remover) :
    (Doing.removed d key g hub.clock by_).Happens hub (hub.setDepot d depot) f := by
  rw [hservice.remove] at hr
  cases hr
  refine ⟨rfl, rfl, ?_⟩
  rw [Hub.depot_setDepot_self hub _ hd]
  simp [Store.find?_remove]

section Steps

variable {hub hub' : Hub σ} {handler : Handler σ} {h : HandlerId} {x : Doing} {t : Job}

theorem Handling.Goes.happens {p p' : Handling σ} (hg : Goes hub handler h p hub' p')
    (ho : hub.Orderly) (hh : hub.handler? h = some handler)
    (hx : p.doing hub handler h p' = some x) : x.Happens hub hub' (.handling h p') := by
  have hd := (ho.handlers h handler hh).2
  cases hg
  case keyed hc =>
    cases hx
    exact ⟨handler, hh, hc⟩
  case added ha =>
    cases hx
    exact ⟨Hub.home?_of_handler? hh, rfl, _, by rw [Hub.depot_setDepot_self hub _ hd, ha]⟩
  case complete key g _ =>
    cases hx
    refine ⟨handler, hh, rfl, rfl, ?_⟩
    rw [Handler.process]
    cases handler.output <;> rfl
  case removed hr =>
    simp only [doing, Depot.removal, hr, Option.some.injEq] at hx
    subst hx
    exact Doing.happens_removed (ho.service _) hd hr _ _
  case unremoved hr => simp [doing, Depot.removal, hr] at hx
  all_goals cases hx
  all_goals trivial

theorem Offer.Goes.happens {stale : Group} {p p' : Offer σ}
    (hg : Goes hub handler h stale p hub' p') (ho : hub.Orderly)
    (hh : hub.handler? h = some handler) {timeout : Option Nat}
    (hx : p.doing hub handler h stale timeout p' = some x) :
    x.Happens hub hub' (.offer h stale p') := by
  have hd := (ho.handlers h handler hh).2
  cases hg
  case completes =>
    cases hx
    refine ⟨handler, hh, rfl, rfl, ?_⟩
    rw [Handler.process]
    cases handler.output <;> rfl
  case discards hsome =>
    cases hx
    exact ⟨handler, hh, hsome.symm, stale, rfl⟩
  case drops hnone =>
    cases hx
    exact ⟨handler, hh, by rw [hnone]; rfl, stale, rfl⟩
  case sends hc =>
    cases hx
    exact ⟨h, handler, _, hh, hc, stale, _, _, rfl⟩
  case removed hr =>
    simp only [doing, Depot.removal, hr, Option.some.injEq] at hx
    subst hx
    exact Doing.happens_removed (ho.service _) hd hr _ _
  case unremoved hr => simp [doing, Depot.removal, hr] at hx
  all_goals cases hx
  all_goals trivial

theorem Pass.Goes.happens {d : DepotId} {timeout : Nat} {p p' : Pass σ}
    (hg : Goes hub d timeout p hub' p') (hp : p.Orderly hub d)
    (hx : p.doing hub d timeout p' = some x) : x.Happens hub hub' (.pass d timeout p') := by
  cases hg
  case selected =>
    cases hx
    rfl
  case swept =>
    cases hx
    refine ⟨rfl, rfl, ?_⟩
    rw [Hub.depot_setDepot_self hub _ hp.1]
    simp [Store.find?_remove]
  all_goals cases hx
  all_goals trivial

namespace Frame

variable {f f' inner : Frame σ}

theorem happens_of_doing (ho : hub.Orderly) (hf : f.Orderly hub)
    (hs : f.step hub = .goes hub' f') {under : Option (Frame σ)}
    (hx : f.doing hub under f' = some x) : x.Happens hub hub' f' := by
  cases f with
  | handling id p =>
    obtain ⟨handler, hh⟩ := Handling.handler_of_step hs
    obtain ⟨p', rfl, hg⟩ := Handling.goes_of_step hh hs
    simp only [doing, hh, Option.bind_some] at hx
    exact hg.happens ho hh hx
  | offer id stale p =>
    obtain ⟨handler, hh⟩ := Offer.handler_of_step hs
    obtain ⟨p', rfl, hg⟩ := Offer.goes_of_step hh hs
    simp only [doing, hh, Option.bind_some] at hx
    exact hg.happens ho hh hx
  | pass d timeout p =>
    obtain ⟨p', rfl, hg⟩ := Pass.goes_of_step hs
    exact hg.happens hf hx
  | drop id p =>
    obtain ⟨rfl, -⟩ := Drop.goes_of_step hs
    cases hx

/-- A call sets to work with a note only. -/
theorem job?_goes (hs : f.step hub = .goes hub' f') (ht : f'.job? = some t)
    (under : Option (Frame σ)) :
    f.job? = some t ∨ ∃ x, f.doing hub under f' = some x ∧ x.job? = some t := by
  cases f with
  | handling id p =>
    obtain ⟨handler, hh⟩ := Handling.handler_of_step hs
    obtain ⟨p', rfl, hg⟩ := Handling.goes_of_step hh hs
    cases hg
    case complete =>
      exact .inr ⟨.completed id _ handler.output.isSome, by simp [doing, hh, Handling.doing], ht⟩
    case processing => exact .inl ht
    all_goals cases ht
  | offer id stale p =>
    obtain ⟨handler, hh⟩ := Offer.handler_of_step hs
    obtain ⟨p', rfl, hg⟩ := Offer.goes_of_step hh hs
    cases hg
    case completes =>
      exact .inr ⟨.completed id _ handler.output.isSome, by simp [doing, hh, Offer.doing], ht⟩
    case sends => exact .inr ⟨.sent _, by simp [doing, hh, Offer.doing], ht⟩
    case sending => exact .inl ht
    case completing => exact .inl ht
    all_goals cases ht
  | pass d timeout p =>
    obtain ⟨p', rfl, -⟩ := Pass.goes_of_step hs
    cases ht
  | drop id p =>
    obtain ⟨rfl, -⟩ := Drop.goes_of_step hs
    cases ht

theorem job?_calls (hs : f.step hub = .calls hub' f' inner) :
    f'.job? = f.job? ∧ inner.job? = none := by
  have hscript : ∀ {α : Type} {s : Script σ α}, s.step hub = .calls inner →
      inner.job? = none := by
    intro α s hcall
    rcases Script.calls_of_step hcall with ⟨id, m, rfl⟩ | ⟨d, timeout, rfl⟩ <;> rfl
  cases f with
  | handling id p =>
    obtain ⟨-, rfl, _, _, _, -, hw⟩ := Handling.calls_of_step hs
    exact ⟨rfl, hscript hw⟩
  | offer id stale p =>
    obtain ⟨-, rfl, ⟨_, _, _, _, -, hw⟩ | ⟨_, _, -, hw⟩⟩ := Offer.calls_of_step hs <;>
      exact ⟨rfl, hscript hw⟩
  | pass d timeout p =>
    obtain ⟨-, ⟨_, _, _, _, _, rfl, rfl, rfl⟩ | ⟨_, _, _, _, _, _, rfl, rfl, hw⟩⟩ :=
      Pass.calls_of_step hs
    · exact ⟨rfl, rfl⟩
    · exact ⟨rfl, hscript hw⟩
  | drop id p => exact (Drop.calls_of_step hs).elim

@[simp] theorem job?_resume (f : Frame σ) (r : Reply) : (f.resume r).job? = f.job? := by
  cases f with
  | handling id p => cases p <;> rfl
  | offer id stale p => cases p <;> rfl
  | pass d timeout p => rfl
  | drop id p => rfl

end Frame

end Steps

/-- Whatever happens, no call sets to work without a note. -/
theorem Advance.job? {hub hub' : Hub σ} {at_ at' : Place → Option (Frame σ)} {new : List Note}
    (ha : Advance hub at_ hub' at' new) {p : Place} {t : Job}
    (ht : (at' p).bind Frame.job? = some t) :
    (at_ p).bind Frame.job? = some t ∨ ∃ x, .did p x ∈ new ∧ x.job? = some t := by
  cases ha with
  | aside => exact .inl ht
  | @starts q a hq =>
    rw [Function.update_apply] at ht
    split_ifs at ht
    · cases a <;> cases ht
    · exact .inl ht
  | @goes q f hub' f' hq hs =>
    rw [Function.update_apply] at ht
    split_ifs at ht with hp
    · subst hp
      rw [hq]
      refine (Frame.job?_goes hs ht (p.below?.bind at_)).imp_right fun ⟨x, hx, hjob⟩ =>
        ⟨x, ?_, hjob⟩
      rw [hx]
      exact List.mem_singleton_self _
    · exact .inl ht
  | @calls q f hub' f' inner hq hs hab =>
    obtain ⟨hsame, hnone⟩ := Frame.job?_calls hs
    rw [Function.update_apply, Function.update_apply] at ht
    split_ifs at ht with habove hp
    · rw [Option.bind_some, hnone] at ht
      cases ht
    · rw [hp, hq, Option.bind_some, ← hsame]
      exact .inl ht
    · exact .inl ht
  | @ends q f hub' r hq hs =>
    rw [Function.update_apply] at ht
    split_ifs at ht
    · cases ht
    · exact .inl ht
  | @returns q f g hub' r hq hs hg =>
    rw [Function.update_apply, Function.update_apply] at ht
    split_ifs at ht with hp habove
    · rw [Option.bind_some, Frame.job?_resume] at ht
      rw [hp, hg]
      exact .inl ht
    · cases ht
    · exact .inl ht

/-- The books of a run are faithful. -/
structure Machine.Faithful (s : Machine σ) (moves : List (Move σ)) : Prop where
  /-- What is noted happens. -/
  happens : ∀ before mv rest, moves = before ++ mv :: rest → ∀ p x,
    .did p x ∈ (s.after before).notes mv → ∃ f, (s.after (before ++ [mv])).frameAt p = some f
      ∧ x.Happens (s.after before).hub (s.after (before ++ [mv])).hub f
  /-- Nothing is worked on but what is noted. -/
  noted : ∀ before mv rest, moves = before ++ mv :: rest → ∀ p t,
    ((s.after (before ++ [mv])).frameAt p).bind Frame.job? = some t →
      ((s.after before).frameAt p).bind Frame.job? = some t
        ∨ ∃ x, .did p x ∈ (s.after before).notes mv ∧ x.job? = some t
  /-- What is worked on is carried out, and then the call goes on with the same group. -/
  processes : ∀ before rest, moves = before ++ rest → ∀ p f g work,
    (s.after before).frameAt p = some f → f.WorksOn g work →
      (s.after before).CarriesOut (fun work f => f.WorksOn g work)
        (fun s mv result => ∃ f, (s.move mv).frameAt p = some f ∧ f.Removes g result) p work rest
  sends : ∀ before rest, moves = before ++ rest → ∀ p f g m work,
    (s.after before).frameAt p = some f → f.Sends g m work →
      (s.after before).CarriesOut (fun work f => f.Sends g m work)
        (fun s mv _ => ∃ f, (s.move mv).frameAt p = some f ∧ f.Discards g) p work rest

namespace Machine

variable {s : Machine σ} {moves : List (Move σ)}

/-- The books of every lawful run are faithful. -/
theorem faithful (ho : s.Orderly) (hl : s.Lawful moves) : s.Faithful moves where
  happens := by
    rintro before mv rest rfl p x hx
    have ho' := orderly_after ho before (lawful_append.1 hl).1
    obtain ⟨f, f', hf, -, hs, hdoing, hmove⟩ := step_of_did hx
    rw [after_append]
    change ∃ f, ((s.after before).move mv).frameAt p = some f
      ∧ x.Happens (s.after before).hub ((s.after before).move mv).hub f
    exact ⟨f', by rw [hmove, Function.update_self],
      Frame.happens_of_doing ho'.hub (ho'.frames p f hf) hs hdoing⟩
  noted := by
    rintro before mv rest rfl p t ht
    obtain ⟨hbefore, hmv, -⟩ := lawful_append.1 hl
    rw [after_append] at ht
    exact (advance_move (orderly_after ho before hbefore) hmv).1.job? ht
  processes := by
    rintro before rest rfl p f g work hf hat
    obtain ⟨hbefore, hrest⟩ := lawful_append.1 hl
    refine carriesOut (Frame.enacts_worksOn g) (fun hf hat hturn hs hw => ?_) rest hf hat ?_
    · exact ⟨_, (turn_goes hf hturn hs).2.1, hat.removes hw hs⟩
    · rintro a b work f hub' r rfl hf hat
      have ho' := orderly_after (orderly_after ho before hbefore) a (lawful_append.1 hrest).1
      exact hat.ne_ends (ho'.frames p f hf) r
  sends := by
    rintro before rest rfl p f g m work hf hat
    obtain ⟨hbefore, hrest⟩ := lawful_append.1 hl
    refine carriesOut (Frame.enacts_sends g m) (fun hf hat hturn hs hw => ?_) rest hf hat ?_
    · exact ⟨_, (turn_goes hf hturn hs).2.1, hat.discards hw hs⟩
    · rintro a b work f hub' r rfl hf hat
      have ho' := orderly_after (orderly_after ho before hbefore) a (lawful_append.1 hrest).1
      exact hat.ne_ends (ho'.frames p f hf) r

end Machine

end Collate
