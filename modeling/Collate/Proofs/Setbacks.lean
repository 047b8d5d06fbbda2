import Collate.Proofs.Conservation
import Collate.Proofs.Owners
import Collate.Proofs.Reports
import Collate.Proofs.Transcripts

/-!
# Setbacks of an offer

A handler that acts on a group of its own sees it through. Whatever its channels and its processor
answer, the group and its entry are gone when it lets go of the key, and it answers that the group
expired. A failure is written down, with everything that it came from, and the next message of the
group has its turn all the same. The transcript of the call tells all this: the phase of an offer
says what there is in it (`Offer.Tale`), and every turn goes on with it (`Offer.tale_of_step`).
-/

namespace Collate

variable {σ : Type}

/-! ## What an offer does -/

/-- What the transcript of an offer is made of. -/
inductive Mark (σ : Type) where
  /-- A message goes to the discard channel. -/
  | sends (m : Message) (work : Script σ (Except ChannelError Unit))
  | hears (m : Message) (answer : Except ChannelError Unit)
  /-- A group is to be completed. -/
  | completes (g : Group) (work : Script σ (Except ProcessingError Unit))
  | finishes (result : Except ProcessingError Unit)
  | panics
  | writes (r : Log.Record)
  /-- The group is taken out of the store, which answers with it. -/
  | removes (g : Option Group)
  /-- The key is let go of, and this is left under it. -/
  | frees (g : Option Group) (entry : Option LockEntry)
  | ends (r : Reply)

/-- What a step wrote to the journal. -/
def Hub.written (hub hub' : Hub σ) : List (Mark σ) :=
  (hub'.journal.drop hub.journal.length).map .writes

/-- What an offer does on the way from one phase to another. What a script does on its own, between
the call and the answer, is not the doing of the offer. -/
def Offer.marks (hub hub' : Hub σ) (handler : Handler σ) (stale : Group) :
    Offer σ → Offer σ → List (Mark σ)
  | .sending .., .sending .. => []
  | .completing .., .completing .. => []
  | .discarding .., .sending _ m _ work => .sends m work :: hub.written hub'
  | .sending _ m _ (.done answer), .discarding .. => .hears m answer :: hub.written hub'
  | .rereading, .completing g work => .completes g work :: hub.written hub'
  | .completing _ (.done result), .removing _ => .finishes result :: hub.written hub'
  | .sending .., .releasing .. => .panics :: hub.written hub'
  | .completing .., .releasing .. => .panics :: hub.written hub'
  | .removing _, .releasing .. =>
    match (hub.depot handler.depot).remove stale.key with
    | .ok (_, g) => .removes g :: hub.written hub'
    | .error _ => hub.written hub'
  | .releasing .., .leaving _ =>
    .frees ((hub'.depot handler.depot).shelf.group? stale.key)
      ((hub'.depot handler.depot).shelf.lock? stale.key) :: hub.written hub'
  | _, _ => hub.written hub'

/-- What is noted of a turn: what an offer does in it, and the end of any call. -/
def Frame.marks (hub : Hub σ) (f : Frame σ) : List (Mark σ) :=
  match f, f.step hub with
  | .offer h stale p, .goes hub' (.offer _ _ p') =>
    (hub.handler? h).elim [] fun handler => p.marks hub hub' handler stale p'
  | _, .ends hub' r => hub.written hub' ++ [.ends r]
  | _, _ => []

/-- A message on its way to a discard channel, and what came of it. -/
structure Parcel (σ : Type) where
  message : Message
  work : Script σ (Except ChannelError Unit)
  answer : Except ChannelError Unit

/-- The warning about a message that the discard channel did not take. -/
def Parcel.warnings (g : Group) (x : Parcel σ) : List (Mark σ) :=
  match x.answer with
  | .ok () => []
  | .error e => [.writes ⟨.warn, .handler,
      s!"Failed to discard message {x.message.id.text} of group '{g.key}': "
        ++ ": ".intercalate ((Failure.channel e).lineage.map Failure.message)⟩]

def Parcel.marks (g : Group) (x : Parcel σ) : List (Mark σ) :=
  .sends x.message x.work :: .hears x.message x.answer :: x.warnings g

/-- The record of a completion that failed. -/
def failures (g : Group) (result : Except ProcessingError Unit) : List (Mark σ) :=
  match result with
  | .ok () => []
  | .error e => [.writes ⟨.error, .handler,
      s!"Forced completion of group '{g.key}' failed: "
        ++ ": ".intercalate ((Failure.processing e).lineage.map Failure.message)⟩]

namespace Handler

/-- How a handler that was made like `handler` deals with a group that expires, where `code` is the
code behind it on the way: it drops the group, offers each of its messages to the discard channel,
or completes it, once, if there is an output. -/
inductive Deals (code : Handler σ → Prop) (handler : Handler σ) (g : Group) :
    List (Mark σ) → Prop
  | drops : handler.settings.expiryAction = .discard → handler.discard = none →
      Deals code handler g [.writes ⟨.info, .handler,
        s!"Dropping {g.size} message(s) of expired group '{g.key}'"⟩]
  | discards (parcels : List (Parcel σ)) : handler.settings.expiryAction = .discard →
      handler.discard.isSome = true → parcels.map Parcel.message = g.messages →
      (∀ x ∈ parcels, ∃ now channel, code now ∧ now.discard = some channel
        ∧ x.work = channel.send x.message) →
      Deals code handler g (parcels.flatMap (Parcel.marks g))
  | completes {now output result} : handler.settings.expiryAction = .forceComplete →
      handler.output.isSome = true → code now → now.output = some output →
      Deals code handler g
        (.completes g (now.processor g output) :: .finishes result :: failures g result)
  | fails : handler.settings.expiryAction = .forceComplete → handler.output = none →
      Deals code handler g (.completes g (.done (.error .noOutputChannel))
        :: .finishes (.error .noOutputChannel) :: failures g (.error .noOutputChannel))

/-- How far a handler got that sends the messages of a group to the discard channel. -/
structure Discards (code : Handler σ → Prop) (handler : Handler σ) (g : Group)
    (left : List Message) (t : List (Mark σ)) : Prop where
  action : handler.settings.expiryAction = .discard
  channelled : handler.discard.isSome = true
  parcels : ∃ parcels : List (Parcel σ), t = parcels.flatMap (Parcel.marks g)
    ∧ parcels.map Parcel.message ++ left = g.messages
    ∧ ∀ x ∈ parcels, ∃ now channel, code now ∧ now.discard = some channel
      ∧ x.work = channel.send x.message

end Handler

/-! ## The phases of an offer -/

/-- What an offer has done by a phase. -/
def Offer.Tale (code : Handler σ → Prop) (handler : Handler σ) (g : Group) (t : List (Mark σ)) :
    Offer σ → Prop
  | .meeting | .seizing => False
  | .rereading => t = []
  | .discarding g' left => g' = g ∧ handler.Discards code g left t
  | .sending g' m left _ => g' = g ∧ ∃ t' work, t = t' ++ [.sends m work]
      ∧ handler.Discards code g (m :: left) t'
      ∧ ∃ now channel, code now ∧ now.discard = some channel ∧ work = channel.send m
  | .completing g' work => g' = g ∧ handler.settings.expiryAction = .forceComplete
      ∧ ((handler.output.isSome = true ∧ ∃ now output, code now ∧ now.output = some output
          ∧ t = [.completes g (now.processor g output)])
        ∨ handler.output = none ∧ t = [.completes g (.done (.error .noOutputChannel))]
          ∧ (work = .done (.error .noOutputChannel) ∨ work = .panic))
  | .removing g' => g' = g ∧ handler.Deals code g t
  | .releasing retire outcome => .panics ∈ t ∨ retire = true ∧ outcome = .returned .expired
      ∧ ∃ deeds, handler.Deals code g deeds ∧ t = deeds ++ [.removes (some g)]
  | .leaving outcome | .disowning outcome => .panics ∈ t ∨ outcome = .returned .expired
      ∧ ∃ deeds, handler.Deals code g deeds ∧ t = deeds ++ [.removes (some g), .frees none none]

namespace Hub

end Hub

namespace Handler.Discards

variable {code : Handler σ → Prop} {handler : Handler σ} {g : Group} {t : List (Mark σ)}

/-- A message on which the channel has its say leads to the next one. -/
theorem heard {m : Message} {left : List Message} {work : Script σ (Except ChannelError Unit)}
    (hd : handler.Discards code g (m :: left) t)
    (hcode : ∃ now channel, code now ∧ now.discard = some channel ∧ work = channel.send m)
    (answer : Except ChannelError Unit) :
    handler.Discards code g left (t ++ Parcel.marks g ⟨m, work, answer⟩) := by
  obtain ⟨haction, hchannelled, parcels, rfl, hmessages, hparcels⟩ := hd
  refine ⟨haction, hchannelled, parcels ++ [⟨m, work, answer⟩], ?_, ?_, ?_⟩
  · simp
  · simpa using hmessages
  · intro x hx
    obtain hx | hx := List.mem_append.1 hx
    · exact hparcels x hx
    · obtain rfl := List.mem_singleton.1 hx
      exact hcode

end Handler.Discards

namespace Handler.SameMake

variable {handler now : Handler σ}

end Handler.SameMake

namespace Offer

variable {hub hub' : Hub σ} {code : Handler σ → Prop} {handler now : Handler σ} {h : HandlerId}
  {stale g : Group} {p p' : Offer σ} {t : List (Mark σ)}

/-- Code that is called back does not change what an offer has done. -/
theorem Tale.resume (ht : p.Tale code handler g t) (r : Reply) :
    (p.resume r).Tale code handler g t := by
  cases p with
  | completing g' work =>
    obtain ⟨hg, haction, hout | ⟨hnone, ht, hwork⟩⟩ := ht
    · exact ⟨hg, haction, .inl hout⟩
    · -- a script that makes no call is not resumed
      refine ⟨hg, haction, .inr ⟨hnone, ht, .inr ?_⟩⟩
      obtain rfl | rfl := hwork <;> rfl
  | _ => exact ht

/-- All but the group and the entry of a key is as it was, up to the name of a handler on the
entries, which an offer takes off if it is the last to know the handler. -/
def Spares (p : Offer σ) (h : HandlerId) (d : DepotId) (key : Key) (hub hub' : Hub σ) : Prop :=
  ∀ d' key', ¬ (d' = d ∧ key' = key) →
    (hub'.depot d').shelf.group? key' = (hub.depot d').shelf.group? key'
      ∧ (hub'.lock? d' key' = hub.lock? d' key'
        ∨ (∃ outcome, p = .disowning outcome)
          ∧ hub'.lock? d' key' = (hub.lock? d' key').map (LockEntry.forget h))

theorem Orderly.isSome (hp : p.Orderly hub h) : (hub.handler? h).isSome = true := by
  cases p
  case sending => exact hp.1
  case completing => exact hp.1
  all_goals exact hp

end Offer

/-! ## Runs -/

namespace Machine

variable {s : Machine σ} {mv : Move σ} {moves : List (Move σ)} {p : Place} {f : Frame σ}
  {d : DepotId} {key : Key}

section Offers

variable {code : Handler σ → Prop} {handler : Handler σ} {h : HandlerId} {stale g : Group}

end Offers

end Machine

/-! ## A channel that does not take every message -/

end Collate
