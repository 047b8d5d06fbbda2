import Collate.Proofs.Books

/-!
# Good order

Runs in which only handlers and passes touch the stores: whatever code is brought in is discreet, a
handler gathers in a depot that is there, and no order of the stale groups loses or invents one.
Such a run stays in good order (`Machine.orderly_move`): no operation of a depot goes out of
service, a call that is under way has its handler, and the handlers that take part in expiry in a
depot gather there. A step of a call moreover keeps everything of the hub that is no store, no lock
and no reference (`Hub.Keeps`).
-/

namespace Collate

variable {σ : Type}

/-- Code that leaves the depots to handlers and passes. -/
structure Handler.Discreet (h : Handler σ) : Prop where
  process : ∀ g, (h.process g).Discreet
  discard : ∀ c, h.discard = some c → ∀ m, (c.send m).Discreet

/-- A move of a run in which only handlers and passes touch the stores. -/
def Move.Lawful (hub : Hub σ) : Move σ → Prop
  | .event (.build handler) => handler.Discreet ∧ handler.depot < hub.depots.length
  | .enlist _ hook => ∀ g, (hook g).Discreet
  | .rearrange arrange => ∀ l, (arrange l).Perm l
  | .reform h code => code.Discreet ∧ ∀ old, hub.handler? h = some old → old.SameMake code
  | _ => True

/-- A run all of whose moves are lawful. -/
def Machine.Lawful : Machine σ → List (Move σ) → Prop
  | _, [] => True
  | s, mv :: moves => mv.Lawful s.hub ∧ (s.move mv).Lawful moves

namespace Hub

/-- What every step of a call keeps of the hub. -/
structure Keeps (hub hub' : Hub σ) : Prop where
  handlers : ∀ h, hub'.handler? h = hub.handler? h
  length : hub'.depots.length = hub.depots.length
  hooks : hub'.hooks = hub.hooks
  arrange : hub'.arrange = hub.arrange
  clock : hub'.clock = hub.clock
  outages : ∀ d, (hub'.depot d).outages = (hub.depot d).outages
  participants : ∀ d, (hub'.depot d).participants ⊆ (hub.depot d).participants

variable {hub hub' : Hub σ}

theorem Keeps.refl (hub : Hub σ) : hub.Keeps hub :=
  ⟨fun _ => rfl, rfl, rfl, rfl, rfl, fun _ => rfl, fun _ => List.Subset.refl _⟩

theorem Alike.keeps (h : hub.Alike hub') : hub.Keeps hub' :=
  ⟨h.handler?, by rw [h.depots], h.hooks, h.arrange, h.clock, fun d => by rw [h.depot],
    fun d => by rw [h.depot]; exact List.Subset.refl _⟩

theorem keeps_refer (hub : Hub σ) (h : HandlerId) : hub.Keeps (hub.refer h) :=
  ⟨handler?_refer hub h, rfl, rfl, rfl, rfl, fun _ => rfl, fun _ => List.Subset.refl _⟩

theorem keeps_unrefer (hub : Hub σ) (h : HandlerId) : hub.Keeps (hub.unrefer h) :=
  ⟨handler?_unrefer hub h, rfl, rfl, rfl, rfl, fun _ => rfl, fun _ => List.Subset.refl _⟩

theorem setDepot_of_le {d : DepotId} (depot : Depot) (hd : hub.depots.length ≤ d) :
    hub.setDepot d depot = hub := by
  simp [setDepot, List.set_eq_of_length_le hd]

theorem keeps_setDepot (hub : Hub σ) {d : DepotId} {depot : Depot}
    (ho : depot.outages = (hub.depot d).outages)
    (hp : depot.participants ⊆ (hub.depot d).participants) : hub.Keeps (hub.setDepot d depot) := by
  rcases Nat.lt_or_ge d hub.depots.length with hd | hd
  · refine ⟨fun _ => rfl, by simp, rfl, rfl, rfl, fun other => ?_, fun other => ?_⟩ <;>
      rw [depot_setDepot hub other depot hd] <;> split_ifs with h
    · rw [ho, h]
    · rfl
    · exact h ▸ hp
    · exact List.Subset.refl _
  · rw [setDepot_of_le depot hd]
    exact .refl hub

theorem keeps_disown (hub : Hub σ) (h : HandlerId) : hub.Keeps (hub.disown h) := by
  rcases hh : hub.handler? h with _ | handler
  · rw [disown_of_handler?_none hh]
    exact .refl hub
  · rw [disown_of_handler? hh]
    exact keeps_setDepot hub rfl (List.Subset.refl _)

structure Orderly (hub : Hub σ) : Prop where
  handlers : ∀ h handler, hub.handler? h = some handler →
    handler.Discreet ∧ handler.depot < hub.depots.length
  hooks : ∀ hook ∈ hub.hooks, ∀ g, (hook g).Discreet
  arrange : ∀ l, (hub.arrange l).Perm l
  service : ∀ d, (hub.depot d).InService
  participants : ∀ d h, .handler h ∈ (hub.depot d).participants → hub.home? h = some d

theorem Keeps.orderly (hk : hub.Keeps hub') (ho : hub.Orderly) : hub'.Orderly where
  handlers h handler hh := by
    rw [hk.handlers] at hh
    rw [hk.length]
    exact ho.handlers h handler hh
  hooks := by
    rw [hk.hooks]
    exact ho.hooks
  arrange := by
    rw [hk.arrange]
    exact ho.arrange
  service d := by
    unfold Depot.InService
    rw [hk.outages]
    exact ho.service d
  participants d h hp := by
    simp only [home?, hk.handlers]
    exact ho.participants d h (hk.participants d hp)

end Hub

/-- The handlers among participants gather in a depot. -/
def Participant.AllAt (hub : Hub σ) (d : DepotId) (l : List Participant) : Prop :=
  ∀ h, .handler h ∈ l → hub.home? h = some d

def Handling.Orderly (hub : Hub σ) (h : HandlerId) : Handling σ → Prop
  | .arriving _ => True
  | .processing _ _ work => (hub.handler? h).isSome ∧ work.Discreet
  | _ => (hub.handler? h).isSome

def Offer.Orderly (hub : Hub σ) (h : HandlerId) : Offer σ → Prop
  | .sending _ _ _ work => (hub.handler? h).isSome ∧ work.Discreet
  | .completing _ work => (hub.handler? h).isSome ∧ work.Discreet
  | _ => (hub.handler? h).isSome

def Pass.Orderly (hub : Hub σ) (d : DepotId) : Pass σ → Prop
  | .selecting => True
  | .consulting _ => d < hub.depots.length
  | .next t => d < hub.depots.length ∧ Participant.AllAt hub d t.participants
  | .offering t _ left _ => d < hub.depots.length ∧ Participant.AllAt hub d t.participants
      ∧ Participant.AllAt hub d left
  | .waiting t _ _ left _ => d < hub.depots.length ∧ Participant.AllAt hub d t.participants
      ∧ Participant.AllAt hub d left
  | .hooked t _ _ left _ work => d < hub.depots.length ∧ Participant.AllAt hub d t.participants
      ∧ Participant.AllAt hub d left ∧ work.Discreet
  | .claiming t _ => d < hub.depots.length ∧ Participant.AllAt hub d t.participants
  | .comparing t _ => d < hub.depots.length ∧ Participant.AllAt hub d t.participants
  | .freeing t _ _ _ => d < hub.depots.length ∧ Participant.AllAt hub d t.participants
  | .pruning _ => d < hub.depots.length
  | .failing => True

def Frame.Orderly (hub : Hub σ) : Frame σ → Prop
  | .handling h p => p.Orderly hub h
  | .offer h _ p => p.Orderly hub h
  | .pass d _ p => p.Orderly hub d
  | .drop _ _ => True

theorem Hub.Grows.isSome {hub hub' : Hub σ} (hg : hub.Grows hub') {h : HandlerId}
    (hh : (hub.handler? h).isSome) : (hub'.handler? h).isSome := by
  obtain ⟨old, hold⟩ := Option.isSome_iff_exists.1 hh
  obtain ⟨new, hnew, -⟩ := hg.handlers h old hold
  simp [hnew]

theorem Hub.Grows.home? {hub hub' : Hub σ} (hg : hub.Grows hub') {h : HandlerId} {d : DepotId}
    (hh : hub.home? h = some d) : hub'.home? h = some d := by
  obtain ⟨old, hold, rfl⟩ := Option.map_eq_some_iff.1 hh
  obtain ⟨new, hnew, hmake⟩ := hg.handlers h old hold
  simp [Hub.home?, hnew, hmake.depot]

theorem Hub.Keeps.grows {hub hub' : Hub σ} (hk : hub.Keeps hub') : hub.Grows hub' :=
  ⟨fun h old hold => ⟨old, by rw [hk.handlers, hold], .refl old⟩, Nat.le_of_eq hk.length.symm⟩

theorem Hub.Grows.trans {a b c : Hub σ} (hab : a.Grows b) (hbc : b.Grows c) : a.Grows c := by
  refine ⟨fun h old hold => ?_, Nat.le_trans hab.length hbc.length⟩
  obtain ⟨mid, hmid, hm⟩ := hab.handlers h old hold
  obtain ⟨new, hnew, hn⟩ := hbc.handlers h mid hmid
  exact ⟨new, hnew, hn.depot.trans hm.depot, hn.settings.trans hm.settings,
    hn.output.trans hm.output, hn.discard.trans hm.discard⟩

theorem Frame.Orderly.grows {hub hub' : Hub σ} (hg : hub.Grows hub') {f : Frame σ}
    (hf : f.Orderly hub) : f.Orderly hub' := by
  have hall : ∀ d l, Participant.AllAt hub d l → Participant.AllAt hub' d l :=
    fun d l h id hid => hg.home? (h id hid)
  have hlt : ∀ d, d < hub.depots.length → d < hub'.depots.length :=
    fun d hd => Nat.lt_of_lt_of_le hd hg.length
  cases f with
  | handling h p =>
    cases p <;> simp only [Frame.Orderly, Handling.Orderly] at hf ⊢ <;>
      grind [Hub.Grows.isSome]
  | offer h stale p =>
    cases p <;> simp only [Frame.Orderly, Offer.Orderly] at hf ⊢ <;> grind [Hub.Grows.isSome]
  | pass d timeout p => cases p <;> simp only [Frame.Orderly, Pass.Orderly] at hf ⊢ <;> grind
  | drop h p => trivial

theorem Frame.Orderly.resume {hub : Hub σ} {f : Frame σ} (hf : f.Orderly hub) (r : Reply) :
    (f.resume r).Orderly hub := by
  cases f with
  | handling h p =>
    cases p <;> simp only [Frame.resume, Handling.resume] <;> try exact hf
    exact ⟨hf.1, hf.2.resume r⟩
  | offer h stale p =>
    cases p <;> simp only [Frame.resume, Offer.resume] <;> try exact hf
    · exact ⟨hf.1, hf.2.resume r⟩
    · exact ⟨hf.1, hf.2.resume r⟩
  | pass d timeout p =>
    cases p <;> simp only [Frame.resume, Pass.resume] <;> try exact hf
    case waiting t g who left said =>
      obtain ⟨hd, ht, hl⟩ := hf
      split
      · refine ⟨hd, ?_, hl⟩
        rename_i outcome
        cases outcome <;> simp only [Pass.hear]
        · exact ht
        · exact ht
        · split_ifs <;> exact ht
      · trivial
    case hooked => exact ⟨hf.1, hf.2.1, hf.2.2.1, hf.2.2.2.resume r⟩
  | drop h p => trivial

theorem Handling.Goes.orderly {hub hub' : Hub σ} {handler : Handler σ} {h : HandlerId}
    {p p' : Handling σ} (hg : Goes hub handler h p hub' p') (ho : hub.Orderly)
    (hh : hub.handler? h = some handler) (hp : p.Orderly hub h) :
    hub.Keeps hub' ∧ p'.Orderly hub h := by
  have hsome : (hub.handler? h).isSome := by rw [hh]; rfl
  cases hg
  case struck => exact ⟨hub.keeps_refer h, hsome⟩
  case keyless => exact ⟨hub.keeps_refer h, hsome⟩
  case keyed => exact ⟨hub.keeps_refer h, hsome⟩
  case taken => exact ⟨hub.keeps_setDepot rfl (List.Subset.refl _), hsome⟩
  case added ha =>
    obtain ⟨s, -, rfl⟩ := (ho.service _).add ha
    exact ⟨hub.keeps_setDepot rfl (List.Subset.refl _), hsome⟩
  case complete => exact ⟨.refl hub, hsome, (ho.handlers h handler hh).1.process _⟩
  case processing hw =>
    obtain ⟨hw', ha⟩ := hp.2.goes hw
    exact ⟨ha.keeps, hsome, hw'⟩
  case removed hr =>
    rw [(ho.service _).remove] at hr
    cases hr
    exact ⟨hub.keeps_setDepot rfl (List.Subset.refl _), hsome⟩
  case released => exact ⟨hub.keeps_setDepot rfl (List.Subset.refl _), hsome⟩
  case last => exact ⟨hub.keeps_unrefer h, hsome⟩
  all_goals exact ⟨.refl hub, hsome⟩

theorem Offer.Goes.orderly {hub hub' : Hub σ} {handler : Handler σ} {h : HandlerId} {stale : Group}
    {p p' : Offer σ} (hg : Goes hub handler h stale p hub' p') (ho : hub.Orderly)
    (hh : hub.handler? h = some handler) (hp : p.Orderly hub h) :
    hub.Keeps hub' ∧ p'.Orderly hub h := by
  have hsome : (hub.handler? h).isSome := by rw [hh]; rfl
  have hdiscreet := (ho.handlers h handler hh).1
  cases hg
  case met => exact ⟨hub.keeps_refer h, hsome⟩
  case taken => exact ⟨hub.keeps_setDepot rfl (List.Subset.refl _), hsome⟩
  case completes => exact ⟨.refl hub, hsome, hdiscreet.process _⟩
  case sends hc => exact ⟨.refl hub, hsome, hdiscreet.discard _ hc _⟩
  case sending hw =>
    obtain ⟨hw', ha⟩ := hp.2.goes hw
    exact ⟨ha.keeps, hsome, hw'⟩
  case sent ha => exact ⟨ha.keeps, hsome⟩
  case completing hw =>
    obtain ⟨hw', ha⟩ := hp.2.goes hw
    exact ⟨ha.keeps, hsome, hw'⟩
  case completed ha => exact ⟨ha.keeps, hsome⟩
  case removed hr =>
    rw [(ho.service _).remove] at hr
    cases hr
    exact ⟨hub.keeps_setDepot rfl (List.Subset.refl _), hsome⟩
  case released => exact ⟨hub.keeps_setDepot rfl (List.Subset.refl _), hsome⟩
  case last => exact ⟨hub.keeps_unrefer h, hsome⟩
  case unread => exact ⟨(Hub.Alike.log hub _).keeps, hsome⟩
  case drops => exact ⟨(Hub.Alike.log hub _).keeps, hsome⟩
  case unremoved => exact ⟨(Hub.Alike.log hub _).keeps, hsome⟩
  all_goals exact ⟨.refl hub, hsome⟩

theorem Pass.Goes.orderly {hub hub' : Hub σ} {d : DepotId} {timeout : Nat} {p p' : Pass σ}
    (hg : Goes hub d timeout p hub' p') (ho : hub.Orderly) (hp : p.Orderly hub d) :
    hub.Keeps hub' ∧ p'.Orderly hub d := by
  cases hg
  case selected hne ha =>
    refine ⟨.refl hub, ?_⟩
    -- a depot that is not there has no groups
    by_contra hd
    have hnone : hub.depots[d]? = none := List.getElem?_eq_none (Nat.le_of_not_lt hd)
    have hstale : (hub.depot d).store.stale timeout hub.clock = [] := by
      simp [Hub.depot, hnone, Depot.empty, Store.stale, Store.empty, Dictionary.values,
        Dictionary.empty]
    rw [hstale] at ha
    exact hne (ha ▸ List.perm_nil.1 (ho.arrange []))
  case consulted => exact ⟨.refl hub, hp, ho.participants d⟩
  case takes => exact ⟨.refl hub, hp.1, hp.2, hp.2⟩
  case ready => exact ⟨.refl hub, hp.1⟩
  case answered => exact ⟨.refl hub, hp.1, hp.2.1⟩
  case unanswered => exact ⟨.refl hub, hp.1, hp.2.1⟩
  case hooks id left said work hsome hnone =>
    refine ⟨.refl hub, hp.1, hp.2.1, fun h hmem => hp.2.2 h (List.mem_cons_of_mem _ hmem), ?_⟩
    rcases hk : hub.hooks[id]? with _ | hook
    · rw [hnone hk]
      exact .done _
    · rw [hsome hook hk]
      exact ho.hooks hook (List.mem_of_getElem? hk) _
  case hooked hw =>
    obtain ⟨hw', ha⟩ := hp.2.2.2.goes hw
    exact ⟨ha.keeps, hp.1, hp.2.1, hp.2.2.1, hw'⟩
  case heard t g who left said work outcome hw =>
    refine ⟨.refl hub, hp.1, ?_, hp.2.2.1⟩
    cases outcome <;> simp only [Pass.hear]
    · exact hp.2.1
    · exact hp.2.1
    · split_ifs <;> exact hp.2.1
  case broken => exact ⟨.refl hub, trivial⟩
  case claimed => exact ⟨hub.keeps_setDepot rfl (List.Subset.refl _), hp⟩
  case busy => exact ⟨.refl hub, hp⟩
  case swept => exact ⟨hub.keeps_setDepot rfl (List.Subset.refl _), hp⟩
  case kept => exact ⟨hub.keeps_setDepot rfl (List.Subset.refl _), hp⟩
  case freed => exact ⟨hub.keeps_setDepot rfl (List.Subset.refl _), hp⟩

namespace Frame

variable {hub hub' : Hub σ} {f f' inner : Frame σ} {r : Reply}

theorem orderly_goes (ho : hub.Orderly) (hf : f.Orderly hub) (hs : f.step hub = .goes hub' f') :
    hub.Keeps hub' ∧ f'.Orderly hub := by
  cases f with
  | handling h p =>
    obtain ⟨handler, hh⟩ := Handling.handler_of_step hs
    obtain ⟨p', rfl, hg⟩ := Handling.goes_of_step hh hs
    exact hg.orderly ho hh hf
  | offer h stale p =>
    obtain ⟨handler, hh⟩ := Offer.handler_of_step hs
    obtain ⟨p', rfl, hg⟩ := Offer.goes_of_step hh hs
    exact hg.orderly ho hh hf
  | pass d timeout p =>
    obtain ⟨p', rfl, hg⟩ := Pass.goes_of_step hs
    exact hg.orderly ho hf
  | drop h p =>
    obtain ⟨rfl, rfl⟩ := Drop.goes_of_step hs
    exact ⟨hub.keeps_unrefer h, trivial⟩

theorem orderly_calls (hf : f.Orderly hub) (hs : f.step hub = .calls hub' f' inner) :
    hub' = hub ∧ f'.Orderly hub ∧ inner.Orderly hub := by
  have hscript : ∀ {α : Type} {s : Script σ α}, s.step hub = .calls inner → inner.Orderly hub := by
    intro α s hcall
    rcases Script.calls_of_step hcall with ⟨id, m, rfl⟩ | ⟨d, timeout, rfl⟩ <;> trivial
  cases f with
  | handling h p =>
    obtain ⟨rfl, rfl, key, g, work, -, hw⟩ := Handling.calls_of_step hs
    exact ⟨rfl, hf, hscript hw⟩
  | offer h stale p =>
    obtain ⟨rfl, rfl, ⟨g, m, left, work, -, hw⟩ | ⟨g, work, -, hw⟩⟩ := Offer.calls_of_step hs <;>
      exact ⟨rfl, hf, hscript hw⟩
  | pass d timeout p =>
    obtain ⟨rfl, ⟨t, g, h, left, said, rfl, rfl, rfl⟩
      | ⟨t, g, who, left, said, work, -, rfl, hw⟩⟩ := Pass.calls_of_step hs
    · refine ⟨rfl, ⟨hf.1, hf.2.1, fun id hmem => hf.2.2 id (List.mem_cons_of_mem _ hmem)⟩, ?_⟩
      have hhome := hf.2.2 h List.mem_cons_self
      simp only [Hub.home?, Option.map_eq_some_iff] at hhome
      obtain ⟨handler, hh, -⟩ := hhome
      simp [Frame.Orderly, Offer.Orderly, hh]
    · exact ⟨rfl, hf, hscript hw⟩
  | drop h p => exact (Drop.calls_of_step hs).elim

theorem keeps_ends (hs : f.step hub = .ends hub' r) : hub.Keeps hub' := by
  cases f with
  | handling h p =>
    obtain ⟨-, rfl⟩ | ⟨result, -, rfl, -⟩ | ⟨result, -, rfl, -⟩ := Handling.ends_of_step hs
    · exact .refl hub'
    · exact hub.keeps_unrefer h
    · exact hub.keeps_disown h
  | offer h stale p =>
    obtain ⟨-, rfl⟩ | ⟨-, rfl⟩ | ⟨outcome, -, rfl⟩ | ⟨outcome, -, rfl⟩ := Offer.ends_of_step hs
    · exact .refl hub'
    · exact .refl hub'
    · exact hub.keeps_unrefer h
    · exact hub.keeps_disown h
  | pass d timeout p =>
    obtain ⟨rfl, -⟩ | ⟨t, -, rfl⟩ := Pass.ends_of_step hs
    · exact .refl hub'
    · exact hub.keeps_setDepot rfl (List.filter_sublist.subset)
  | drop h p =>
    obtain rfl | rfl := Drop.ends_of_step hs
    · exact hub.keeps_unrefer h
    · exact hub.keeps_disown h

end Frame

structure Machine.Orderly (s : Machine σ) : Prop where
  hub : s.hub.Orderly
  frames : ∀ p f, s.frameAt p = some f → f.Orderly s.hub

theorem Activity.frame_orderly (hub : Hub σ) (a : Activity) : (a.frame).Orderly hub := by
  cases a <;> trivial

namespace Advance

variable {hub hub' : Hub σ} {at_ at' : Place → Option (Frame σ)} {notes : List Note}

theorem grows (ha : Advance hub at_ hub' at' notes) (ho : hub.Orderly)
    (hf : ∀ p f, at_ p = some f → f.Orderly hub) : hub.Grows hub' := by
  cases ha with
  | aside h => exact h.grows
  | starts a hp => exact .refl hub
  | goes hp hs => exact (Frame.orderly_goes ho (hf _ _ hp) hs).1.grows
  | calls hp hs hab => exact (Frame.orderly_calls (hf _ _ hp) hs).1 ▸ .refl hub
  | ends hp hs => exact (Frame.keeps_ends hs).grows
  | returns hp hs hg => exact (Frame.keeps_ends hs).grows

theorem frames_orderly (ha : Advance hub at_ hub' at' notes) (ho : hub.Orderly)
    (hf : ∀ p f, at_ p = some f → f.Orderly hub) : ∀ p f, at' p = some f → f.Orderly hub' := by
  have hgrows := ha.grows ho hf
  suffices h : ∀ p f, at' p = some f → f.Orderly hub from fun p f hp => (h p f hp).grows hgrows
  intro q x hq
  cases ha with
  | aside h => exact hf q x hq
  | starts a hp =>
    simp only [Function.update_apply] at hq
    split_ifs at hq
    · cases hq
      exact a.frame_orderly hub
    · exact hf q x hq
  | goes hp hs =>
    simp only [Function.update_apply] at hq
    split_ifs at hq
    · cases hq
      exact (Frame.orderly_goes ho (hf _ _ hp) hs).2
    · exact hf q x hq
  | calls hp hs hab =>
    simp only [Function.update_apply] at hq
    obtain ⟨-, hf', hinner⟩ := Frame.orderly_calls (hf _ _ hp) hs
    split_ifs at hq
    · cases hq
      exact hinner
    · cases hq
      exact hf'
    · exact hf q x hq
  | ends hp hs =>
    simp only [Function.update_apply] at hq
    split_ifs at hq
    exact hf q x hq
  | returns hp hs hg =>
    simp only [Function.update_apply] at hq
    split_ifs at hq
    · cases hq
      exact (hf _ _ hg).resume _
    · exact hf q x hq

end Advance

namespace Hub

variable {hub : Hub σ}

theorem handler?_append (hub : Hub σ) (m : Member σ) (h : HandlerId) :
    ({ hub with members := hub.members ++ [m] } : Hub σ).handler? h
      = if h = hub.members.length then some m.handler else hub.handler? h := by
  simp only [handler?, member?, getElem?_snoc]
  split_ifs <;> rfl

theorem handler?_length (hub : Hub σ) : hub.handler? hub.members.length = none := by
  simp [handler?, member?]

theorem handler?_reform (hub : Hub σ) (h other : HandlerId) (code : Handler σ) :
    ({ hub with members := hub.members.modify h fun m => { m with handler := code } } :
        Hub σ).handler? other
      = if h = other then (hub.handler? other).map fun _ => code else hub.handler? other := by
  simp only [handler?, member?, List.getElem?_modify]
  rcases hub.members[other]? with _ | m <;> by_cases he : h = other <;> simp [he]

theorem register_orderly (ho : hub.Orderly) (d : DepotId) (p : Participant) :
    hub.register d p = .ok (hub.setDepot d
      { hub.depot d with participants := (hub.depot d).participants ++ [p] }) := by
  simp only [register, (ho.service d).register]
  rfl

theorem depot_join (d other : DepotId) (p : Participant) :
    let joined := hub.setDepot d
      { hub.depot d with participants := (hub.depot d).participants ++ [p] }
    (joined.depot other).store = (hub.depot other).store
      ∧ (joined.depot other).locks = (hub.depot other).locks
      ∧ (joined.depot other).outages = (hub.depot other).outages
      ∧ ∀ q ∈ (joined.depot other).participants,
        q ∈ (hub.depot other).participants ∨ (q = p ∧ d = other) := by
  rcases Nat.lt_or_ge d hub.depots.length with hd | hd
  · simp only [depot_setDepot hub other _ hd]
    split_ifs with h
    · subst h
      refine ⟨rfl, rfl, rfl, fun q hq => ?_⟩
      rcases List.mem_append.1 hq with hq | hq
      · exact .inl hq
      · exact .inr ⟨List.mem_singleton.1 hq, rfl⟩
    · exact ⟨rfl, rfl, rfl, fun q hq => .inl hq⟩
  · rw [setDepot_of_le _ hd]
    exact ⟨rfl, rfl, rfl, fun q hq => .inl hq⟩

theorem depot_openDepot (hub : Hub σ) (capacity : Option Nat) (d : DepotId) :
    (hub.openDepot capacity).1.depot d
      = if d = hub.depots.length then .empty capacity else hub.depot d := by
  simp only [openDepot, depot, getElem?_snoc]
  split_ifs <;> rfl

theorem depot_length (hub : Hub σ) : hub.depot hub.depots.length = .empty none := by
  simp [depot]

theorem aside_of_eq {hub' : Hub σ} (hd : hub'.depots = hub.depots)
    (hm : hub'.members = hub.members) (hc : hub.clock ≤ hub'.clock) : hub.Aside hub' where
  grows := ⟨fun h old hold => ⟨old, by simpa [handler?, member?, hm] using hold, .refl old⟩,
    Nat.le_of_eq (by rw [hd])⟩
  find? d key := by simp only [depot, hd]
  lock? d key := by simp only [depot, hd]
  clock := hc

theorem orderly_join (ho : hub.Orderly) {d : DepotId} {p : Participant}
    (hp : ∀ h, p = .handler h → hub.home? h = some d) :
    let joined := hub.setDepot d
      { hub.depot d with participants := (hub.depot d).participants ++ [p] }
    hub.Aside joined ∧ joined.Orderly := by
  refine ⟨⟨⟨fun h old hold => ⟨old, hold, .refl old⟩, by simp⟩, fun other key => ?_,
    fun other key => ?_, Nat.le_refl _⟩, fun h handler hh => ?_, ho.hooks, ho.arrange,
    fun other => ?_, fun other h hmem => ?_⟩
  · rw [(depot_join d other p).1]
  · rw [(depot_join d other p).2.1]
  · simpa using ho.handlers h handler hh
  · unfold Depot.InService
    rw [(depot_join d other p).2.2.1]
    exact ho.service other
  · rcases (depot_join d other p).2.2.2 _ hmem with hold | ⟨rfl, rfl⟩
    · exact ho.participants other h hold
    · exact hp h rfl

theorem orderly_openDepot (ho : hub.Orderly) (capacity : Option Nat) :
    hub.Aside (hub.openDepot capacity).1 ∧ (hub.openDepot capacity).1.Orderly := by
  have hlength : (hub.openDepot capacity).1.depots.length = hub.depots.length + 1 := by
    simp [openDepot]
  refine ⟨⟨⟨fun h old hold => ⟨old, hold, .refl old⟩, by omega⟩, fun d key => ?_, fun d key => ?_,
    Nat.le_refl _⟩, fun h handler hh => ?_, ho.hooks, ho.arrange, fun d => ?_, fun d h hmem => ?_⟩
  · rw [depot_openDepot]
    split_ifs with hd
    · rw [hd, depot_length]
      rfl
    · rfl
  · rw [depot_openDepot]
    split_ifs with hd
    · rw [hd, depot_length]
      rfl
    · rfl
  · rw [hlength]
    exact ⟨(ho.handlers h handler hh).1, Nat.lt_succ_of_lt (ho.handlers h handler hh).2⟩
  · rw [depot_openDepot]
    split_ifs
    · exact Depot.inService_empty capacity
    · exact ho.service d
  · rw [depot_openDepot] at hmem
    split_ifs at hmem
    · cases hmem
    · exact ho.participants d h hmem

theorem orderly_enlist (ho : hub.Orderly) {hook : Group → Script σ ExpiryOutcome}
    (hd : ∀ g, (hook g).Discreet) :
    (hub.addHook hook).1.Orderly where
  handlers := ho.handlers
  hooks hook' hmem := by
    rcases List.mem_append.1 hmem with hmem | hmem
    · exact ho.hooks hook' hmem
    · exact List.mem_singleton.1 hmem ▸ hd
  arrange := ho.arrange
  service := ho.service
  participants := ho.participants

theorem orderly_engage (ho : hub.Orderly) {handler : Handler σ} (hh : handler.Discreet)
    (hd : handler.depot < hub.depots.length) :
    let joined : Hub σ := { hub with members := hub.members ++ [⟨handler, 1⟩] }
    hub.Grows joined ∧ joined.Orderly := by
  intro joined
  have hgrows : hub.Grows joined := by
    refine ⟨fun h old hold => ⟨old, ?_, .refl old⟩, Nat.le_refl _⟩
    rw [handler?_append, if_neg, hold]
    rintro rfl
    rw [handler?_length] at hold
    cases hold
  refine ⟨hgrows, fun h other hother => ?_, ho.hooks, ho.arrange, ho.service,
    fun d h hmem => hgrows.home? (ho.participants d h hmem)⟩
  rw [handler?_append] at hother
  split_ifs at hother
  · cases hother
    exact ⟨hh, hd⟩
  · exact ho.handlers h other hother

theorem orderly_build (ho : hub.Orderly) {handler : Handler σ} (hh : handler.Discreet)
    (hd : handler.depot < hub.depots.length) :
    hub.Aside (hub.build handler).1 ∧ (hub.build handler).1.Orderly := by
  obtain ⟨hgrows, hjoined⟩ := orderly_engage ho hh hd
  obtain ⟨haside, horderly⟩ := orderly_join hjoined (d := handler.depot)
    (p := .handler hub.members.length) fun h hp => by
      cases hp
      simp [home?, handler?_append]
  simp only [build]
  rw [register_orderly hjoined]
  exact ⟨⟨hgrows.trans haside.grows, haside.find?, haside.lock?, haside.clock⟩, horderly⟩

theorem orderly_reform (ho : hub.Orderly) {h : HandlerId} {code : Handler σ} (hc : code.Discreet)
    (hmake : ∀ old, hub.handler? h = some old → old.SameMake code) :
    let reformed : Hub σ :=
      { hub with members := hub.members.modify h fun m => { m with handler := code } }
    hub.Aside reformed ∧ reformed.Orderly := by
  intro reformed
  have hgrows : hub.Grows reformed := by
    refine ⟨fun other old hold => ?_, Nat.le_refl _⟩
    rw [handler?_reform, hold]
    split_ifs with heq
    · exact ⟨code, rfl, hmake old (heq ▸ hold)⟩
    · exact ⟨old, rfl, .refl old⟩
  refine ⟨⟨hgrows, fun _ _ => rfl, fun _ _ => rfl, Nat.le_refl _⟩, fun other handler hh => ?_,
    ho.hooks, ho.arrange, ho.service,
    fun d h hmem => hgrows.home? (ho.participants d h hmem)⟩
  rw [handler?_reform] at hh
  split_ifs at hh with heq
  · obtain ⟨old, hold, rfl⟩ := Option.map_eq_some_iff.1 hh
    have hdepot : code.depot = old.depot := (hmake old (heq ▸ hold)).depot
    exact ⟨hc, hdepot ▸ (ho.handlers other old hold).2⟩
  · exact ho.handlers other handler hh

theorem orderly_initial (outside : σ) (idOf : Nat → MessageId) :
    (Hub.initial outside idOf).Orderly where
  handlers h handler hh := by simp [Hub.initial, handler?, member?] at hh
  hooks hook hmem := by simp [Hub.initial] at hmem
  arrange l := .refl l
  service d := Depot.inService_empty none
  participants d h hmem := by simp [Hub.initial, depot, Depot.empty] at hmem

end Hub

namespace Machine

theorem orderly_initial (outside : σ) (idOf : Nat → MessageId) :
    (initial outside idOf).Orderly :=
  ⟨Hub.orderly_initial outside idOf, fun p f hf => by simp [frameAt, initial] at hf⟩

theorem keeps_step {s : Machine σ} (ho : s.Orderly) (i : Nat) :
    s.hub.Keeps (s.apply (.step i)).hub := by
  simp only [apply, progress]
  rcases ht : s.threads[i]? with _ | ⟨stack, reply⟩
  · exact .refl _
  rcases stack with _ | ⟨f, below⟩
  · exact .refl _
  have hf := ho.frames _ f (frameAt_top ht rfl)
  rcases hs : f.step s.hub with ⟨hub, f'⟩ | ⟨hub, f', inner⟩ | ⟨hub, r⟩ | deadline <;>
    simp only [Thread.step, hs]
  · exact (Frame.orderly_goes ho.hub hf hs).1
  · exact (Frame.orderly_calls hf hs).1 ▸ .refl _
  · rcases below with _ | ⟨g, rest⟩ <;> exact Frame.keeps_ends hs
  · exact .refl _

/-- A lawful move is an advance, and leaves the hub in good order. -/
theorem advance_move {s : Machine σ} (ho : s.Orderly) {mv : Move σ} (hl : mv.Lawful s.hub) :
    Advance s.hub s.frameAt (s.move mv).hub (s.move mv).frameAt (s.notes mv)
      ∧ (s.move mv).hub.Orderly := by
  have hbeside : ∀ {hub'}, s.hub.Aside hub' ∧ hub'.Orderly →
      Advance s.hub s.frameAt hub' s.frameAt [] ∧ hub'.Orderly :=
    fun h => ⟨.aside h.1, h.2⟩
  cases mv with
  | event e =>
    cases e with
    | start a => exact ⟨s.advance_start a, ho.hub⟩
    | step i => exact ⟨s.advance_step i, (keeps_step ho i).orderly ho.hub⟩
    | elapse n =>
      exact hbeside ⟨Hub.aside_of_eq rfl rfl (Nat.le_add_right _ _),
        ho.hub.handlers, ho.hub.hooks, ho.hub.arrange, ho.hub.service, ho.hub.participants⟩
    | build handler => exact hbeside (Hub.orderly_build ho.hub hl.1 hl.2)
  | openDepot capacity => exact hbeside (Hub.orderly_openDepot ho.hub capacity)
  | enlist d hook =>
    have hhook := Hub.orderly_enlist ho.hub hl
    obtain ⟨haside, horderly⟩ := Hub.orderly_join hhook (d := d)
      (p := .hook s.hub.hooks.length) fun h hp => by cases hp
    simp only [move, onHub, Hub.register_orderly hhook]
    exact hbeside ⟨⟨⟨haside.grows.handlers, haside.grows.length⟩, haside.find?, haside.lock?,
      haside.clock⟩, horderly⟩
  | rearrange arrange =>
    exact hbeside ⟨Hub.aside_of_eq rfl rfl (Nat.le_refl _),
      ho.hub.handlers, ho.hub.hooks, hl, ho.hub.service, ho.hub.participants⟩
  | reform h code => exact hbeside (Hub.orderly_reform ho.hub hl.1 hl.2)
  | disturb change =>
    exact hbeside ⟨Hub.aside_of_eq rfl rfl (Nat.le_refl _),
      ho.hub.handlers, ho.hub.hooks, ho.hub.arrange, ho.hub.service, ho.hub.participants⟩

theorem orderly_move {s : Machine σ} (ho : s.Orderly) {mv : Move σ} (hl : mv.Lawful s.hub) :
    (s.move mv).Orderly :=
  ⟨(advance_move ho hl).2, (advance_move ho hl).1.frames_orderly ho.hub ho.frames⟩

/-- What holds at first and goes on holding with every advance holds after every lawful run. -/
theorem along_run {P : Hub σ → (Place → Option (Frame σ)) → List Note → Prop}
    (advance : ∀ {hub at_ hub' at' notes new}, hub.Orderly →
      (∀ p f, at_ p = some f → f.Orderly hub) → Advance hub at_ hub' at' new →
      P hub at_ notes → P hub' at' (notes ++ new))
    {s : Machine σ} (ho : s.Orderly) (start : P s.hub s.frameAt []) (moves : List (Move σ))
    (hl : s.Lawful moves) : P (s.after moves).hub (s.after moves).frameAt (s.history moves) := by
  suffices h : ∀ (moves : List (Move σ)) (s : Machine σ) (notes : List Note), s.Orderly →
      P s.hub s.frameAt notes → s.Lawful moves →
      P (s.after moves).hub (s.after moves).frameAt (notes ++ s.history moves) from
    h moves s [] ho start hl
  intro moves
  induction moves with
  | nil =>
    intro s notes ho hs hl
    simpa [after, history] using hs
  | cons mv moves ih =>
    intro s notes ho hs hl
    have hnext := advance ho.hub ho.frames (advance_move ho hl.1).1 hs
    have hlast := ih (s.move mv) (notes ++ s.notes mv) (orderly_move ho hl.1) hnext hl.2
    simpa [after, history] using hlast

/-- Calls may begin, go on and wait in any order. -/
theorem lawful_events : ∀ (events : List (Event σ)) (s : Machine σ),
    (∀ e ∈ events, ∀ handler, e ≠ .build handler) → s.Lawful (events.map .event)
  | [], _, _ => trivial
  | e :: events, s, h => by
    refine ⟨?_, lawful_events events _ fun e' he => h e' (List.mem_cons_of_mem _ he)⟩
    cases e
    case build handler => exact absurd rfl (h _ List.mem_cons_self handler)
    all_goals trivial

theorem orderly_after {s : Machine σ} (ho : s.Orderly) :
    ∀ (moves : List (Move σ)), s.Lawful moves → (s.after moves).Orderly
  | [], _ => ho
  | _ :: moves, hl => orderly_after (orderly_move ho hl.1) moves hl.2

theorem lawful_append {a b : List (Move σ)} {s : Machine σ} :
    s.Lawful (a ++ b) ↔ s.Lawful a ∧ (s.after a).Lawful b := by
  induction a generalizing s with
  | nil => simp [Lawful, after]
  | cons mv a ih => simp only [List.cons_append, Lawful, ih, after, and_assoc]

theorem grows_after {s : Machine σ} (ho : s.Orderly) (moves : List (Move σ))
    (hl : s.Lawful moves) : s.hub.Grows (s.after moves).hub :=
  along_run (P := fun hub _ _ => s.hub.Grows hub)
    (fun ho hf ha hgrows => hgrows.trans (ha.grows ho hf)) ho (.refl _) moves hl

end Machine

end Collate
