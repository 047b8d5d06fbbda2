import Collate.Proofs.Conservation

/-!
# No complete group rests

The handlers of a depot may all release by one rule, which tells from the key and the messages of a
group whether it is complete. The addition that completes a group then finds the key held by the
call that added, and this call goes on to hand the group over before it lets go of the key: a
complete group is in the hands of a handling (`Prompt.inHand`). So a handling finds only incomplete
groups to add to, and completes a group with its last message. In runs without panics this holds
after every move, however the calls take turns (`Machine.no_complete_group_rests`).
-/

namespace Collate

variable {σ : Type}

/-- Tells by key and messages whether a group is complete. -/
abbrev Rule := Key → List Message → Bool

/-- The rule of the sizes that messages declare. -/
def Rule.bySequenceSize : Rule := fun key messages => Release.bySequenceSize ⟨key, messages, 0⟩

theorem Rule.lt_of_bySequenceSize {key : Key} {messages : List Message}
    (h : bySequenceSize key messages = false) {m : Message} (hm : m ∈ messages)
    (hpos : 0 < m.content.sequenceSize) : messages.length < m.content.sequenceSize := by
  by_contra hle
  rw [bySequenceSize, Release.bySequenceSize, List.any_eq_false] at h
  refine h m hm ?_
  rw [Bool.and_eq_true]
  exact ⟨decide_eq_true hpos, decide_eq_true (Nat.le_of_not_lt hle)⟩

/-- A group that without its last message has no message, or is not complete. -/
def Rule.Fresh (rule : Rule) (g : Group) : Prop :=
  g.messages.dropLast ≠ [] → rule g.key g.messages.dropLast = false

def Handler.ReleasesBy (rule : Rule) (handler : Handler σ) : Prop :=
  ∀ g, handler.release g = .returned (rule g.key g.messages)

/-- All handlers of a depot release by a rule. -/
def Hub.ReleasesBy (hub : Hub σ) (d : DepotId) (rule : Rule) : Prop :=
  ∀ h handler, hub.handler? h = some handler → handler.depot = d → handler.ReleasesBy rule

/-- The code that a move brings in. -/
def Move.code? : Move σ → Option (Handler σ)
  | .event (.build handler) => some handler
  | .reform _ code => some code
  | _ => none

/-- Whatever a move brings into a depot releases by the rule. -/
def Move.ReleasesBy (d : DepotId) (rule : Rule) (mv : Move σ) : Prop :=
  ∀ handler, mv.code? = some handler → handler.depot = d → handler.ReleasesBy rule

namespace Machine

/-- Nobody handles but who did before, or who the move brings in. -/
theorem handler?_move {s : Machine σ} (ho : s.Orderly) (mv : Move σ) {h : HandlerId}
    {handler : Handler σ} (hh : (s.move mv).hub.handler? h = some handler) :
    s.hub.handler? h = some handler ∨ mv.code? = some handler := by
  cases mv with
  | event e =>
    cases e with
    | start a => exact .inl hh
    | step i => exact .inl ((keeps_step ho i).handlers h ▸ hh)
    | elapse n => exact .inl hh
    | build code =>
      have hjoined : ({ s.hub with members := s.hub.members ++ [⟨code, 1⟩] } : Hub σ).handler? h
          = some handler := by
        simp only [move, apply, Hub.build, Hub.register] at hh
        revert hh
        rcases Depot.register _ _ with e | depot <;> intro hh
        · exact Hub.handler?_unrefer _ _ _ ▸ hh
        · exact hh
      rw [Hub.handler?_append] at hjoined
      split_ifs at hjoined
      · exact .inr hjoined
      · exact .inl hjoined
  | openDepot capacity => exact .inl hh
  | enlist d hook =>
    refine .inl ?_
    simp only [move, onHub, Hub.register] at hh
    revert hh
    rcases Depot.register _ _ with e | depot <;> exact id
  | rearrange arrange => exact .inl hh
  | reform other code =>
    simp only [move, onHub, Hub.handler?_reform] at hh
    split_ifs at hh
    · obtain ⟨old, -, rfl⟩ := Option.map_eq_some_iff.1 hh
      exact .inr rfl
    · exact .inl hh
  | disturb change => exact .inl hh

theorem releasesBy_move {s : Machine σ} (ho : s.Orderly) {d : DepotId} {rule : Rule}
    {mv : Move σ} (hmv : mv.ReleasesBy d rule) (hr : s.hub.ReleasesBy d rule) :
    (s.move mv).hub.ReleasesBy d rule := by
  intro h handler hh
  obtain hold | hnew := handler?_move ho mv hh
  · exact hr h handler hold
  · exact hmv handler hnew

end Machine

/-! ## What is in the hands of a handling -/

theorem Hub.Keeps.home? {hub hub' : Hub σ} (hk : hub.Keeps hub') (h : HandlerId) :
    hub'.home? h = hub.home? h := by
  simp only [Hub.home?, hk.handlers]

/-- How a handling stands to the group that it has in hand: it was not complete before, and it is
complete once that was decided. -/
def Handling.Timely (rule : Rule) : Handling σ → Prop
  | .deciding _ g => rule.Fresh g
  | .processing _ g _ => rule.Fresh g ∧ rule g.key g.messages = true
  | .removing _ g _ => rule.Fresh g ∧ rule g.key g.messages = true
  | _ => True

namespace Frame

def Timely (rule : Rule) : Frame σ → Prop
  | .handling _ x => x.Timely rule
  | _ => True

def isHandling : Frame σ → Bool
  | .handling .. => true
  | _ => false

theorem Timely.resume {rule : Rule} {f : Frame σ} (h : f.Timely rule) (r : Reply) :
    (f.resume r).Timely rule := by
  cases f with
  | handling id x => cases x <;> exact h
  | _ => trivial

theorem isHandling_resume (f : Frame σ) (r : Reply) : (f.resume r).isHandling = f.isHandling := by
  cases f <;> rfl

end Frame

namespace Handling.Goes

variable {hub hub' : Hub σ} {handler : Handler σ} {h : HandlerId} {x x' : Handling σ}
  {rule : Rule} {key : Key} {g : Group}

/-- A complete group stays in the hands of its handling until it is off the shelf. -/
theorem keeps_in_hand (hg : Goes hub handler h x hub' x') (ho : hub.Orderly)
    (hh : hub.handler? h = some handler) (hrule : handler.ReleasesBy rule)
    (hcalm : x.doing hub handler h x' ≠ some .panicked) (hx : x.grip = some (key, .seen g))
    (hkey : g.key = key) (hcomplete : rule key g.messages = true) :
    x'.grip = some (key, .seen g) ∨ (hub'.depot handler.depot).shelf.group? key = none := by
  cases hg
  case undecided k g' hpanic =>
    rw [hrule g'] at hpanic
    cases hpanic
  case pending k g' hpending =>
    obtain ⟨rfl, rfl⟩ : k = key ∧ g' = g := by simpa [grip, holds, sight] using hx
    rw [hrule g', hkey, hcomplete] at hpending
    cases hpending
  case complete => exact .inl hx
  case processing => exact .inl hx
  case processed => exact .inl hx
  case broken => exact absurd rfl hcalm
  case removed k g' result depot gone hr =>
    obtain ⟨rfl, rfl⟩ : k = key ∧ g' = g := by simpa [grip, holds, sight] using hx
    rw [(ho.service handler.depot).remove] at hr
    cases hr
    rw [Hub.depot_setDepot_self hub _ (ho.handlers h handler hh).2, Depot.shelf_remove]
    exact .inr (by simp)
  case unremoved hr =>
    rw [(ho.service handler.depot).remove] at hr
    cases hr
  all_goals simp [grip, holds, sight] at hx

/-- What a handling comes to have in hand is fresh if what it adds to is not complete. -/
theorem timely (hg : Goes hub handler h x hub' x') (ho : hub.Orderly)
    (hrule : handler.ReleasesBy rule) (htidy : (hub.depot handler.depot).shelf.Tidy)
    (hbefore : ∀ key m g, x = .adding key m →
      (hub.depot handler.depot).shelf.group? key = some g → rule key g.messages = false)
    (hx : ∀ key g, x.grip = some (key, .seen g) → x.Timely rule) : x'.Timely rule := by
  cases hg
  case added key m depot g ha =>
    intro hne
    obtain ⟨rfl, -⟩ := Depot.shelf_add (ho.service handler.depot) ha
    rcases hold : (hub.depot handler.depot).shelf.group? key with _ | old
    · rw [Shelf.get_of_none hold] at hne
      exact absurd rfl hne
    · rw [Shelf.get_of_group? hold, Group.messages_add, List.dropLast_concat]
      show rule old.key old.messages = false
      rw [(htidy key old hold).1]
      exact hbefore key m old rfl hold
  case complete key g hcomplete =>
    refine ⟨hx key g rfl, ?_⟩
    rw [hrule g] at hcomplete
    exact Attempt.returned.inj hcomplete
  case processing key g work work' hw => exact hx key g rfl
  case processed key g work result hw => exact hx key g rfl
  all_goals trivial

end Handling.Goes

/-- A group on a shelf was there before, or has just been added to and is seen by who added. -/
theorem Deal.group?_cases {now : Instant} {s s' : Shelf} {x x' : Option (Key × Sight)}
    {e : Option Entry} (h : Deal now s x e s' x') {key : Key} {g : Group}
    (hg : s'.group? key = some g) :
    s.group? key = some g ∨ ∃ m, e = some (.put key m now) ∧ x' = some (key, .seen g) := by
  cases h with
  | @adds k m g' hadd =>
    rw [Shelf.setGroup_group?] at hg
    split_ifs at hg with heq
    · cases hg
      exact .inr ⟨m, by rw [heq], by rw [heq]⟩
    · exact .inl hg
  | removes =>
    rw [Shelf.setGroup_group?] at hg
    split_ifs at hg
    exact .inl hg
  | _ => exact .inl hg

namespace Frame

variable {hub hub' : Hub σ} {f f' inner : Frame σ}

theorem isHandling_goes (hs : f.step hub = .goes hub' f') : f'.isHandling = f.isHandling := by
  cases f with
  | handling h x =>
    obtain ⟨handler, hh⟩ := Handling.handler_of_step hs
    obtain ⟨x', rfl, -⟩ := Handling.goes_of_step hh hs
    rfl
  | offer h stale x =>
    obtain ⟨handler, hh⟩ := Offer.handler_of_step hs
    obtain ⟨x', rfl, -⟩ := Offer.goes_of_step hh hs
    rfl
  | pass d timeout x =>
    obtain ⟨x', rfl, -⟩ := Pass.goes_of_step hs
    rfl
  | drop h x =>
    obtain ⟨rfl, -⟩ := Drop.goes_of_step hs
    rfl

/-- Only handlings add. -/
theorem isHandling_of_put {under : Option (Frame σ)} {d : DepotId} {key : Key} {m : Message}
    {time : Instant}
    (h : (f.doing hub under f').bind (Doing.posting? d) = some (.put key m time)) :
    f.isHandling = true := by
  obtain ⟨x, hx, hput⟩ := Option.bind_eq_some_iff.1 h
  have hadded : ∃ id, x = .added id d key m time := by
    cases x <;> simp only [Doing.posting?, reduceCtorEq] at hput
    case added id d' k m' t =>
      split_ifs at hput with heq
      cases hput
      exact ⟨id, by rw [heq]⟩
    case removed =>
      split_ifs at hput
      cases hput
  obtain ⟨id, rfl⟩ := hadded
  cases f with
  | handling => rfl
  | offer h stale x =>
    cases f' <;> simp only [doing, reduceCtorEq] at hx
    obtain ⟨handler, -, hx⟩ := Option.bind_eq_some_iff.1 hx
    unfold Offer.doing Depot.removal at hx
    split at hx <;> try cases hx
    split at hx <;> cases hx
  | pass d' timeout x =>
    cases f' <;> simp only [doing, reduceCtorEq] at hx
    unfold Pass.doing at hx
    split at hx <;> cases hx
  | drop h x => simp [doing] at hx

end Frame

/-! ## Prompt handlings -/

/-- Complete groups are in hand, and handlings are timely with what they have in hand. -/
structure Prompt (rule : Rule) (hub : Hub σ) (at_ : Place → Option (Frame σ)) (d : DepotId) :
    Prop where
  inHand : ∀ key g, (hub.depot d).shelf.group? key = some g → rule key g.messages = true →
    ∃ p f, at_ p = some f ∧ f.isHandling = true ∧ f.grip hub d = some (key, .seen g)
  timely : ∀ p f key g, at_ p = some f → f.grip hub d = some (key, .seen g) → f.Timely rule

namespace Prompt

variable {rule : Rule} {hub hub' : Hub σ} {at_ at' : Place → Option (Frame σ)} {d : DepotId}
  {new : List Note}

/-- A handling in the depot that adds to a group under its key finds it incomplete: were it
complete, another handling would have it in hand. -/
theorem incomplete_of_adding (hp : Prompt rule hub at_ d)
    (hs : Sound (hub.depot d).shelf (grips hub at_ d)) {p : Place} {h : HandlerId} {key : Key}
    {m : Message} (hat : at_ p = some (.handling h (.adding key m))) (hhome : hub.home? h = some d)
    {g : Group} (hg : (hub.depot d).shelf.group? key = some g) : rule key g.messages = false := by
  by_contra hcomplete
  obtain ⟨q, f, hq, -, hgrip⟩ := hp.inHand key g hg (by simpa using hcomplete)
  have hadds : grips hub at_ d p = some (key, .blank) := by
    simp only [grips, hat, Option.bind_some, Frame.grip_handling, if_pos hhome]
    rfl
  have hholds : grips hub at_ d q = some (key, .seen g) := by
    simp only [grips, hq, Option.bind_some, hgrip]
  obtain rfl := hs.apart p q key _ _ hadds hholds
  rw [hadds] at hholds
  cases hholds

/-- A step of a call at its place. -/
theorem goes (hp : Prompt rule hub at_ d) (ho : hub.Orderly)
    (hf : ∀ p f, at_ p = some f → f.Orderly hub) (hr : hub.ReleasesBy d rule)
    (hs : Sound (hub.depot d).shelf (grips hub at_ d)) {p : Place} {f f' : Frame σ}
    (hat : at_ p = some f) (hstep : f.step hub = .goes hub' f')
    (hcalm : f.doing hub (p.below?.bind at_) f' ≠ some .panicked) :
    Prompt rule hub' (Function.update at_ p (some f')) d := by
  have hkeeps := (Frame.orderly_goes ho (hf p f hat) hstep).1
  have hdeal := Frame.deal_goes ho (hf p f hat) hstep (p.below?.bind at_) d
  have hsame : ∀ q f, at_ q = some f → f.grip hub' d = f.grip hub d :=
    fun q f hq => (hf q f hq).grip_grows hkeeps.grows
  refine ⟨fun key g hg hcomplete => ?_, fun q y key g hq hgrip => ?_⟩
  · obtain hold | ⟨m, hput, hseen⟩ := hdeal.group?_cases hg
    · obtain ⟨q, y, hq, hy, hgrip⟩ := hp.inHand key g hold hcomplete
      by_cases heq : q = p
      · subst heq
        obtain rfl : y = f := Option.some.inj (hq.symm.trans hat)
        refine ⟨q, f', Function.update_self .., Frame.isHandling_goes hstep ▸ hy, ?_⟩
        cases y with
        | handling h x =>
          obtain ⟨handler, hh⟩ := Handling.handler_of_step hstep
          obtain ⟨x', rfl, hgoes⟩ := Handling.goes_of_step hh hstep
          rw [Frame.grip_handling] at hgrip
          split_ifs at hgrip with hhome
          obtain rfl : handler.depot = d :=
            Option.some.inj ((Hub.home?_of_handler? hh).symm.trans hhome)
          have hkey : g.key = key := (hs.tidy key g hold).1
          obtain hstays | hgone := hgoes.keeps_in_hand ho hh (hr h handler hh rfl)
            (by simpa only [Frame.doing, hh, Option.bind_some] using hcalm) hgrip hkey hcomplete
          · rw [Frame.grip_handling, hkeeps.home?, if_pos hhome, hstays]
          · rw [hgone] at hg
            cases hg
        | _ => cases hy
      · exact ⟨q, y, by rw [Function.update_of_ne heq, hq], hy, (hsame q y hq).trans hgrip⟩
    · refine ⟨p, f', Function.update_self .., ?_, hseen⟩
      exact (Frame.isHandling_goes hstep).trans (Frame.isHandling_of_put hput)
  · by_cases heq : q = p
    · subst heq
      rw [Function.update_self] at hq
      obtain rfl := Option.some.inj hq
      cases f with
      | handling h x =>
        obtain ⟨handler, hh⟩ := Handling.handler_of_step hstep
        obtain ⟨x', rfl, hgoes⟩ := Handling.goes_of_step hh hstep
        rw [Frame.grip_handling, hkeeps.home?] at hgrip
        split_ifs at hgrip with hhome
        obtain rfl : handler.depot = d :=
          Option.some.inj ((Hub.home?_of_handler? hh).symm.trans hhome)
        refine hgoes.timely ho (hr h handler hh rfl) hs.tidy (fun key m g hx hg => ?_)
          fun key g hx => ?_
        · exact hp.incomplete_of_adding hs (hx ▸ hat) hhome hg
        · exact hp.timely q _ key g hat (by rw [Frame.grip_handling, if_pos hhome, hx])
      | offer h stale x =>
        obtain ⟨handler, hh⟩ := Offer.handler_of_step hstep
        obtain ⟨x', rfl, -⟩ := Offer.goes_of_step hh hstep
        trivial
      | pass d' timeout x =>
        obtain ⟨x', rfl, -⟩ := Pass.goes_of_step hstep
        trivial
      | drop h x =>
        obtain ⟨rfl, -⟩ := Drop.goes_of_step hstep
        trivial
    · rw [Function.update_of_ne heq] at hq
      exact hp.timely q y key g hq ((hsame q y hq).symm.trans hgrip)

/-- A call that goes on as it was, as far as its group is concerned. -/
structure Stays (rule : Rule) (hub hub' : Hub σ) (d : DepotId) (f f' : Frame σ) : Prop where
  isHandling : f'.isHandling = f.isHandling
  grip : f'.grip hub' d = f.grip hub d
  timely : f.Timely rule → f'.Timely rule

/-- A move in which no call that has a group in hand acts on it. -/
theorem spared (hp : Prompt rule hub at_ d)
    (hgroup : (hub'.depot d).shelf.group? = (hub.depot d).shelf.group?)
    (hstays : ∀ q, (∃ f f', at_ q = some f ∧ at' q = some f' ∧ Stays rule hub hub' d f f')
      ∨ grips hub at_ d q = none ∧ grips hub' at' d q = none) :
    Prompt rule hub' at' d := by
  refine ⟨fun key g hg hcomplete => ?_, fun q f' key g hq hgrip => ?_⟩
  · rw [hgroup] at hg
    obtain ⟨q, f, hq, hf, hgrip⟩ := hp.inHand key g hg hcomplete
    obtain ⟨f₀, f', hf₀, hf', hstay⟩ | ⟨hnone, -⟩ := hstays q
    · obtain rfl : f₀ = f := Option.some.inj (hf₀.symm.trans hq)
      exact ⟨q, f', hf', hstay.isHandling.trans hf, hstay.grip.trans hgrip⟩
    · simp [grips, hq, hgrip] at hnone
  · obtain ⟨f, f₁, hf, hf₁, hstay⟩ | ⟨-, hnone⟩ := hstays q
    · obtain rfl : f₁ = f' := Option.some.inj (hf₁.symm.trans hq)
      exact hstay.timely (hp.timely q f key g hf (hstay.grip.symm.trans hgrip))
    · simp [grips, hq, hgrip] at hnone

theorem stays_calls {f f' inner : Frame σ} (hstep : f.step hub = .calls hub' f' inner) :
    Stays rule hub hub' d f f' := by
  obtain ⟨rfl, hgrip, -⟩ := Frame.grip_calls hstep d
  cases f with
  | handling h x =>
    obtain ⟨-, rfl, -⟩ := Handling.calls_of_step hstep
    exact ⟨rfl, hgrip, id⟩
  | offer h stale x =>
    obtain ⟨-, rfl, -⟩ := Offer.calls_of_step hstep
    exact ⟨rfl, hgrip, id⟩
  | pass d' timeout x =>
    obtain ⟨-, ⟨t, g, h, left, said, -, rfl, -⟩ | ⟨t, g, who, left, said, work, -, rfl, -⟩⟩ :=
      Pass.calls_of_step hstep <;> exact ⟨rfl, hgrip, fun _ => trivial⟩
  | drop h x => exact (Drop.calls_of_step hstep).elim

theorem advance (hp : Prompt rule hub at_ d) (ho : hub.Orderly)
    (hf : ∀ p f, at_ p = some f → f.Orderly hub) (hr : hub.ReleasesBy d rule)
    (hs : Sound (hub.depot d).shelf (grips hub at_ d)) (ha : Advance hub at_ hub' at' new)
    (hcalm : ∀ p, .did p .panicked ∉ new) : Prompt rule hub' at' d := by
  have hgrows := ha.grows ho hf
  have hsame : ∀ q f, at_ q = some f → f.grip hub' d = f.grip hub d :=
    fun q f hq => (hf q f hq).grip_grows hgrows
  have huntouched : ∀ q, at' q = at_ q →
      (∃ f f', at_ q = some f ∧ at' q = some f' ∧ Stays rule hub hub' d f f')
        ∨ grips hub at_ d q = none ∧ grips hub' at' d q = none := by
    intro q hq
    rcases hf : at_ q with _ | f
    · exact .inr ⟨by simp [grips, hf], by simp [grips, hq, hf]⟩
    · exact .inl ⟨f, f, rfl, hq.trans hf, rfl, hsame q f hf, id⟩
  cases ha with
  | aside h => exact hp.spared (by rw [Advance.shelf_aside h]) fun q => huntouched q rfl
  | @starts p a hnone =>
    refine hp.spared rfl fun q => ?_
    by_cases hq : q = p
    · subst hq
      refine .inr ⟨by simp [grips, hnone], ?_⟩
      cases a with
      | handle h m =>
        simp [grips, Activity.frame, Frame.grip_handling, Handling.grip, Handling.holds]
      | expire d' timeout => simp [grips, Activity.frame, Frame.grip_pass, Pass.grip, Pass.holds]
      | drop h => simp [grips, Activity.frame, Frame.grip_drop]
    · exact huntouched q (Function.update_of_ne hq ..)
  | @goes p f hub' f' hat hstep =>
    refine hp.goes ho hf hr hs hat hstep fun hpanic => hcalm p ?_
    rw [hpanic]
    exact List.mem_singleton_self _
  | @calls p f hub' f' inner hat hstep hab =>
    obtain ⟨rfl, -, hinner⟩ := Frame.grip_calls hstep d
    refine hp.spared rfl fun q => ?_
    by_cases hq : q = p.above
    · subst hq
      exact .inr ⟨by simp [grips, hab], by simp [grips, hinner]⟩
    · by_cases hqp : q = p
      · subst hqp
        refine .inl ⟨f, f', hat, ?_, stays_calls hstep⟩
        rw [Function.update_of_ne hq, Function.update_self]
      · refine huntouched q ?_
        rw [Function.update_of_ne hq, Function.update_of_ne hqp]
  | @ends p f hub' r hat hstep =>
    obtain ⟨hnone, hdeal⟩ := Frame.deal_ends ho hstep d
    refine hp.spared hdeal.group?_eq fun q => ?_
    by_cases hq : q = p
    · subst hq
      exact .inr ⟨by simp [grips, hat, hnone], by simp [grips]⟩
    · exact huntouched q (Function.update_of_ne hq ..)
  | @returns p f g hub' r hat hstep hg =>
    obtain ⟨hnone, hdeal⟩ := Frame.deal_ends ho hstep d
    refine hp.spared hdeal.group?_eq fun q => ?_
    by_cases hq : q = p
    · subst hq
      refine .inl ⟨g, g.resume r, hg, Function.update_self .., g.isHandling_resume r, ?_,
        fun ht => ht.resume r⟩
      rw [Frame.grip_resume, hsame q g hg]
    · by_cases hqa : q = p.above
      · subst hqa
        refine .inr ⟨by simp [grips, hat, hnone], ?_⟩
        simp [grips, Function.update_of_ne p.above_ne]
      · refine huntouched q ?_
        rw [Function.update_of_ne hq, Function.update_of_ne hqa]

end Prompt

/-! ## What is completed -/

/-- A call that added to a depot and then completed a group: one that is complete, and was not
before the last message. -/
def InTime (d : DepotId) (rule : Rule) (c : List Doing) : Prop :=
  ∀ h key m t h' g called, .added h d key m t ∈ c → .completed h' g called ∈ c →
    rule g.key g.messages = true ∧ rule.Fresh g

theorem InTime.nil (d : DepotId) (rule : Rule) : InTime d rule [] := by
  intro h key m t h' g called hadded
  cases hadded

/-- Neither an addition nor a completion. -/
theorem InTime.snoc {d : DepotId} {rule : Rule} {c : List Doing} {x : Doing} (hc : InTime d rule c)
    (hadded : ∀ h key m t, x ≠ .added h d key m t)
    (hcompleted : ∀ h g called, x ≠ .completed h g called) : InTime d rule (c ++ [x]) := by
  intro h key m t h' g called ha hg
  refine hc h key m t h' g called ?_ ?_
  · simpa [(hadded h key m t).symm] using ha
  · simpa [(hcompleted h' g called).symm] using hg

namespace Frame

variable {hub hub' : Hub σ} {f f' : Frame σ} {c : List Doing} {d : DepotId} {rule : Rule}
  {under : Option (Frame σ)}

theorem removal_ne {depot : Depot} {key : Key} {now : Instant} {by_ : Remover} {x : Doing}
    (h : depot.removal d key now by_ = some x) : ∃ g, x = .removed d key g now by_ := by
  unfold Depot.removal at h
  split at h
  · cases h
    exact ⟨_, rfl⟩
  · cases h

/-- Who adds has done no more than to name the key. -/
theorem Tells.of_added {h : HandlerId} {key : Key} {m : Message} {t : Instant} (ht : f.Tells hub c)
    (hx : f.doing hub under f' = some (.added h d key m t)) : ∃ h m key, c = [.named h m key] := by
  cases f <;> cases f' <;> simp only [doing, reduceCtorEq] at hx
  case handling.handling id y id' y' =>
    obtain ⟨handler, -, hx⟩ := Option.bind_eq_some_iff.1 hx
    unfold Handling.doing at hx
    split at hx <;> try cases hx
    · exact ⟨_, _, _, ht⟩
    · obtain ⟨g, hg⟩ := removal_ne hx
      cases hg
  case offer.offer id stale y id' stale' y' =>
    obtain ⟨handler, -, hx⟩ := Option.bind_eq_some_iff.1 hx
    unfold Offer.doing at hx
    split at hx <;> try cases hx
    obtain ⟨g, hg⟩ := removal_ne hx
    cases hg
  case pass.pass d' timeout y d'' timeout' y' =>
    unfold Pass.doing at hx
    split at hx <;> cases hx

/-- Who completes a group has done nothing before, if the group expired, and has added the last
message otherwise. -/
theorem Tells.of_completed {h : HandlerId} {g : Group} {called : Bool} (ht : f.Tells hub c)
    (hx : f.doing hub under f' = some (.completed h g called)) :
    c = [] ∨ ∃ id key d m t, f = .handling id (.deciding key g) ∧ hub.home? id = some d
      ∧ c = [.named id m key, .added id d key m t] := by
  cases f <;> cases f' <;> simp only [doing, reduceCtorEq] at hx
  case handling.handling id y id' y' =>
    obtain ⟨handler, -, hx⟩ := Option.bind_eq_some_iff.1 hx
    unfold Handling.doing at hx
    split at hx <;> try cases hx
    · obtain ⟨d, m, t, hhome, rfl⟩ := ht
      exact .inr ⟨_, _, d, m, t, rfl, hhome, rfl⟩
    · obtain ⟨g, hg⟩ := removal_ne hx
      cases hg
  case offer.offer id stale y id' stale' y' =>
    obtain ⟨handler, -, hx⟩ := Option.bind_eq_some_iff.1 hx
    unfold Offer.doing at hx
    split at hx <;> try cases hx
    · exact .inl ht
    · obtain ⟨g, hg⟩ := removal_ne hx
      cases hg
  case pass.pass d' timeout y d'' timeout' y' =>
    unfold Pass.doing at hx
    split at hx <;> cases hx

/-- A call that completes a group in time goes on to be one. -/
theorem inTime_goes (ht : f.Tells hub c) (hc : InTime d rule c) (hr : hub.ReleasesBy d rule)
    (htimely : ∀ key g, f.grip hub d = some (key, .seen g) → f.Timely rule)
    (hstep : f.step hub = .goes hub' f') (under : Option (Frame σ)) :
    InTime d rule (c ++ (f.doing hub under f').toList) := by
  rcases hx : f.doing hub under f' with _ | x
  · simpa using hc
  cases x with
  | added id d' key m t =>
    obtain ⟨id, m', k, rfl⟩ := ht.of_added hx
    intro h key m t h' g called _ hg
    simp at hg
  | completed id g called =>
    obtain rfl | ⟨h, key, d', m, t, rfl, hhome, rfl⟩ := ht.of_completed hx
    · intro h key m t h' g called hadded _
      simp at hadded
    · have hdecides : (Handling.deciding key g : Handling σ).step hub h = .goes hub' f' := hstep
      obtain ⟨handler, hh⟩ := Handling.handler_of_step hdecides
      obtain ⟨y', rfl, hgoes⟩ := Handling.goes_of_step hh hdecides
      simp only [doing, hh, Option.bind_some] at hx
      intro h' key' m' t' h'' g' called' hadded hg
      simp only [Option.toList_some, List.cons_append, List.nil_append, List.mem_cons,
        reduceCtorEq, List.not_mem_nil, or_false, false_or, Doing.added.injEq,
        Doing.completed.injEq] at hadded hg
      obtain ⟨-, rfl, -⟩ := hadded
      obtain ⟨-, rfl, -⟩ := hg
      refine ⟨?_, htimely key g' (by rw [grip_handling, if_pos hhome]; rfl)⟩
      have hdepot : handler.depot = d :=
        Option.some.inj ((Hub.home?_of_handler? hh).symm.trans hhome)
      cases hgoes with
      | undecided => cases hx
      | pending => cases hx
      | complete hcomplete =>
        rw [hr h handler hh hdepot g'] at hcomplete
        exact Attempt.returned.inj hcomplete
  | _ => exact hc.snoc (by simp) (by simp)

end Frame

/-- What the calls did stays in time. -/
theorem InTime.advance {d : DepotId} {rule : Rule} {hub hub' : Hub σ}
    {at_ at' : Place → Option (Frame σ)} {notes new : List Note}
    (hc : ∀ p, ∀ c ∈ calls p notes, InTime d rule c) (hr : hub.ReleasesBy d rule)
    (ht : ∀ p, Told hub (at_ p) (calls p notes)) (hp : Prompt rule hub at_ d)
    (ha : Advance hub at_ hub' at' new) :
    ∀ p, ∀ c ∈ calls p (notes ++ new), InTime d rule c := by
  have hcame : ∀ q p, ∀ c ∈ calls p (notes ++ [Note.came q]), InTime d rule c := by
    intro q p c hmem
    rw [calls_came] at hmem
    split_ifs at hmem
    · obtain rfl | hmem := List.mem_cons.1 hmem
      · exact .nil d rule
      · exact hc p c hmem
    · exact hc p c hmem
  cases ha with
  | aside => simpa using hc
  | starts => exact hcame _
  | @goes p f hub' f' hat hstep =>
    intro q c hmem
    by_cases hq : q = p
    · subst hq
      obtain ⟨c₀, older, hcalls, htells, -⟩ := (hat ▸ ht q).newest
      rw [calls_did hcalls] at hmem
      obtain rfl | hmem := List.mem_cons.1 hmem
      · refine Frame.inTime_goes htells (hc q c₀ (by simp [hcalls])) hr (fun key g hgrip => ?_)
          hstep _
        exact hp.timely q f key g hat hgrip
      · exact hc q c (by simp [hcalls, hmem])
    · rw [calls_did_ne (Ne.symm hq)] at hmem
      exact hc q c hmem
  | calls => exact hcame _
  | ends => simpa using hc
  | returns => simpa using hc

/-! ## Runs -/

namespace Machine

/-- What holds at first and goes on holding with every advance under handlers that release by a rule
holds after every lawful run that brings in no others. -/
theorem along_ruled {d : DepotId} {rule : Rule}
    {P : Hub σ → (Place → Option (Frame σ)) → List Note → Prop}
    (advance : ∀ {hub at_ hub' at' notes new}, hub.Orderly →
      (∀ p f, at_ p = some f → f.Orderly hub) → hub.ReleasesBy d rule →
      (∀ p, .did p .panicked ∉ new) → Advance hub at_ hub' at' new →
      P hub at_ notes → P hub' at' (notes ++ new))
    {s : Machine σ} (ho : s.Orderly) (hr : s.hub.ReleasesBy d rule)
    (start : P s.hub s.frameAt []) (moves : List (Move σ)) (hl : s.Lawful moves)
    (hrule : ∀ mv ∈ moves, mv.ReleasesBy d rule)
    (hcalm : ∀ p, .did p .panicked ∉ s.history moves) :
    P (s.after moves).hub (s.after moves).frameAt (s.history moves) := by
  suffices h : ∀ (moves : List (Move σ)) (s : Machine σ) (notes : List Note), s.Orderly →
      s.hub.ReleasesBy d rule → P s.hub s.frameAt notes → s.Lawful moves →
      (∀ mv ∈ moves, mv.ReleasesBy d rule) → (∀ p, .did p .panicked ∉ s.history moves) →
      P (s.after moves).hub (s.after moves).frameAt (notes ++ s.history moves) from
    h moves s [] ho hr start hl hrule hcalm
  intro moves
  induction moves with
  | nil =>
    intro s notes ho hr hs hl hrule hcalm
    simpa [after, history] using hs
  | cons mv moves ih =>
    intro s notes ho hr hs hl hrule hcalm
    obtain ⟨hmv, hrule⟩ := List.forall_mem_cons.1 hrule
    have hnext := advance ho.hub ho.frames hr
      (fun p hp => hcalm p (List.mem_append_left _ hp)) (advance_move ho hl.1).1 hs
    have hlast := ih (s.move mv) (notes ++ s.notes mv) (orderly_move ho hl.1)
      (releasesBy_move ho hmv hr) hnext hl.2 hrule
      fun p hp => hcalm p (List.mem_append_right _ hp)
    simpa [after, history] using hlast

/-- In every run without panics whose handlers in a depot all release by one rule, no group rests in
the depot that is complete, and a call that adds a message and completes a group completes one that
was not complete without it. Under the rule of declared sizes a group that rests is smaller than
every size declared in it. -/
theorem no_complete_group_rests {outside : σ} {idOf : Nat → MessageId} {d : DepotId} {rule : Rule}
    {moves : List (Move σ)} (hl : (initial outside idOf).Lawful moves)
    (hrule : ∀ mv ∈ moves, mv.ReleasesBy d rule)
    (hcalm : ∀ p, .did p .panicked ∉ (initial outside idOf).history moves) :
    let depot := ((initial outside idOf).after moves).hub.depot d
    let notes := (initial outside idOf).history moves
    (∀ key g, depot.store.find? key = some g → depot.locks.isHeld key = false →
        rule key g.messages = false
          ∧ (rule = .bySequenceSize → ∀ m ∈ g.messages, 0 < m.content.sequenceSize →
              g.size < m.content.sequenceSize))
      ∧ ∀ p, ∀ c ∈ calls p notes, ∀ h key m t h' g called,
          .added h d key m t ∈ c → .completed h' g called ∈ c →
          rule g.key g.messages = true
            ∧ (g.messages.dropLast ≠ [] → rule g.key g.messages.dropLast = false) := by
  intro depot notes
  have ho : (initial outside idOf).Orderly := orderly_initial outside idOf
  have hnobody : ∀ p, (initial outside idOf).frameAt p = none :=
    fun p => by simp [frameAt, initial]
  have htold : ∀ p, Told (initial outside idOf).hub ((initial outside idOf).frameAt p)
      (calls p []) := by
    intro p c hc
    cases hc
  have hprompt : Prompt rule (initial outside idOf).hub (initial outside idOf).frameAt d :=
    ⟨fun key g hg => (by cases hg), fun p f key g hf => by rw [hnobody] at hf; cases hf⟩
  obtain ⟨hsound, -, hprompt, hcalls⟩ := along_ruled
    (P := fun hub at_ notes => (∀ d, Sound (hub.depot d).shelf (grips hub at_ d))
      ∧ (∀ p, Told hub (at_ p) (calls p notes)) ∧ Prompt rule hub at_ d
      ∧ ∀ p, ∀ c ∈ calls p notes, InTime d rule c)
    (fun ho hf hr hcalm ha h => ⟨fun d => ha.sound ho hf d (h.1 d),
      Told.advance ha ho hf h.1 h.2.1, h.2.2.1.advance ho hf hr (h.1 d) ha hcalm,
      InTime.advance h.2.2.2 hr h.2.1 h.2.2.1 ha⟩)
    ho (fun h handler hh => by simp [initial, Hub.initial, Hub.handler?, Hub.member?] at hh)
    ⟨sound_initial outside idOf, htold, hprompt, fun p c hc => by cases hc⟩ moves hl hrule hcalm
  refine ⟨fun key g hg hfree => ?_, fun p c hc => hcalls p c hc⟩
  have hincomplete : rule key g.messages = false := by
    by_contra hcomplete
    obtain ⟨p, f, hp, -, hgrip⟩ := hprompt.inHand key g hg (by simpa using hcomplete)
    obtain ⟨e, he, hheld⟩ := (hsound d).held p key (.seen g) (by simp [grips, hp, hgrip])
    have hfind : depot.locks.find? key = some e := he
    rw [KeyLocks.isHeld, hfind, Option.any_some, hheld] at hfree
    cases hfree
  refine ⟨hincomplete, fun heq m hm hpos => ?_⟩
  subst heq
  exact Rule.lt_of_bySequenceSize hincomplete hm hpos

end Machine

/-! ## A third message of a kind -/

/-- Two messages make a group. -/
def Rule.twice : Rule := fun _ messages => 2 ≤ messages.length

/-- Two threads take turns with a pair; then a third message of the same kind comes in. -/
def tripleTurns : List (Event Unit) :=
  pairTurns ++ Event.start (.handle 0 (plain "third")) :: List.replicate 6 (Event.step 2)

def tripleRun : List (Move Unit) :=
  .openDepot none :: .event (.build pairing) :: tripleTurns.map .event

theorem build_notMem_tripleTurns : ∀ e ∈ tripleTurns, ∀ handler, e ≠ .build handler := by
  rintro e he handler rfl
  simp [tripleTurns, pairTurns] at he

theorem lawful_tripleRun : (Machine.initial () fun _ => ⟨""⟩).Lawful tripleRun :=
  ⟨trivial, ⟨discreet_pairing, Nat.zero_lt_one⟩,
    Machine.lawful_events _ _ build_notMem_tripleTurns⟩

theorem tripleRun_releasesBy : ∀ mv ∈ tripleRun, mv.ReleasesBy 0 .twice := by
  intro mv hmv handler hcode hdepot g
  obtain rfl | hmv := List.mem_cons.1 hmv
  · cases hcode
  obtain rfl | hmv := List.mem_cons.1 hmv
  · cases hcode
    rfl
  obtain ⟨e, he, rfl⟩ := List.mem_map.1 hmv
  cases e with
  | build code => exact absurd rfl (build_notMem_tripleTurns _ he code)
  | _ => cases hcode

def Note.isPanic : Note → Bool
  | .did _ .panicked => true
  | _ => false

theorem tripleRun_calm (p : Place) :
    .did p .panicked ∉ (Machine.initial () fun _ => ⟨""⟩).history tripleRun := by
  intro hp
  have hnone : ((Machine.initial () fun _ => ⟨""⟩).history tripleRun).any Note.isPanic = false :=
    rfl
  exact absurd rfl (List.any_eq_false.1 hnone _ hp)

/-- The third message rests alone. -/
theorem tripleRun_rests :
    (Machine.initial () fun _ => ⟨""⟩).Lawful tripleRun
      ∧ (∀ mv ∈ tripleRun, mv.ReleasesBy 0 .twice)
      ∧ (∀ p, .did p .panicked ∉ (Machine.initial () fun _ => ⟨""⟩).history tripleRun)
      ∧ ∃ g, (((Machine.initial () fun _ => ⟨""⟩).after tripleRun).hub.depot 0).store.find?
          ⟨"pair"⟩ = some g
        ∧ g.messages = [plain "third"] ∧ Rule.twice ⟨"pair"⟩ g.messages = false := by
  have hrests := (Machine.no_complete_group_rests lawful_tripleRun tripleRun_releasesBy
    tripleRun_calm).1 ⟨"pair"⟩ ⟨⟨"pair"⟩, [plain "third"], 0⟩ rfl rfl
  exact ⟨lawful_tripleRun, tripleRun_releasesBy, tripleRun_calm, _, rfl, rfl, hrests.1⟩

end Collate
