import Collate.Proofs.Expiry
import Collate.Proofs.Owners

/-!
# Groups expire through their owners

A handler that is there is on the register of its depot, so a pass offers it every group that it
selected. As long as the handler that started a group is there, the group waits for the answer of
that handler (`Attends`): a pass sweeps up only groups whose starters are gone, and an offer takes
the key of such a group only if it is one to its starter. What the offer then does with the group is
what the settings of the handler say (`Handler.expiryDoings`).
-/

namespace Collate

variable {σ : Type}

/-! ## What a handler does with a group that expires -/

/-- What the books note of a handler that expires a group, before it removes the group. -/
def Handler.expiryDoings (handler : Handler σ) (h : HandlerId) (g : Group) : List Doing :=
  match handler.settings.expiryAction with
  | .forceComplete => [.completed h g handler.output.isSome]
  | .discard =>
    if handler.discard.isSome then .discarded h g true :: g.messages.map .sent
    else [.discarded h g false]

theorem Handler.SameMake.expiryDoings {a b : Handler σ} (h : a.SameMake b) :
    b.expiryDoings = a.expiryDoings := by
  funext id g
  simp only [Handler.expiryDoings, h.settings, h.output, h.discard]

/-- What an offer has noted at a phase, by the settings of its handler. -/
def Offer.Pays (handler : Handler σ) (h : HandlerId) (c : List Doing) : Offer σ → Prop
  | .meeting => c = []
  | .seizing => c = []
  | .rereading => c = []
  | .discarding g left => ∃ gone, g.messages = gone ++ left
      ∧ c = .discarded h g true :: gone.map .sent
      ∧ handler.expiryDoings h g = .discarded h g true :: g.messages.map .sent
  | .sending g _ left _ => ∃ gone, g.messages = gone ++ left
      ∧ c = .discarded h g true :: gone.map .sent
      ∧ handler.expiryDoings h g = .discarded h g true :: g.messages.map .sent
  | .completing g _ => c = handler.expiryDoings h g
  | .removing g => c = handler.expiryDoings h g
  | _ => True

/-- An offer that has left its group alone or dealt with it does not call its handler gone. -/
def Offer.Answers : Offer σ → Prop
  | .releasing _ outcome => outcome ≠ .returned .detached
  | .leaving outcome => outcome ≠ .returned .detached
  | .disowning outcome => outcome ≠ .returned .detached
  | _ => True

namespace Offer

variable {hub hub' : Hub σ} {handler : Handler σ} {h : HandlerId} {stale : Group} {p p' : Offer σ}
  {c : List Doing}

theorem Pays.make {new : Handler σ} (hm : handler.SameMake new) (hp : p.Pays handler h c) :
    p.Pays new h c := by
  cases p <;> simp only [Pays, hm.expiryDoings] at hp ⊢ <;> exact hp

theorem Goes.pays (hg : Goes hub handler h stale p hub' p') (hp : p.Pays handler h c)
    (timeout : Option Nat) :
    p'.Pays handler h (c ++ (p.doing hub handler h stale timeout p').toList) := by
  cases hg
  case completes g _ haction =>
    cases hp
    simp [Pays, doing, Handler.expiryDoings, haction]
  case discards g _ haction hsome =>
    cases hp
    exact ⟨[], rfl, rfl, by simp [Handler.expiryDoings, haction, hsome]⟩
  case drops g _ _ haction hnone =>
    cases hp
    simp [Pays, doing, Handler.expiryDoings, haction, hnone]
  case discarded g =>
    obtain ⟨gone, hgone, rfl, hdoings⟩ := hp
    rw [List.append_nil] at hgone
    simp [Pays, doing, hdoings, hgone]
  case unchannelled g m left hnone =>
    obtain ⟨gone, hgone, rfl, hdoings⟩ := hp
    unfold Handler.expiryDoings at hdoings
    split at hdoings
    · simp at hdoings
    · simp [hnone] at hdoings
  case sends g m left channel _ =>
    obtain ⟨gone, hgone, rfl, hdoings⟩ := hp
    exact ⟨gone ++ [m], by simpa using hgone, by simp [doing], hdoings⟩
  case sending => simpa [doing, Pays] using hp
  case sent => simpa [doing, Pays] using hp
  case completing => simpa [doing, Pays] using hp
  case completed => simpa [doing, Pays] using hp
  case met => simpa [doing, Pays] using hp
  case taken => simpa [doing, Pays] using hp
  all_goals trivial

theorem Goes.answers (hg : Goes hub handler h stale p hub' p') (hp : p.Answers) : p'.Answers := by
  cases hg
  case released => exact hp
  case last => exact hp
  all_goals simp [Answers]

theorem Answers.resume (hp : p.Answers) (r : Reply) : (p.resume r).Answers := by
  cases p <;> exact hp

theorem Pays.resume (hp : p.Pays handler h c) (r : Reply) : (p.resume r).Pays handler h c := by
  cases p <;> exact hp

/-- An offer says that its handler is gone only if it is. -/
theorem Answers.gone (hp : p.Answers) (ho : p.Orderly hub h) {r : Reply}
    (hs : p.step hub h stale = .ends hub' r) (hr : r = .offered (.returned .detached)) :
    hub.Gone h := by
  subst hr
  have hsome : (hub.handler? h).isSome = true := by
    cases p
    case sending => exact ho.1
    case completing => exact ho.1
    all_goals exact ho
  obtain ⟨hnone, -⟩ | ⟨rfl, -⟩ | ⟨outcome, rfl, -⟩ | ⟨outcome, rfl, -⟩ := ends_of_step hs
  · rw [hnone] at hsome
    cases hsome
  · obtain ⟨handler, hh⟩ := Option.isSome_iff_exists.1 hsome
    obtain ⟨m, hm, -⟩ := Option.map_eq_some_iff.1 hh
    simp only [step, hm, meet] at hs
    split_ifs at hs with hl
    exact ⟨hsome, Hub.isLive_eq_false_iff.1 (by simpa using hl)⟩
  · obtain ⟨handler, hh⟩ := Option.isSome_iff_exists.1 hsome
    obtain ⟨m, hm, -⟩ := Option.map_eq_some_iff.1 hh
    simp only [step, hm, leave] at hs
    split_ifs at hs
    exact absurd (Reply.offered.inj (Turn.ends.inj hs).2) hp
  · obtain ⟨handler, hh⟩ := Option.isSome_iff_exists.1 hsome
    obtain ⟨m, hm, -⟩ := Option.map_eq_some_iff.1 hh
    simp only [step, hm] at hs
    exact absurd (Reply.offered.inj (Turn.ends.inj hs).2) hp

end Offer

/-! ## What a pass minds -/

/-- A group that was stored once, and whose starter of that time, if it is still there, is one of
those given. -/
def Attends (hub : Hub σ) (d : DepotId) (notes : List Note) (g : Group)
    (among : HandlerId → Prop) : Prop :=
  ∃ before later h, notes = before ++ later ∧ (ledger d before).group? g.key = some g
    ∧ starter? d g.key before = some h ∧ hub.home? h = some d
    ∧ (hub.isLive h = true → among h)

/-- The rest of a list of groups, of which the starters are to be asked, and the participants that
were found gone. -/
structure Tally.Minds (hub : Hub σ) (d : DepotId) (notes : List Note) (t : Tally) : Prop where
  rest : ∀ g ∈ t.rest, Attends hub d notes g fun h => .handler h ∈ t.participants
  detached : ∀ h, .handler h ∈ t.detached → hub.Gone h

/-- A pass does not let go of a group before its starter was asked. -/
def Pass.Minds (hub : Hub σ) (d : DepotId) (notes : List Note) : Pass σ → Prop
  | .selecting => True
  | .consulting stale => ∀ g ∈ stale, Attends hub d notes g fun _ => True
  | .next t => t.Minds hub d notes
  | .offering t g left said => t.Minds hub d notes
      ∧ Attends hub d notes g fun h => said.attached = true ∨ .handler h ∈ left
  | .waiting t g who left said => t.Minds hub d notes
      ∧ Attends hub d notes g fun h => said.attached = true ∨ who = .handler h ∨ .handler h ∈ left
  | .hooked t g who left said _ => t.Minds hub d notes ∧ (∀ h, who ≠ .handler h)
      ∧ Attends hub d notes g fun h => said.attached = true ∨ .handler h ∈ left
  | .claiming t g => t.Minds hub d notes ∧ Attends hub d notes g fun _ => False
  | .comparing t g => t.Minds hub d notes ∧ Attends hub d notes g fun _ => False
  | .freeing t _ _ _ => t.Minds hub d notes
  | .pruning t => t.Minds hub d notes
  | .failing => True

/-- A register on which every handler of the depot is that is there. -/
def Registered (hub : Hub σ) (d : DepotId) : Prop :=
  ∀ h, hub.isLive h = true → hub.home? h = some d → .handler h ∈ (hub.depot d).participants

section Passes

variable {hub hub' : Hub σ} {d : DepotId} {notes new : List Note} {g : Group}
  {among among' : HandlerId → Prop}

/-- A handler that is there and known of before was there before. -/
theorem live_of_gone (hgone : ∀ h, hub.Gone h → hub'.Gone h) {h : HandlerId}
    (hsome : (hub.handler? h).isSome = true) (hl : hub'.isLive h = true) :
    hub.isLive h = true := by
  by_contra hno
  have hzero := Hub.isLive_eq_false_iff.1 (by simpa using hno)
  rw [(hgone h ⟨hsome, hzero⟩).isLive] at hl
  cases hl

theorem isSome_of_home? {h : HandlerId} (hh : hub.home? h = some d) :
    (hub.handler? h).isSome = true := by
  obtain ⟨handler, hhandler, -⟩ := Option.map_eq_some_iff.1 hh
  simp [hhandler]

theorem Attends.imp (h : Attends hub d notes g among)
    (hi : ∀ h, hub.isLive h = true → hub.home? h = some d → among h → among' h) :
    Attends hub d notes g among' := by
  obtain ⟨before, later, h', hnotes, hstored, hstarter, hhome, hamong⟩ := h
  exact ⟨before, later, h', hnotes, hstored, hstarter, hhome,
    fun hl => hi h' hl hhome (hamong hl)⟩

theorem Attends.later (h : Attends hub d notes g among) (hgrows : hub.Grows hub')
    (hgone : ∀ h, hub.Gone h → hub'.Gone h) : Attends hub' d (notes ++ new) g among := by
  obtain ⟨before, later, h', rfl, hstored, hstarter, hhome, hamong⟩ := h
  exact ⟨before, later ++ new, h', List.append_assoc .., hstored, hstarter, hgrows.home? hhome,
    fun hl => hamong (live_of_gone hgone (isSome_of_home? hhome) hl)⟩

theorem Tally.Minds.later {t : Tally} (h : t.Minds hub d notes) (hgrows : hub.Grows hub')
    (hgone : ∀ h, hub.Gone h → hub'.Gone h) : t.Minds hub' d (notes ++ new) :=
  ⟨fun g hg => (h.rest g hg).later hgrows hgone, fun h' hmem => hgone h' (h.detached h' hmem)⟩

namespace Pass

variable {timeout : Nat} {p p' : Pass σ}

theorem Minds.later (h : p.Minds hub d notes) (hgrows : hub.Grows hub')
    (hgone : ∀ h, hub.Gone h → hub'.Gone h) : p.Minds hub' d (notes ++ new) := by
  cases p with
  | selecting => trivial
  | consulting stale => exact fun g hg => (h g hg).later hgrows hgone
  | next t => exact Tally.Minds.later h hgrows hgone
  | offering t g left said => exact ⟨h.1.later hgrows hgone, h.2.later hgrows hgone⟩
  | waiting t g who left said => exact ⟨h.1.later hgrows hgone, h.2.later hgrows hgone⟩
  | hooked t g who left said work =>
    exact ⟨h.1.later hgrows hgone, h.2.1, h.2.2.later hgrows hgone⟩
  | claiming t g => exact ⟨h.1.later hgrows hgone, h.2.later hgrows hgone⟩
  | comparing t g => exact ⟨h.1.later hgrows hgone, h.2.later hgrows hgone⟩
  | freeing t g retire removed => exact Tally.Minds.later h hgrows hgone
  | pruning t => exact Tally.Minds.later h hgrows hgone
  | failing => trivial

/-- What a participant says leaves the starter of the group among those to ask, or answers for it,
or shows that it is gone. -/
theorem minds_heard {t : Tally} {who : Participant} {left : List Participant} {said : Responses}
    {outcome : ExpiryOutcome} (ht : t.Minds hub d notes)
    (hg : Attends hub d notes g
      fun h => said.attached = true ∨ who = .handler h ∨ .handler h ∈ left)
    (hwho : outcome = .detached → ∀ h, who = .handler h → hub.Gone h) :
    (heard t g who left said outcome : Pass σ).Minds hub d notes := by
  have hrest : ∀ outcome, outcome ≠ .detached → (hear t said who outcome).2.attached = true := by
    intro outcome hne
    cases outcome
    · rfl
    · rfl
    · exact absurd rfl hne
  by_cases hd : outcome = .detached
  · subst hd
    refine ⟨⟨?_, ?_⟩, hg.imp fun h hl _ hamong => ?_⟩
    · simp only [hear]
      split_ifs <;> exact ht.rest
    · intro h hmem
      simp only [hear] at hmem
      split_ifs at hmem
      · exact ht.detached h hmem
      · rcases List.mem_append.1 hmem with hmem | hmem
        · exact ht.detached h hmem
        · exact hwho rfl h (List.mem_singleton.1 hmem).symm
    · rcases hamong with hatt | hh | hmem
      · exact .inl hatt
      · rw [(hwho rfl h hh).isLive] at hl
        cases hl
      · exact .inr hmem
  · refine ⟨?_, hg.imp fun h _ _ _ => .inl (hrest outcome hd)⟩
    cases outcome
    · exact ht
    · exact ht
    · exact absurd rfl hd

theorem Goes.minds (hgo : Goes hub d timeout p hub' p') (ho : hub.Orderly)
    (hk : Kept hub.clock (hub.depot d).shelf (ledger d notes))
    (htidy : (hub.depot d).shelf.Tidy)
    (hhome : ∀ key h, starter? d key notes = some h → hub.home? h = some d)
    (hreg : Registered hub d) (hm : p.Minds hub d notes) : p'.Minds hub d notes := by
  cases hgo
  case selected hne ha =>
    intro g hg
    rw [← ha] at hg
    obtain ⟨-, key, hkey⟩ := Store.mem_stale ((ho.arrange _).mem_iff.1 hg)
    have hgroup : (hub.depot d).shelf.group? key = some g := hkey
    obtain rfl := (htidy key g hgroup).1
    have hsome := isSome_starter? d g.key notes
    rw [← hk.stored g.key, hgroup] at hsome
    obtain ⟨h, hh⟩ := Option.isSome_iff_exists.1 hsome
    exact ⟨notes, [], h, (List.append_nil _).symm, (hk.stored g.key).symm.trans hgroup, hh,
      hhome g.key h hh, fun _ => trivial⟩
  case consulted stale =>
    refine ⟨fun g hg => (hm g hg).imp fun h hl hh _ => hreg h hl hh, fun h hmem => ?_⟩
    cases hmem
  case takes t g rest hrest =>
    refine ⟨⟨fun g' hg' => hm.rest g' (hrest ▸ List.mem_cons_of_mem _ hg'), hm.detached⟩, ?_⟩
    exact (hm.rest g (hrest ▸ List.mem_cons_self)).imp fun h _ _ hmem => .inr hmem
  case ready => exact hm
  case answered => exact ⟨hm.1.rest, hm.1.detached⟩
  case unanswered hatt =>
    refine ⟨hm.1, hm.2.imp fun h _ _ hamong => ?_⟩
    rcases hamong with hyes | hmem
    · rw [hatt] at hyes
      cases hyes
    · cases hmem
  case hooks =>
    refine ⟨hm.1, fun h heq => (by cases heq), hm.2.imp fun h _ _ hamong => ?_⟩
    exact hamong.imp_right fun hmem => by simpa using hmem
  case hooked => exact hm
  case heard hw =>
    exact minds_heard hm.1 (hm.2.2.imp fun h _ _ hamong => hamong.imp_right .inr)
      fun _ h heq => absurd heq (hm.2.1 h)
  case broken => trivial
  case claimed => exact hm
  case busy => exact hm.1
  case swept => exact hm.1
  case kept => exact hm.1
  case freed => exact ⟨hm.rest, hm.detached⟩

end Pass

end Passes

/-! ## Who expires a group -/

/-- What is kept up of a call so that groups expire through their owners. -/
def Frame.Ruled (hub : Hub σ) (at_ : Place → Option (Frame σ)) (notes : List Note) (p : Place) :
    Frame σ → Prop
  | .pass d _ at' => at'.Minds hub d notes
  | .offer h stale at' => at'.Answers
      ∧ (∃ handler c older, hub.handler? h = some handler ∧ calls p notes = c :: older
        ∧ at'.Pays handler h c)
      ∧ ∃ q d timeout t left said, p = q.above
        ∧ at_ q = some (.pass d timeout (.waiting t stale (.handler h) left said))
  | _ => True

theorem calls_elsewhere {p : Place} {new : List Note} (hnew : ∀ x ∈ new, x.place ≠ p)
    (notes : List Note) : calls p (notes ++ new) = calls p notes := by
  induction new using List.reverseRecOn with
  | nil => rw [List.append_nil]
  | append_singleton new x ih =>
    rw [← List.append_assoc, calls_snoc, ih fun y hy => hnew y (List.mem_append_left _ hy)]
    have hx := hnew x (by simp)
    cases x <;> simp only [Note.hear, Note.place] at hx ⊢ <;> rw [if_neg hx]

section Rules

variable {hub hub' : Hub σ} {at_ at' : Place → Option (Frame σ)} {notes new : List Note}

/-- An offer stays above its pass. -/
theorem Advance.above_waiting (ha : Advance hub at_ hub' at' new) {p : Place} {h : HandlerId}
    {stale : Group} (hp : at' p ≠ none)
    (hq : ∃ q d timeout t left said, p = q.above
      ∧ at_ q = some (.pass d timeout (.waiting t stale (.handler h) left said))) :
    ∃ q d timeout t left said, p = q.above
      ∧ at' q = some (.pass d timeout (.waiting t stale (.handler h) left said)) := by
  obtain ⟨q, d, timeout, t, left, said, rfl, hq⟩ := hq
  refine ⟨q, d, timeout, t, left, said, rfl, ?_⟩
  rcases ha.waiting hq with heq | hnone
  · rw [heq, hq]
  · exact absurd hnone hp

theorem Frame.Ruled.still {p : Place} {f : Frame σ} (h : f.Ruled hub at_ notes p)
    (ha : Advance hub at_ hub' at' new) (hp : at' p ≠ none) (hgrows : hub.Grows hub')
    (hgone : ∀ h, hub.Gone h → hub'.Gone h) (hnew : calls p (notes ++ new) = calls p notes) :
    f.Ruled hub' at' (notes ++ new) p := by
  cases f with
  | handling h' q => trivial
  | offer h' stale q =>
    obtain ⟨hanswers, ⟨handler, c, older, hh, hcalls, hpays⟩, habove⟩ := h
    obtain ⟨handler', hh', hmake⟩ := hgrows.handlers h' handler hh
    exact ⟨hanswers, ⟨handler', c, older, hh', hnew.trans hcalls, hpays.make hmake⟩,
      ha.above_waiting hp habove⟩
  | pass d timeout q => exact h.later hgrows hgone
  | drop h' q => trivial

theorem Frame.Ruled.resume {p : Place} {f : Frame σ} (h : f.Ruled hub at_ notes p) {r : Reply}
    (hr : ∀ d timeout t g who left said,
      f = .pass d timeout (.waiting t g who left said) → r = .offered (.returned .detached) →
        ∀ h, who = .handler h → hub.Gone h) : (f.resume r).Ruled hub at_ notes p := by
  cases f with
  | handling h' q => trivial
  | offer h' stale q =>
    obtain ⟨hanswers, ⟨handler, c, older, hh, hcalls, hpays⟩, habove⟩ := h
    exact ⟨hanswers.resume r, ⟨handler, c, older, hh, hcalls, hpays.resume r⟩, habove⟩
  | pass d timeout q =>
    cases q
    case waiting t g who left said =>
      simp only [Frame.resume, Pass.resume]
      split
      · refine Pass.minds_heard h.1 h.2 fun hd => hr d timeout t g who left said rfl ?_
        rw [hd]
      · trivial
    all_goals exact h
  | drop h' q => trivial

/-- Only an offer replies as an offer. -/
theorem Frame.offer_of_ends {f : Frame σ} {outcome : Attempt ExpiryOutcome}
    (hs : f.step hub = .ends hub' (.offered outcome)) : ∃ h stale p, f = .offer h stale p := by
  cases f with
  | handling h p =>
    obtain ⟨hnone, -⟩ | ⟨result, -, -, hr⟩ | ⟨result, -, -, hr⟩ := Handling.ends_of_step hs
    · simp [Frame.step, Handling.step, Option.map_eq_none_iff.1 hnone] at hs
    · cases hr
    · cases hr
  | offer h stale p => exact ⟨h, stale, p, rfl⟩
  | pass d timeout p =>
    obtain ⟨-, rfl | rfl⟩ | ⟨t, rfl, -⟩ := Pass.ends_of_step hs
    · simp only [Frame.step, Pass.step, Pass.select] at hs
      repeat' split at hs
      all_goals cases hs
    · cases hs
    · cases hs
  | drop h p =>
    obtain ⟨rfl, -⟩ | ⟨rfl, -⟩ := Drop.cases_of_ends hs
    · simp only [Frame.step, Drop.step] at hs
      split_ifs at hs
      cases hs
    · cases hs

/-- All that is kept up along a run so that groups expire through their owners. -/
structure Governed (hub : Hub σ) (at_ : Place → Option (Frame σ)) (notes : List Note) : Prop where
  sound : ∀ d, Sound (hub.depot d).shelf (grips hub at_ d)
  kept : ∀ d, Kept hub.clock (hub.depot d).shelf (ledger d notes)
  titled : ∀ d, Titled hub at_ notes d
  registered : ∀ d, Registered hub d
  ruled : ∀ p f, at_ p = some f → f.Ruled hub at_ notes p

theorem Governed.ruled_advance (h : Governed hub at_ notes) (ha : Advance hub at_ hub' at' new)
    (ht : Tends hub at_ hub' at') (ho : hub.Orderly)
    (hf : ∀ p f, at_ p = some f → f.Orderly hub) :
    ∀ p f, at' p = some f → f.Ruled hub' at' (notes ++ new) p := by
  have hgrows := ha.grows ho hf
  have hstill : ∀ p f, at_ p = some f → at' p ≠ none →
      calls p (notes ++ new) = calls p notes → f.Ruled hub' at' (notes ++ new) p :=
    fun p f hp hp' hnew => (h.ruled p f hp).still ha hp' hgrows ht.gone hnew
  refine ha.each (fun p f hp hp' _ hnew => ?_) (fun p a _ _ => ?_)
    (fun p f f' hp hs hp' hnew => ?_) (fun p f f' inner hp hs hp' hinner hnew => ?_)
    (fun p f g r hp hs hg hp' hnew => ?_)
  · exact hstill p f hp (by simp [hp']) (calls_elsewhere hnew notes)
  · cases a <;> trivial
  · have hold := h.ruled p f hp
    cases f with
    | handling h' q =>
      obtain ⟨handler, hh⟩ := Handling.handler_of_step hs
      obtain ⟨q', rfl, -⟩ := Handling.goes_of_step hh hs
      trivial
    | offer h' stale q =>
      obtain ⟨handler, hh⟩ := Offer.handler_of_step hs
      obtain ⟨q', rfl, hgo⟩ := Offer.goes_of_step hh hs
      obtain ⟨hanswers, ⟨handler', c, older, hh', hcalls, hpays⟩, habove⟩ := hold
      cases hh.symm.trans hh'
      obtain ⟨new', hnew', hmake⟩ := hgrows.handlers h' handler hh
      refine ⟨hgo.answers hanswers, ⟨new', _, older, hnew', ?_,
        (hgo.pays hpays ((p.below?.bind at_).bind Frame.timeout?)).make hmake⟩,
        ha.above_waiting (by simp [hp']) habove⟩
      rw [hnew, calls_did hcalls]
      simp only [Frame.doing, hh, Option.bind_some]
    | pass d timeout q =>
      obtain ⟨q', rfl, hgo⟩ := Pass.goes_of_step hs
      exact (hgo.minds ho (h.kept d) (h.sound d).tidy (h.titled d).home (h.registered d)
        hold).later hgrows ht.gone
    | drop h' q =>
      obtain ⟨rfl, -⟩ := Drop.goes_of_step hs
      trivial
  · obtain rfl := (Frame.calls_refers hs 0).1
    have hcaller : ∀ f, at_ p = some f → f.Ruled hub' at' (notes ++ new) p := fun f hp =>
      hstill p f hp (by simp [hp'])
        (calls_elsewhere (by simpa [hnew, Note.place] using p.above_ne) notes)
    have hscript : ∀ {α : Type} {s : Script σ α}, s.step hub' = .calls inner →
        inner.Ruled hub' at' (notes ++ new) p.above := by
      intro α s hcall
      rcases Script.calls_of_step hcall with ⟨id, m, rfl⟩ | ⟨d, timeout, rfl⟩ <;> trivial
    cases f with
    | handling h' q =>
      obtain ⟨-, rfl, key, g, work, -, hw⟩ := Handling.calls_of_step hs
      exact ⟨trivial, hscript hw⟩
    | offer h' stale q =>
      obtain ⟨-, rfl, ⟨g, m, left, work, -, hw⟩ | ⟨g, work, -, hw⟩⟩ := Offer.calls_of_step hs <;>
        exact ⟨hcaller _ hp, hscript hw⟩
    | pass d timeout q =>
      obtain ⟨-, ⟨t, g, h', left, said, rfl, rfl, rfl⟩
        | ⟨t, g, who, left, said, work, -, rfl, hw⟩⟩ := Pass.calls_of_step hs
      · have hminds : (Pass.offering t g (.handler h' :: left) said : Pass σ).Minds hub' d notes :=
          h.ruled p _ hp
        obtain ⟨ht', hg⟩ := hminds
        obtain ⟨handler, hh, -⟩ := Option.map_eq_some_iff.1 ((hf p _ hp).2.2 h' List.mem_cons_self)
        refine ⟨⟨ht'.later hgrows ht.gone, (hg.imp fun h _ _ hamong => ?_).later hgrows ht.gone⟩,
          trivial, ⟨handler, [], calls p.above notes, hh, ?_, rfl⟩, p, d, timeout, t, left, said,
          rfl, hp'⟩
        · refine hamong.imp_right fun hmem => ?_
          rcases List.mem_cons.1 hmem with heq | hmem
          · exact .inl heq.symm
          · exact .inr hmem
        · rw [hnew, calls_came, if_pos rfl]
      · exact ⟨hcaller _ hp, hscript hw⟩
    | drop h' q => exact (Drop.calls_of_step hs).elim
  · have hg' := hstill p g hg (by simp [hp']) (calls_elsewhere (by simp [hnew]) notes)
    refine hg'.resume fun d timeout t g' who left said heq hr h' hwho => ?_
    subst heq hr
    obtain ⟨h'', stale, q, rfl⟩ := Frame.offer_of_ends hs
    obtain ⟨hanswers, -, q', d', timeout', t', left', said', habove, hat⟩ := h.ruled p.above _ hp
    have hsame : p = q' := by
      obtain ⟨i, n⟩ := p
      obtain ⟨i', n'⟩ := q'
      simpa [Place.above] using habove
    subst hsame
    cases hg.symm.trans hat
    cases hwho
    exact ht.gone _ (hanswers.gone (hf p.above _ hp) hs rfl)

theorem Governed.advance (ho : hub.Orderly) (ho' : hub'.Orderly)
    (hf : ∀ p f, at_ p = some f → f.Orderly hub) (ht : Tends hub at_ hub' at')
    (ha : Advance hub at_ hub' at' new) (h : Governed hub at_ notes) :
    Governed hub' at' (notes ++ new) where
  sound d := ha.sound ho hf d (h.sound d)
  kept d := ha.kept ho hf (h.kept d)
  titled d := (h.titled d).advance ha ht ho ho' hf (h.sound d) (h.kept d)
  registered d h' hl hhome := by
    rcases hh : hub.handler? h' with _ | handler
    · exact ht.enrols h' d hh hhome
    · have hhome₀ : hub.home? h' = some d := by
        rw [← hhome, (ha.grows ho hf).home? (Hub.home?_of_handler? hh), Hub.home?_of_handler? hh]
      have hl₀ := live_of_gone ht.gone (isSome_of_home? hhome₀) hl
      rcases ht.stays d _ (h.registered d h' hl₀ hhome₀) with hstays | ⟨p, timeout, t, hp, hmem⟩
      · exact hstays
      · -- a pass takes off the register only who is gone
        have hgone := Tally.Minds.detached (h.ruled p _ hp) h' hmem
        rw [hgone.isLive] at hl₀
        cases hl₀
  ruled := h.ruled_advance ha ht ho hf

theorem governed_initial (outside : σ) (idOf : Nat → MessageId) :
    Governed (Machine.initial outside idOf).hub (Machine.initial outside idOf).frameAt [] where
  sound := sound_initial outside idOf
  kept d := .start _ (Machine.bare_initial outside idOf d)
  titled := titled_initial outside idOf
  registered d h hl hhome := by cases hhome
  ruled p f hp := by cases hp

end Rules

/-! ## One time, one group -/

namespace Ledger

/-- The times of the additions, in their order. -/
def times (l : Ledger) : List Instant :=
  l.filterMap fun
    | .put _ _ t => some t
    | .took _ _ => none

theorem mem_times {l : Ledger} {key : Key} {m : Message} {t : Instant} (h : .put key m t ∈ l) :
    t ∈ times l :=
  List.mem_filterMap.2 ⟨_, h, rfl⟩

/-- A stored group bears the time of an addition. -/
theorem exists_put {l : Ledger} {key : Key} {g : Group} (h : group? key l = some g) :
    ∃ m, .put key m g.lastModified ∈ l := by
  induction l using List.reverseRecOn generalizing g with
  | nil => cases h
  | append_singleton l e ih =>
    rw [group?_snoc] at h
    have hold : group? key l = some g → ∃ m, .put key m g.lastModified ∈ l ++ [e] := fun hg => by
      obtain ⟨m, hm⟩ := ih hg
      exact ⟨m, List.mem_append_left _ hm⟩
    cases e with
    | put k m t =>
      simp only [shelve] at h
      split_ifs at h with hk
      · cases h
        exact ⟨m, by simp [hk, Group.add]⟩
      · exact hold h
    | took k g' =>
      simp only [shelve] at h
      split_ifs at h
      exact hold h

end Ledger

/-- Whoever starts the group of a key anew does so with an addition. -/
theorem starter?_or_put {d : DepotId} {key : Key} {before later : List Note} {g : Group}
    (hg : (ledger d (before ++ later)).group? key = some g) :
    starter? d key (before ++ later) = starter? d key before
      ∨ ∃ m, .put key m g.lastModified ∈ ledger d later := by
  induction later using List.reverseRecOn generalizing g with
  | nil => exact .inl (by rw [List.append_nil])
  | append_singleton later x ih =>
    rw [← List.append_assoc, ledger_snoc] at hg
    rw [← List.append_assoc, starter?_append, ledger_snoc]
    simp only [List.foldl_cons, List.foldl_nil]
    -- a note that is not about the key changes nothing
    have hold : (ledger d (before ++ later)).group? key = some g →
        x.starts d key (starter? d key (before ++ later)) = starter? d key (before ++ later) →
        x.starts d key (starter? d key (before ++ later)) = starter? d key before
          ∨ ∃ m, .put key m g.lastModified ∈ ledger d later ++ (x.posting? d).toList := by
      intro hg' hsame
      rw [hsame]
      exact (ih hg').imp_right fun ⟨m, hm⟩ => ⟨m, List.mem_append_left _ hm⟩
    rcases x with p | ⟨p, x⟩
    · exact hold (by simpa [Note.posting?] using hg) rfl
    · cases x with
      | added h d' key' m t =>
        by_cases hd : d' = d
        · subst hd
          simp only [Note.posting?, Doing.posting?, if_true, Option.toList_some,
            Ledger.group?_snoc, Ledger.shelve] at hg
          split_ifs at hg with hk
          · cases hg
            exact .inr ⟨m, by simp [Note.posting?, Doing.posting?, hk, Group.add]⟩
          · exact hold hg (by simp [Note.starts, Doing.starts, hk])
        · exact hold (by simpa [Note.posting?, Doing.posting?, hd] using hg)
            (by simp [Note.starts, Doing.starts, hd])
      | removed d' key' g' t by_ =>
        by_cases hd : d' = d
        · subst hd
          simp only [Note.posting?, Doing.posting?, if_true, Option.toList_some,
            Ledger.group?_snoc, Ledger.shelve] at hg
          split_ifs at hg with hk
          exact hold hg (by simp [Note.starts, Doing.starts, hk])
        · exact hold (by simpa [Note.posting?, Doing.posting?, hd] using hg)
            (by simp [Note.starts, Doing.starts, hd])
      | _ => exact hold (by simpa [Note.posting?, Doing.posting?] using hg) rfl

/-- If no two additions are of one time, a group that bears the time it bore once has the starter
that it had then. -/
theorem starter?_of_same_time {d : DepotId} {key : Key} {before later : List Note}
    {g g' : Group} (ht : (ledger d (before ++ later)).times.Pairwise (· < ·))
    (hg : (ledger d before).group? key = some g)
    (hg' : (ledger d (before ++ later)).group? key = some g')
    (hsame : g'.lastModified = g.lastModified) :
    starter? d key (before ++ later) = starter? d key before := by
  rcases starter?_or_put hg' with hstarter | ⟨m, hm⟩
  · exact hstarter
  · obtain ⟨m₀, hm₀⟩ := Ledger.exists_put hg
    rw [ledger_append, Ledger.times, List.filterMap_append] at ht
    have hlt := (List.pairwise_append.1 ht).2.2 _ (Ledger.mem_times hm₀) _ (Ledger.mem_times hm)
    rw [hsame] at hlt
    exact absurd hlt (Nat.lt_irrefl _)

namespace Machine

/-- A handler to which nobody refers any more, and which has lost its locks. -/
def Dropped (s : Machine σ) (h : HandlerId) : Prop :=
  s.hub.isLive h = false ∧ ∀ p f, s.frameAt p = some f → f.disowns h = false

/-- In every lawful run by those who may make it: the entry of a stored group names the handler that
started the group, as long as that handler is there; such a group expires only through an offer to
that very handler, which did with it what its settings say, if no two additions are of one time;
and a handler that was dropped is named by no entry, so that whoever is named, or anybody if nobody
is, can take the key when it is free, and so can the store. -/
theorem expired_by_owner (outside : σ) (idOf : Nat → MessageId) (moves : List (Move σ))
    (hl : (initial outside idOf).Lawful moves)
    (he : (initial outside idOf).entitled moves = true) :
    let s := (initial outside idOf).after moves
    let notes := (initial outside idOf).history moves
    ∀ d, (∀ key g, (s.hub.depot d).store.find? key = some g →
        ∃ h e, starter? d key notes = some h ∧ (s.hub.depot d).locks.find? key = some e
          ∧ (s.hub.isLive h = true → e.owner = some h))
      ∧ ((ledger d notes).times.Pairwise (· < ·) → ∀ mv p key g? t by_ h,
        .did p (.removed d key g? t by_) ∈ s.notes mv → by_ ≠ .handling →
        starter? d key notes = some h → s.hub.isLive h = true →
        ∃ stale g handler timeout older, s.frameAt p = some (.offer h stale (.removing g))
          ∧ stale.key = key ∧ g? = some g ∧ by_ = .offer (some timeout)
          ∧ s.hub.handler? h = some handler ∧ calls p notes = handler.expiryDoings h g :: older)
      ∧ ∀ h, s.Dropped h → ∀ key e, (s.hub.depot d).locks.find? key = some e →
        e.owner ≠ some h ∧ (e.held = false →
          ((s.hub.depot d).locks.tryAcquire? key).isSome = true
          ∧ ∀ h', e.owner = none ∨ e.owner = some h' →
            ((s.hub.depot d).locks.tryAcquireOwned? key h').isSome = true) := by
  intro s notes d
  have ho := orderly_initial outside idOf
  have hg : Governed s.hub s.frameAt notes := (along_entitled (P := Governed) Governed.advance ho
    (attended_initial outside idOf) (governed_initial outside idOf) moves hl he).1
  have horderly := orderly_after ho moves hl
  refine ⟨fun key g hfind => ?_, fun ht mv p key g? t by_ h hdid hby hst hlive => ?_,
    fun h hdropped key e hfind => ⟨fun hown => ?_, fun hheld => ⟨?_, fun h' hown => ?_⟩⟩⟩
  · have hsome := isSome_starter? d key notes
    rw [← (hg.kept d).stored key, show (s.hub.depot d).shelf.group? key = some g from hfind]
      at hsome
    obtain ⟨h, hst⟩ := Option.isSome_iff_exists.1 hsome
    obtain ⟨e, hentry⟩ := Option.isSome_iff_exists.1
      ((hg.sound d).guarded key (Option.isSome_iff_exists.2 ⟨g, hfind⟩))
    exact ⟨h, e, hst, hentry, fun hlive => (hg.titled d).titled key h e hst hlive hentry⟩
  · obtain ⟨f, f', hp, -, hs, hx, -⟩ := step_of_did hdid
    have hright := Sound.right hg.sound hp
    obtain ⟨-, rfl, ⟨h', stale, g, handler, rfl, hh, rfl, rfl, rfl⟩
      | ⟨timeout, tally, g, rfl, rfl, hu, rfl⟩⟩ := Frame.removed_of_doing hs hx hby horderly.hub
    · obtain ⟨-, ⟨handler', c, older, hh', hcalls, hpays⟩, q, d', timeout, tally, left, said,
        rfl, hq⟩ := hg.ruled p _ hp
      cases hh.symm.trans hh'
      have hgrip : (Frame.offer h' stale (.removing g)).grip s.hub handler.depot
          = some (stale.key, .seen g) := by
        rw [Frame.grip_offer, if_pos (Hub.home?_of_handler? hh)]
        rfl
      -- the entry names the starter, and an offer takes no entry of another owner
      obtain ⟨e, hentry, -⟩ := (hg.sound handler.depot).held q.above stale.key (.seen g)
        (by simpa [grips, hp] using hgrip)
      have hown := (hg.titled handler.depot).titled stale.key h e hst hlive hentry
      have hrightful := (hg.titled handler.depot).rightful _ _ hp stale.key _ hgrip e hentry
      rw [hown] at hrightful
      rcases hrightful with hnone | hsame
      · cases hnone
      · cases hsame
        refine ⟨stale, g, handler, timeout, older, hp, rfl, ?_, ?_, hh, hcalls.trans ?_⟩
        · exact hright.fits handler.depot stale.key _ hgrip
        · simp [hq, Frame.timeout?]
        · rw [hpays]
    · -- a pass sweeps up only groups of starters that are gone
      exfalso
      obtain ⟨current, hcurrent, hsame⟩ := Store.isUnchanged_iff.1 hu
      obtain ⟨-, before, later, h₀, hnotes, hstored, hst₀, -, hgone⟩ :=
        (hg.ruled p _ hp : Pass.Minds s.hub d notes (.comparing tally g))
      have hnow := (hg.kept d).stored g.key
      rw [show (s.hub.depot d).shelf.group? g.key = some current from hcurrent] at hnow
      rw [hnotes] at ht hnow hst
      rw [starter?_of_same_time ht hstored hnow.symm hsame, hst₀] at hst
      cases hst
      exact hgone hlive
  · obtain ⟨-, hlive | ⟨p, f, hp, hd⟩⟩ := (hg.titled d).named key e h hfind hown
    · rw [hdropped.1] at hlive
      cases hlive
    · rw [hdropped.2 p f hp] at hd
      cases hd
  · simp [KeyLocks.tryAcquire?, hfind, hheld]
  · rcases hown with hown | hown <;> simp [KeyLocks.tryAcquireOwned?, hfind, hheld, hown]

end Machine

/-! ## Two handlers of one store -/

/-- A handler that lets all messages gather under one key and drops them when they expire. -/
def gathering : Handler Unit := { pairing with release := fun _ => .returned false }

/-- Another one, which would complete what expires. -/
def finishing : Handler Unit := { gathering with settings := ⟨none, .forceComplete⟩ }

theorem discreet_gathering (settings : HandlerSettings) :
    ({ gathering with settings := settings } : Handler Unit).Discreet where
  process g := .done _
  discard c hc := by cases hc

/-- The second handler adds to the group of the first; then a pass offers the group to both, and
the first one is about to remove it. -/
def sharedTurns : List (Event Unit) :=
  .start (.handle 0 (plain "first")) :: (List.replicate 6 (.step 0)
    ++ [.elapse 1, .start (.handle 1 (plain "second"))] ++ List.replicate 6 (.step 1)
    ++ [.elapse 5, .start (.expire 0 3)] ++ List.replicate 7 (.step 2))

def sharedRun : List (Move Unit) :=
  [.openDepot none, .event (.build gathering), .event (.build finishing)]
    ++ sharedTurns.map .event

theorem lawful_sharedRun : (Machine.initial () fun _ => ⟨""⟩).Lawful sharedRun := by
  refine ⟨trivial, ⟨discreet_gathering _, Nat.zero_lt_one⟩,
    ⟨discreet_gathering _, Nat.zero_lt_one⟩, Machine.lawful_events _ _ ?_⟩
  intro e he handler
  simp only [sharedTurns, List.mem_cons, List.mem_append, List.mem_replicate, List.not_mem_nil,
    or_false] at he
  rcases he with rfl | (((⟨-, rfl⟩ | rfl | rfl) | ⟨-, rfl⟩) | rfl | rfl) | ⟨-, rfl⟩ <;> simp

def sharedGroup : Group := ⟨⟨"pair"⟩, [plain "first", plain "second"], 1⟩

/-- It is the first handler that drops the group, though the second one added to it last. -/
theorem shared_expires_by_starter :
    (Machine.initial () fun _ => ⟨""⟩).Lawful sharedRun
      ∧ (Machine.initial () fun _ => ⟨""⟩).entitled sharedRun = true
      ∧ ∃ older, calls ⟨2, 1⟩ ((Machine.initial () fun _ => ⟨""⟩).history sharedRun)
        = [.discarded 0 sharedGroup false] :: older := by
  have hentitled : (Machine.initial () fun _ => ⟨""⟩).entitled sharedRun = true := by decide
  refine ⟨lawful_sharedRun, hentitled, ?_⟩
  have hremoved : .did ⟨2, 1⟩ (.removed 0 ⟨"pair"⟩ (some sharedGroup) 6 (.offer (some 3)))
      ∈ ((Machine.initial () fun _ => ⟨""⟩).after sharedRun).notes (.event (.step 2)) :=
    List.mem_singleton.2 rfl
  obtain ⟨stale, g, handler, timeout, older, -, -, hg, -, hh, hcalls⟩ :=
    (Machine.expired_by_owner () (fun _ => ⟨""⟩) sharedRun lawful_sharedRun hentitled 0).2.1
      (by decide) _ _ _ _ _ _ 0 hremoved (by simp) rfl rfl
  cases hg
  cases hh
  exact ⟨older, hcalls⟩

end Collate
