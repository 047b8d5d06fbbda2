import Collate.Work.Machine
import Collate.Proofs.Depots

/-!
# The rules of the work

What a step of a frame can come to, as rules: one rule for each way on from a phase, with what was
found out on that way. A script that is `Discreet` leaves the depots to handlers and passes, so its
steps change nothing there (`Script.Discreet.goes`). The steps of the frames are exactly these
rules (`Handling.goes_of_step`, `Offer.goes_of_step`, `Pass.goes_of_step`); calls and ends are few
and stand beside them.
-/

namespace Collate

variable {σ α : Type}

/-- The hub as it was, up to the outside, the journal and the supply of ids. -/
structure Hub.Alike (hub hub' : Hub σ) : Prop where
  depots : hub'.depots = hub.depots
  members : hub'.members = hub.members
  hooks : hub'.hooks = hub.hooks
  clock : hub'.clock = hub.clock
  arrange : hub'.arrange = hub.arrange

namespace Hub.Alike

variable {hub hub' : Hub σ}

theorem refl (hub : Hub σ) : hub.Alike hub := ⟨rfl, rfl, rfl, rfl, rfl⟩

theorem log (hub : Hub σ) (r : Log.Record) : hub.Alike (hub.log r) := ⟨rfl, rfl, rfl, rfl, rfl⟩

theorem depot (h : hub.Alike hub') (d : DepotId) : hub'.depot d = hub.depot d := by
  simp only [Hub.depot, h.depots]

theorem handler? (h : hub.Alike hub') (id : HandlerId) : hub'.handler? id = hub.handler? id := by
  simp only [Hub.handler?, Hub.member?, h.members]

end Hub.Alike

namespace Script

/-- A script that reaches the depots through handlers and passes only. -/
inductive Discreet : Script σ α → Prop
  | done (a : α) : Discreet (.done a)
  | panic : Discreet .panic
  | act {change : σ → σ} {next : σ → Script σ α} :
      (∀ s, Discreet (next s)) → Discreet (.act change next)
  | log {r : Log.Record} {next : Script σ α} : Discreet next → Discreet (.log r next)
  | fresh {next : MessageId → Script σ α} : (∀ id, Discreet (next id)) → Discreet (.fresh next)
  | handle {h : HandlerId} {m : Message} {next : Except HandlerError Handled → Script σ α} :
      (∀ r, Discreet (next r)) → Discreet (.handle h m next)
  | expire {d : DepotId} {timeout : Nat} {next : Except StoreError Nat → Script σ α} :
      (∀ r, Discreet (next r)) → Discreet (.expire d timeout next)

variable {hub hub' : Hub σ} {s s' : Script σ α}

theorem Discreet.goes (hs : s.Discreet) (h : s.step hub = .goes hub' s') :
    s'.Discreet ∧ hub.Alike hub' := by
  cases hs <;> simp only [step, reduceCtorEq, ScriptTurn.goes.injEq] at h
  case act hn => exact ⟨h.2 ▸ hn _, h.1 ▸ ⟨rfl, rfl, rfl, rfl, rfl⟩⟩
  case log hn => exact ⟨h.2 ▸ hn, h.1 ▸ ⟨rfl, rfl, rfl, rfl, rfl⟩⟩
  case fresh hn => exact ⟨h.2 ▸ hn _, h.1 ▸ ⟨rfl, rfl, rfl, rfl, rfl⟩⟩

theorem gives_of_step {a : α} (h : s.step hub = .gives a) : s = .done a := by
  cases s <;> simp only [step, reduceCtorEq, ScriptTurn.gives.injEq] at h
  case done => rw [h]
  case add d key m next => split at h <;> cases h
  case remove d key next => split at h <;> cases h

theorem calls_of_step {inner : Frame σ} (h : s.step hub = .calls inner) :
    (∃ id m, inner = .handling id (.arriving m))
      ∨ ∃ d timeout, inner = .pass d timeout .selecting := by
  cases s <;> simp only [step, reduceCtorEq, ScriptTurn.calls.injEq] at h
  case handle id m next => exact .inl ⟨id, m, h.symm⟩
  case expire d timeout next => exact .inr ⟨d, timeout, h.symm⟩
  case add d key m next => split at h <;> cases h
  case remove d key next => split at h <;> cases h

theorem Discreet.resume (hs : s.Discreet) (r : Reply) : (s.resume r).Discreet := by
  cases hs <;> simp only [Script.resume] <;> try exact .panic
  case handle hn => split <;> first | exact hn _ | exact .panic
  case expire hn => split <;> first | exact hn _ | exact .panic

end Script

namespace Handling

/-- The ways on from the phases of a handling. -/
inductive Goes (hub : Hub σ) (handler : Handler σ) (h : HandlerId) :
    Handling σ → Hub σ → Handling σ → Prop
  | struck {m} : handler.correlation m = .panicked →
      Goes hub handler h (.arriving m) (hub.refer h) (.leaving .panicked)
  | keyless {m} : handler.correlation m = .returned none →
      Goes hub handler h (.arriving m) (hub.refer h)
        (.leaving (.returned (.error (.correlation m.id))))
  | keyed {m key} : handler.correlation m = .returned (some key) →
      Goes hub handler h (.arriving m) (hub.refer h)
        (.locking key m (handler.deadline hub.clock))
  | taken {key m deadline locks} :
      (hub.depot handler.depot).locks.acquire? key (some h) = some locks →
      Goes hub handler h (.locking key m deadline)
        (hub.setDepot handler.depot { hub.depot handler.depot with locks := locks })
        (.adding key m)
  | late {key m deadline} : (hub.depot handler.depot).locks.acquire? key (some h) = none →
      deadline.any (· ≤ hub.clock) = true →
      Goes hub handler h (.locking key m deadline) hub
        (.leaving (.returned (.error (timedOut handler key))))
  | added {key m depot g} : (hub.depot handler.depot).add key m hub.clock = .ok (depot, g) →
      Goes hub handler h (.adding key m) (hub.setDepot handler.depot depot) (.deciding key g)
  | unadded {key m e} : (hub.depot handler.depot).add key m hub.clock = .error e →
      Goes hub handler h (.adding key m) hub (.reviewing key e)
  | reviewed {key e retire} :
      (match (hub.depot handler.depot).get key hub.clock with
        | .ok g => g.isEmpty
        | .error _ => true) = retire →
      Goes hub handler h (.reviewing key e) hub
        (.releasing key retire (.returned (.error (.store e))))
  | undecided {key g} : handler.release g = .panicked →
      Goes hub handler h (.deciding key g) hub (.releasing key false .panicked)
  | pending {key g} : handler.release g = .returned false →
      Goes hub handler h (.deciding key g) hub
        (.releasing key false (.returned (.ok (.pending key g.size))))
  | complete {key g} : handler.release g = .returned true →
      Goes hub handler h (.deciding key g) hub (.processing key g (handler.process g))
  | processing {key g work hub' work'} : work.step hub = .goes hub' work' →
      Goes hub handler h (.processing key g work) hub' (.processing key g work')
  | processed {key g work result} : work.step hub = .gives result →
      Goes hub handler h (.processing key g work) hub (.removing key g result)
  | broken {key g work} : work.step hub = .panics →
      Goes hub handler h (.processing key g work) hub (.releasing key false .panicked)
  | removed {key g result depot gone} :
      (hub.depot handler.depot).remove key = .ok (depot, gone) →
      Goes hub handler h (.removing key g result) (hub.setDepot handler.depot depot)
        (.releasing key true (.returned (completed key g.size result)))
  | unremoved {key g result e} : (hub.depot handler.depot).remove key = .error e →
      Goes hub handler h (.removing key g result) hub
        (.releasing key true (.returned (.error (.store e))))
  | released {key retire result} :
      Goes hub handler h (.releasing key retire result)
        (hub.setDepot handler.depot ((hub.depot handler.depot).release key retire))
        (.leaving result)
  | last {result} : (hub.unrefer h).isLive h = false →
      Goes hub handler h (.leaving result) (hub.unrefer h) (.disowning result)

variable {hub hub' : Hub σ} {handler : Handler σ} {h : HandlerId} {p : Handling σ} {f : Frame σ}

theorem handler_of_step (hs : p.step hub h = .goes hub' f) :
    ∃ handler, hub.handler? h = some handler := by
  unfold step at hs
  split at hs
  · cases hs
  · exact ⟨_, Hub.handler?_of_member? ‹_›⟩

theorem goes_of_step (hh : hub.handler? h = some handler) (hs : p.step hub h = .goes hub' f) :
    ∃ p', f = .handling h p' ∧ Goes hub handler h p hub' p' := by
  obtain ⟨member, hm, rfl⟩ := Option.map_eq_some_iff.1 hh
  simp only [step, hm] at hs
  cases p with
  | arriving m =>
    simp only [arrive] at hs
    split at hs <;> cases hs
    · exact ⟨_, rfl, .struck ‹_›⟩
    · exact ⟨_, rfl, .keyless ‹_›⟩
    · exact ⟨_, rfl, .keyed ‹_›⟩
  | locking key m deadline =>
    simp only [lock] at hs
    split at hs
    · cases hs
      exact ⟨_, rfl, .taken ‹_›⟩
    · split_ifs at hs
      cases hs
      exact ⟨_, rfl, .late ‹_› ‹_›⟩
  | adding key m =>
    simp only [add] at hs
    split at hs <;> cases hs
    · exact ⟨_, rfl, .added ‹_›⟩
    · exact ⟨_, rfl, .unadded ‹_›⟩
  | reviewing key e =>
    simp only [review] at hs
    cases hs
    exact ⟨_, rfl, .reviewed rfl⟩
  | deciding key g =>
    simp only [decide] at hs
    split at hs <;> cases hs
    · exact ⟨_, rfl, .undecided ‹_›⟩
    · exact ⟨_, rfl, .pending ‹_›⟩
    · exact ⟨_, rfl, .complete ‹_›⟩
  | processing key g work =>
    simp only [process] at hs
    split at hs <;> cases hs
    · exact ⟨_, rfl, .processing ‹_›⟩
    · exact ⟨_, rfl, .processed ‹_›⟩
    · exact ⟨_, rfl, .broken ‹_›⟩
  | removing key g result =>
    simp only [remove] at hs
    split at hs <;> cases hs
    · exact ⟨_, rfl, .removed ‹_›⟩
    · exact ⟨_, rfl, .unremoved ‹_›⟩
  | releasing key retire result =>
    simp only [release] at hs
    cases hs
    exact ⟨_, rfl, .released⟩
  | leaving result =>
    simp only [leave] at hs
    split_ifs at hs with hl
    cases hs
    exact ⟨_, rfl, .last (by simpa using hl)⟩
  | disowning result => cases hs

theorem calls_of_step {inner : Frame σ} (hs : p.step hub h = .calls hub' f inner) :
    hub' = hub ∧ f = .handling h p
      ∧ ∃ key g work, p = .processing key g work ∧ work.step hub = .calls inner := by
  unfold step at hs
  split at hs
  · cases hs
  · cases p
    case processing key g work =>
      simp only [process] at hs
      split at hs <;> cases hs
      exact ⟨rfl, rfl, _, _, _, rfl, ‹_›⟩
    all_goals
      simp only [arrive, lock, add, review, decide, remove, release, leave, reduceCtorEq] at hs
    all_goals
      repeat' split at hs
      all_goals cases hs

theorem ends_of_step {r : Reply} (hs : p.step hub h = .ends hub' r) :
    (hub.handler? h = none ∧ hub' = hub)
      ∨ (∃ result, p = .leaving result ∧ hub' = hub.unrefer h ∧ r = .handled result)
      ∨ ∃ result, p = .disowning result ∧ hub' = hub.disown h ∧ r = .handled result := by
  unfold step at hs
  split at hs
  · rename_i hm
    cases hs
    exact .inl ⟨by simp [Hub.handler?, hm], rfl⟩
  · right
    cases p
    case leaving result =>
      simp only [leave] at hs
      split_ifs at hs
      cases hs
      exact .inl ⟨_, rfl, rfl, rfl⟩
    case disowning result =>
      cases hs
      exact .inr ⟨_, rfl, rfl, rfl⟩
    all_goals
      simp only [arrive, lock, add, review, decide, process, remove, release, reduceCtorEq] at hs
    all_goals
      repeat' split at hs
      all_goals cases hs

/-- A handling waits for a key that somebody holds, and for nothing else. -/
theorem waits_of_step {deadline : Option Instant} (hh : hub.handler? h = some handler)
    (hs : p.step hub h = .waits deadline) :
    ∃ key m deadline, p = .locking key m deadline
      ∧ (hub.depot handler.depot).locks.acquire? key (some h) = none := by
  obtain ⟨member, hm, rfl⟩ := Option.map_eq_some_iff.1 hh
  simp only [step, hm] at hs
  cases p
  case locking key m deadline =>
    refine ⟨key, m, deadline, rfl, ?_⟩
    simp only [lock] at hs
    split at hs
    · cases hs
    · assumption
  all_goals
    simp only [arrive, add, review, decide, process, remove, release, leave, reduceCtorEq] at hs
  all_goals
    repeat' split at hs
    all_goals cases hs

theorem step_arriving (hh : hub.handler? h = some handler) {m : Message} {key : Key}
    (hc : handler.correlation m = .returned (some key)) :
    (arriving m).step hub h
      = .goes (hub.refer h) (.handling h (.locking key m (handler.deadline hub.clock))) := by
  obtain ⟨member, hm, rfl⟩ := Option.map_eq_some_iff.1 hh
  simp only [step, hm, arrive, hc]
  rfl

theorem step_locking (hh : hub.handler? h = some handler) {key : Key} {locks : KeyLocks}
    (hl : (hub.depot handler.depot).locks.acquire? key (some h) = some locks) (m : Message)
    (deadline : Option Instant) :
    (locking key m deadline).step hub h
      = .goes (hub.setDepot handler.depot { hub.depot handler.depot with locks := locks })
        (.handling h (.adding key m)) := by
  obtain ⟨member, hm, rfl⟩ := Option.map_eq_some_iff.1 hh
  simp only [step, hm, lock, hl]

end Handling

namespace Offer

/-- A group that is as it was when it was selected, as far as its time tells. -/
structure Unmoved (hub : Hub σ) (handler : Handler σ) (stale g : Group) : Prop where
  read : (hub.depot handler.depot).get stale.key hub.clock = .ok g
  filled : g.isEmpty = false
  same : g.lastModified = stale.lastModified

/-- The ways on from the phases of an offer. -/
inductive Goes (hub : Hub σ) (handler : Handler σ) (h : HandlerId) (stale : Group) :
    Offer σ → Hub σ → Offer σ → Prop
  | met : hub.isLive h = true → Goes hub handler h stale .meeting (hub.refer h) .seizing
  | taken {locks} :
      (hub.depot handler.depot).locks.tryAcquireOwned? stale.key h = some locks →
      Goes hub handler h stale .seizing
        (hub.setDepot handler.depot { hub.depot handler.depot with locks := locks }) .rereading
  | busy : (hub.depot handler.depot).locks.tryAcquireOwned? stale.key h = none →
      Goes hub handler h stale .seizing hub (.leaving (.returned .skipped))
  | unread {e r} : (hub.depot handler.depot).get stale.key hub.clock = .error e →
      Goes hub handler h stale .rereading (hub.log r) (.releasing false (.returned .skipped))
  | gone {g} : (hub.depot handler.depot).get stale.key hub.clock = .ok g → g.isEmpty = true →
      Goes hub handler h stale .rereading hub (.releasing true (.returned .skipped))
  | changed {g} : (hub.depot handler.depot).get stale.key hub.clock = .ok g → g.isEmpty = false →
      g.lastModified ≠ stale.lastModified →
      Goes hub handler h stale .rereading hub (.releasing false (.returned .skipped))
  | completes {g} : Unmoved hub handler stale g → handler.settings.expiryAction = .forceComplete →
      Goes hub handler h stale .rereading hub (.completing g (handler.process g))
  | discards {g} : Unmoved hub handler stale g → handler.settings.expiryAction = .discard →
      handler.discard.isSome = true →
      Goes hub handler h stale .rereading hub (.discarding g g.messages)
  | drops {g r} : Unmoved hub handler stale g → handler.settings.expiryAction = .discard →
      handler.discard = none →
      Goes hub handler h stale .rereading (hub.log r) (.removing g)
  | discarded {g} : Goes hub handler h stale (.discarding g []) hub (.removing g)
  | unchannelled {g m left} : handler.discard = none →
      Goes hub handler h stale (.discarding g (m :: left)) hub (.removing g)
  | sends {g m left channel} : handler.discard = some channel →
      Goes hub handler h stale (.discarding g (m :: left)) hub (.sending g m left (channel.send m))
  | sending {g m left work hub' work'} : work.step hub = .goes hub' work' →
      Goes hub handler h stale (.sending g m left work) hub' (.sending g m left work')
  | sent {g m left work hub'} {result : Except ChannelError Unit} : work.step hub = .gives result →
      hub.Alike hub' → Goes hub handler h stale (.sending g m left work) hub' (.discarding g left)
  | unsent {g m left work} : work.step hub = .panics →
      Goes hub handler h stale (.sending g m left work) hub (.releasing false .panicked)
  | completing {g work hub' work'} : work.step hub = .goes hub' work' →
      Goes hub handler h stale (.completing g work) hub' (.completing g work')
  | completed {g work hub'} {result : Except ProcessingError Unit} :
      work.step hub = .gives result → hub.Alike hub' →
      Goes hub handler h stale (.completing g work) hub' (.removing g)
  | broken {g work} : work.step hub = .panics →
      Goes hub handler h stale (.completing g work) hub (.releasing false .panicked)
  | removed {g depot gone} : (hub.depot handler.depot).remove stale.key = .ok (depot, gone) →
      Goes hub handler h stale (.removing g) (hub.setDepot handler.depot depot)
        (.releasing true (.returned .expired))
  | unremoved {g e r} : (hub.depot handler.depot).remove stale.key = .error e →
      Goes hub handler h stale (.removing g) (hub.log r) (.releasing true (.returned .expired))
  | released {retire outcome} :
      Goes hub handler h stale (.releasing retire outcome)
        (hub.setDepot handler.depot ((hub.depot handler.depot).release stale.key retire))
        (.leaving outcome)
  | last {outcome} : (hub.unrefer h).isLive h = false →
      Goes hub handler h stale (.leaving outcome) (hub.unrefer h) (.disowning outcome)

variable {hub hub' : Hub σ} {handler : Handler σ} {h : HandlerId} {stale : Group} {p : Offer σ}
  {f : Frame σ}

theorem goes_of_reread
    (hs : reread hub handler h stale = .goes hub' f) :
    ∃ p', f = .offer h stale p' ∧ Goes hub handler h stale .rereading hub' p' := by
  simp only [reread] at hs
  split at hs
  · cases hs
    exact ⟨_, rfl, .unread ‹_›⟩
  · rename_i g hg
    split_ifs at hs with he hm
    · cases hs
      exact ⟨_, rfl, .gone hg he⟩
    · cases hs
      exact ⟨_, rfl, .changed hg (by simpa using he) hm⟩
    · have hun : Unmoved hub handler stale g := ⟨hg, by simpa using he, by simpa using hm⟩
      simp only [act] at hs
      split at hs
      · cases hs
        exact ⟨_, rfl, .completes hun ‹_›⟩
      · split at hs <;> cases hs
        · rename_i hd
          exact ⟨_, rfl, .discards hun ‹_› (by simp [hd])⟩
        · exact ⟨_, rfl, .drops hun ‹_› ‹_›⟩

theorem handler_of_step (hs : p.step hub h stale = .goes hub' f) :
    ∃ handler, hub.handler? h = some handler := by
  unfold step at hs
  split at hs
  · cases hs
  · exact ⟨_, Hub.handler?_of_member? ‹_›⟩

theorem goes_of_step (hh : hub.handler? h = some handler) (hs : p.step hub h stale = .goes hub' f) :
    ∃ p', f = .offer h stale p' ∧ Goes hub handler h stale p hub' p' := by
  obtain ⟨member, hm, rfl⟩ := Option.map_eq_some_iff.1 hh
  simp only [step, hm] at hs
  cases p with
  | meeting =>
    simp only [meet] at hs
    split_ifs at hs
    cases hs
    exact ⟨_, rfl, .met ‹_›⟩
  | seizing =>
    simp only [seize] at hs
    split at hs <;> cases hs
    · exact ⟨_, rfl, .taken ‹_›⟩
    · exact ⟨_, rfl, .busy ‹_›⟩
  | rereading => exact goes_of_reread hs
  | discarding g left =>
    rcases left with _ | ⟨m, left⟩ <;> simp only [discardNext] at hs
    · cases hs
      exact ⟨_, rfl, .discarded⟩
    · split at hs <;> cases hs
      · exact ⟨_, rfl, .unchannelled ‹_›⟩
      · exact ⟨_, rfl, .sends ‹_›⟩
  | sending g m left work =>
    simp only [send] at hs
    split at hs <;> cases hs
    · exact ⟨_, rfl, .sending ‹_›⟩
    · exact ⟨_, rfl, .sent ‹_› (.refl hub)⟩
    · exact ⟨_, rfl, .sent ‹_› (.log hub _)⟩
    · exact ⟨_, rfl, .unsent ‹_›⟩
  | completing g work =>
    simp only [complete] at hs
    split at hs <;> cases hs
    · exact ⟨_, rfl, .completing ‹_›⟩
    · exact ⟨_, rfl, .completed ‹_› (.refl hub)⟩
    · exact ⟨_, rfl, .completed ‹_› (.log hub _)⟩
    · exact ⟨_, rfl, .broken ‹_›⟩
  | removing g =>
    simp only [remove] at hs
    split at hs <;> cases hs
    · exact ⟨_, rfl, .removed ‹_›⟩
    · exact ⟨_, rfl, .unremoved ‹_›⟩
  | releasing retire outcome =>
    simp only [release] at hs
    cases hs
    exact ⟨_, rfl, .released⟩
  | leaving outcome =>
    simp only [leave] at hs
    split_ifs at hs with hl
    cases hs
    exact ⟨_, rfl, .last (by simpa using hl)⟩
  | disowning outcome => cases hs

theorem calls_of_step {inner : Frame σ} (hs : p.step hub h stale = .calls hub' f inner) :
    hub' = hub ∧ f = .offer h stale p
      ∧ ((∃ g m left work, p = .sending g m left work ∧ work.step hub = .calls inner)
        ∨ ∃ g work, p = .completing g work ∧ work.step hub = .calls inner) := by
  unfold step at hs
  split at hs
  · cases hs
  · cases p
    case sending g m left work =>
      simp only [send] at hs
      split at hs <;> cases hs
      exact ⟨rfl, rfl, .inl ⟨_, _, _, _, rfl, ‹_›⟩⟩
    case completing g work =>
      simp only [complete] at hs
      split at hs <;> cases hs
      exact ⟨rfl, rfl, .inr ⟨_, _, rfl, ‹_›⟩⟩
    case discarding g left =>
      rcases left with _ | ⟨m, left⟩ <;> simp only [discardNext, reduceCtorEq] at hs
      split at hs <;> cases hs
    all_goals
      simp only [meet, seize, reread, act, remove, release, leave, reduceCtorEq] at hs
    all_goals
      repeat' split at hs
      all_goals cases hs

theorem ends_of_step {r : Reply} (hs : p.step hub h stale = .ends hub' r) :
    (hub.handler? h = none ∧ hub' = hub) ∨ (p = .meeting ∧ hub' = hub)
      ∨ (∃ outcome, p = .leaving outcome ∧ hub' = hub.unrefer h)
      ∨ ∃ outcome, p = .disowning outcome ∧ hub' = hub.disown h := by
  unfold step at hs
  split at hs
  · rename_i hm
    cases hs
    exact .inl ⟨by simp [Hub.handler?, hm], rfl⟩
  · right
    cases p
    case meeting =>
      simp only [meet] at hs
      split_ifs at hs
      cases hs
      exact .inl ⟨rfl, rfl⟩
    case leaving outcome =>
      simp only [leave] at hs
      split_ifs at hs
      cases hs
      exact .inr (.inl ⟨_, rfl, rfl⟩)
    case disowning outcome =>
      cases hs
      exact .inr (.inr ⟨_, rfl, rfl⟩)
    case discarding g left =>
      rcases left with _ | ⟨m, left⟩ <;> simp only [discardNext, reduceCtorEq] at hs
      split at hs <;> cases hs
    all_goals
      simp only [seize, reread, act, send, complete, remove, release, reduceCtorEq] at hs
    all_goals
      repeat' split at hs
      all_goals cases hs

end Offer

namespace Pass

/-- The ways on from the phases of a pass. -/
inductive Goes (hub : Hub σ) (d : DepotId) (timeout : Nat) : Pass σ → Hub σ → Pass σ → Prop
  | selected {stale} : stale ≠ [] →
      hub.arrange ((hub.depot d).store.stale timeout hub.clock) = stale →
      Goes hub d timeout .selecting hub (.consulting stale)
  | consulted {stale} :
      Goes hub d timeout (.consulting stale) hub (.next ⟨(hub.depot d).participants, stale, [], 0⟩)
  | takes {t g rest} : t.rest = g :: rest →
      Goes hub d timeout (.next t) hub
        (.offering { t with rest := rest } g t.participants ⟨false, false⟩)
  | ready {t} : t.rest = [] → Goes hub d timeout (.next t) hub (.pruning t)
  | answered {t g said} : said.attached = true →
      Goes hub d timeout (.offering t g [] said) hub (.next (counted t said.expired))
  | unanswered {t g said} : said.attached = false →
      Goes hub d timeout (.offering t g [] said) hub (.claiming t g)
  | hooks {t g id left said work} : (∀ hook ∈ hub.hooks[id]?, work = hook g) →
      (hub.hooks[id]? = none → work = .done .detached) →
      Goes hub d timeout (.offering t g (.hook id :: left) said) hub
        (.hooked t g (.hook id) left said work)
  | hooked {t g who left said work hub' work'} : work.step hub = .goes hub' work' →
      Goes hub d timeout (.hooked t g who left said work) hub' (.hooked t g who left said work')
  | heard {t g who left said work outcome} : work.step hub = .gives outcome →
      Goes hub d timeout (.hooked t g who left said work) hub (Pass.heard t g who left said outcome)
  | broken {t g who left said work} : work.step hub = .panics →
      Goes hub d timeout (.hooked t g who left said work) hub .failing
  | claimed {t g locks} : (hub.depot d).locks.tryAcquire? g.key = some locks →
      Goes hub d timeout (.claiming t g) (hub.setDepot d { hub.depot d with locks := locks })
        (.comparing t g)
  | busy {t g} : (hub.depot d).locks.tryAcquire? g.key = none →
      Goes hub d timeout (.claiming t g) hub (.next t)
  | swept {t g} : (hub.depot d).store.isUnchanged g = true →
      Goes hub d timeout (.comparing t g)
        (hub.setDepot d { hub.depot d with store := ((hub.depot d).store.remove g.key).1 })
        (.freeing t g true true)
  | kept {t g} : (hub.depot d).store.isUnchanged g = false →
      Goes hub d timeout (.comparing t g)
        (hub.setDepot d { hub.depot d with store := (hub.depot d).store })
        (.freeing t g (!(hub.depot d).store.contains g.key) false)
  | freed {t g retire removed} :
      Goes hub d timeout (.freeing t g retire removed)
        (hub.setDepot d ((hub.depot d).release g.key retire)) (.next (counted t removed))

variable {hub hub' : Hub σ} {d : DepotId} {timeout : Nat} {p : Pass σ} {f : Frame σ}

theorem goes_of_step (hs : p.step hub d timeout = .goes hub' f) :
    ∃ p', f = .pass d timeout p' ∧ Goes hub d timeout p hub' p' := by
  cases p with
  | selecting =>
    simp only [step, select] at hs
    split at hs
    · cases hs
    · split at hs <;> cases hs
      exact ⟨_, rfl, .selected (by simpa using ‹_›) rfl⟩
  | consulting stale =>
    cases hs
    exact ⟨_, rfl, .consulted⟩
  | next t =>
    simp only [step, takeNext] at hs
    split at hs <;> cases hs
    · exact ⟨_, rfl, .ready ‹_›⟩
    · exact ⟨_, rfl, .takes ‹_›⟩
  | offering t g left said =>
    rcases left with _ | ⟨who | id, left⟩ <;> simp only [step, offer] at hs
    · split_ifs at hs with ha <;> cases hs
      · exact ⟨_, rfl, .answered ha⟩
      · exact ⟨_, rfl, .unanswered (by simpa using ha)⟩
    · cases hs
    · cases hs
      refine ⟨_, rfl, .hooks ?_ ?_⟩
      · intro hook hmem
        simp [Option.mem_def.1 hmem]
      · intro hnone
        simp [hnone]
  | waiting => cases hs
  | hooked t g who left said work =>
    simp only [step, runHook] at hs
    split at hs <;> cases hs
    · exact ⟨_, rfl, .hooked ‹_›⟩
    · exact ⟨_, rfl, .heard ‹_›⟩
    · exact ⟨_, rfl, .broken ‹_›⟩
  | claiming t g =>
    simp only [step, claim] at hs
    split at hs <;> cases hs
    · exact ⟨_, rfl, .claimed ‹_›⟩
    · exact ⟨_, rfl, .busy ‹_›⟩
  | comparing t g =>
    simp only [step, compare] at hs
    rcases hu : (hub.depot d).store.isUnchanged g with _ | _
    · rw [Store.removeUnchanged_of_changed hu] at hs
      cases hs
      exact ⟨_, rfl, .kept hu⟩
    · rw [Store.removeUnchanged_of_unchanged hu] at hs
      cases hs
      refine ⟨_, rfl, ?_⟩
      have hgone : ((hub.depot d).store.remove g.key).1.contains g.key = false := by
        simp [Store.contains, Store.find?_remove]
      rw [hgone]
      exact .swept hu
  | freeing t g retire removed =>
    cases hs
    exact ⟨_, rfl, .freed⟩
  | pruning t => cases hs
  | failing => cases hs

theorem calls_of_step {inner : Frame σ} (hs : p.step hub d timeout = .calls hub' f inner) :
    hub' = hub ∧
      ((∃ t g h left said, p = .offering t g (.handler h :: left) said
          ∧ f = .pass d timeout (.waiting t g (.handler h) left said)
          ∧ inner = .offer h g .meeting)
        ∨ ∃ t g who left said work, p = .hooked t g who left said work ∧ f = .pass d timeout p
          ∧ work.step hub = .calls inner) := by
  cases p
  case offering t g left said =>
    rcases left with _ | ⟨who | id, left⟩ <;> simp only [step, offer] at hs
    · split_ifs at hs
    · cases hs
      exact ⟨rfl, .inl ⟨_, _, _, _, _, rfl, rfl, rfl⟩⟩
    · cases hs
  case hooked t g who left said work =>
    simp only [step, runHook] at hs
    split at hs <;> cases hs
    exact ⟨rfl, .inr ⟨_, _, _, _, _, _, rfl, rfl, ‹_›⟩⟩
  all_goals
    simp only [step, select, consult, takeNext, claim, compare, free, prune, reduceCtorEq] at hs
  all_goals
    repeat' split at hs
    all_goals cases hs

theorem ends_of_step {r : Reply} (hs : p.step hub d timeout = .ends hub' r) :
    (hub' = hub ∧ (p = .selecting ∨ p = .failing))
      ∨ ∃ t, p = .pruning t ∧ hub' = hub.setDepot d ((hub.depot d).prune t.detached) := by
  cases p
  case selecting =>
    simp only [step, select] at hs
    repeat' split at hs
    all_goals cases hs
    all_goals exact .inl ⟨rfl, .inl rfl⟩
  case failing =>
    cases hs
    exact .inl ⟨rfl, .inr rfl⟩
  case pruning t =>
    cases hs
    exact .inr ⟨_, rfl, rfl⟩
  all_goals
    simp only [step, consult, takeNext, offer, runHook, claim, compare, free, reduceCtorEq] at hs
  all_goals
    repeat' split at hs
    all_goals cases hs

end Pass

namespace Drop

variable {hub hub' : Hub σ} {h : HandlerId} {p : Drop} {f : Frame σ}

theorem goes_of_step (hs : p.step hub h = .goes hub' f) :
    f = .drop h .disowning ∧ hub' = hub.unrefer h := by
  cases p <;> simp only [step, reduceCtorEq] at hs
  split_ifs at hs
  cases hs
  exact ⟨rfl, rfl⟩

theorem calls_of_step {inner : Frame σ} (hs : p.step hub h = .calls hub' f inner) : False := by
  cases p <;> simp only [step, reduceCtorEq] at hs
  split_ifs at hs

theorem ends_of_step {r : Reply} (hs : p.step hub h = .ends hub' r) :
    hub' = hub.unrefer h ∨ hub' = hub.disown h := by
  cases p <;> simp only [step] at hs
  · split_ifs at hs
    cases hs
    exact .inl rfl
  · cases hs
    exact .inr rfl

end Drop

end Collate
