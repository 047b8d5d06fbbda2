import Collate.Proofs.Ledger

/-!
# The course of a call

What the books note of one call, in order, spells one of a few courses. A handling names a key, adds
its message, and may complete a group and then remove that very group. An offer completes or
discards a group and then removes that very group. A pass selects, and may sweep up groups that
nobody answers for. A panic breaks a course off. The phase of a call tells how far its course has
got (`Frame.Tells`), and every step goes on with it (`Frame.Tells.goes`).
-/

namespace Collate

variable {σ : Type}

/-- What is done with a group before it is removed. -/
inductive Dealing (h : HandlerId) (g : Group) : List Doing → Prop
  | completed (called : Bool) : Dealing h g [.completed h g called]
  | discarded : Dealing h g (.discarded h g true :: g.messages.map .sent)
  | dropped : Dealing h g [.discarded h g false]

/-- The removal of a stored group by a pass. -/
def Sweep (d : DepotId) (timeout : Nat) (x : Doing) : Prop :=
  ∃ g t, x = .removed d g.key (some g) t (.pass timeout)

/-- The courses of calls. -/
inductive Course : List Doing → Prop
  | bare : Course []
  | named (h : HandlerId) (m : Message) (key : Key) : Course [.named h m key]
  | added (h : HandlerId) (d : DepotId) (key : Key) (m : Message) (t : Instant) :
      Course [.named h m key, .added h d key m t]
  | released {h d m g t t' dealing} : Dealing h g dealing →
      Course ([.named h m g.key, .added h d g.key m t] ++ dealing
        ++ [.removed d g.key (some g) t' .handling])
  | expired {h d g t timeout dealing} : Dealing h g dealing →
      Course (dealing ++ [.removed d g.key (some g) t (.offer timeout)])
  | passed {d timeout t sweeps} : (∀ x ∈ sweeps, Sweep d timeout x) →
      Course (.selected d timeout t :: sweeps)
  | broken {c} (rest : List Doing) : Course (c ++ rest) → rest ≠ [] → Course (c ++ [.panicked])

/-- A note as one call after another at a place hears it; the newest call stands first. -/
def Note.hear (p : Place) (calls : List (List Doing)) : Note → List (List Doing)
  | .came q => if q = p then [] :: calls else calls
  | .did q x =>
    if q = p then
      match calls with
      | [] => [[x]]
      | c :: older => (c ++ [x]) :: older
    else calls

/-- What each call at a place did, the newest call first. -/
def calls (p : Place) (notes : List Note) : List (List Doing) := notes.foldl (Note.hear p) []

@[simp] theorem calls_nil (p : Place) : calls p [] = [] := rfl

@[simp] theorem calls_snoc (p : Place) (notes : List Note) (x : Note) :
    calls p (notes ++ [x]) = x.hear p (calls p notes) := by
  simp only [calls, List.foldl_append, List.foldl_cons, List.foldl_nil]

/-- What has been noted of a handling by the time it is at a phase. -/
def Handling.Tells (hub : Hub σ) (h : HandlerId) (c : List Doing) : Handling σ → Prop
  | .arriving _ => c = []
  | .locking key m _ => c = [.named h m key]
  | .adding key m => c = [.named h m key]
  | .reviewing key _ => ∃ m, c = [.named h m key]
  | .deciding key _ => ∃ d m t, hub.home? h = some d ∧ c = [.named h m key, .added h d key m t]
  | .processing key g _ => g.key = key ∧ ∃ d m t called, hub.home? h = some d
      ∧ c = [.named h m key, .added h d key m t, .completed h g called]
  | .removing key g _ => g.key = key ∧ ∃ d m t called, hub.home? h = some d
      ∧ c = [.named h m key, .added h d key m t, .completed h g called]
  | _ => Course c

def Offer.Tells (hub : Hub σ) (h : HandlerId) (stale : Group) (c : List Doing) : Offer σ → Prop
  | .meeting => c = []
  | .seizing => c = []
  | .rereading => c = []
  | .discarding g left => g.key = stale.key
      ∧ (∃ handler, hub.handler? h = some handler ∧ handler.discard.isSome = true)
      ∧ ∃ gone, g.messages = gone ++ left ∧ c = .discarded h g true :: gone.map .sent
  | .sending g _ left _ => g.key = stale.key
      ∧ (∃ handler, hub.handler? h = some handler ∧ handler.discard.isSome = true)
      ∧ ∃ gone, g.messages = gone ++ left ∧ c = .discarded h g true :: gone.map .sent
  | .completing g _ => g.key = stale.key ∧ ∃ called, c = [.completed h g called]
  | .removing g => g.key = stale.key ∧ Dealing h g c
  | _ => Course c

def Pass.Tells (d : DepotId) (timeout : Nat) (c : List Doing) : Pass σ → Prop
  | .selecting => c = []
  | .failing => Course c
  | _ => ∃ t sweeps, c = .selected d timeout t :: sweeps ∧ ∀ x ∈ sweeps, Sweep d timeout x

def Frame.Tells (hub : Hub σ) (c : List Doing) : Frame σ → Prop
  | .handling h p => p.Tells hub h c
  | .offer h stale p => p.Tells hub h stale c
  | .pass d timeout p => p.Tells d timeout c
  | .drop _ _ => c = []

/-- A hub on whose shelves a call is not mistaken. -/
structure Frame.Right (hub : Hub σ) (f : Frame σ) : Prop where
  tidy : ∀ d, (hub.depot d).shelf.Tidy
  fits : ∀ d key x, f.grip hub d = some (key, x) → x.Fits ((hub.depot d).shelf.group? key)

namespace Handling.Goes

variable {hub hub' : Hub σ} {handler : Handler σ} {h : HandlerId} {p p' : Handling σ}
  {c : List Doing}

theorem tells (hg : Goes hub handler h p hub' p') (ho : hub.Orderly)
    (hh : hub.handler? h = some handler) (hr : (Frame.handling h p).Right hub)
    (ht : p.Tells hub h c) : p'.Tells hub h (c ++ (p.doing hub handler h p').toList) := by
  have hhome := Hub.home?_of_handler? hh
  have hfits : ∀ key x, p.grip = some (key, x) →
      x.Fits ((hub.depot handler.depot).shelf.group? key) := by
    intro key x hx
    exact hr.fits handler.depot key x (by rw [Frame.grip_handling, if_pos hhome, hx])
  cases hg
  case struck =>
    cases ht
    exact .broken (c := []) _ (.named h default default) (by simp)
  case keyless =>
    cases ht
    exact .bare
  case keyed =>
    cases ht
    rfl
  case taken =>
    cases ht
    rfl
  case late =>
    cases ht
    exact .named h _ _
  case added key m depot g ha =>
    cases ht
    exact ⟨handler.depot, m, hub.clock, hhome, rfl⟩
  case unadded =>
    cases ht
    exact ⟨_, rfl⟩
  case reviewed =>
    obtain ⟨m, rfl⟩ := ht
    exact .named h m _
  case undecided key g _ =>
    obtain ⟨d, m, t, -, rfl⟩ := ht
    refine .broken [.completed h ⟨key, [], 0⟩ true, .removed d key (some ⟨key, [], 0⟩) t .handling]
      ?_ (by simp)
    exact .released (g := ⟨key, [], 0⟩) (.completed true)
  case pending =>
    obtain ⟨d, m, t, -, rfl⟩ := ht
    exact .added h d _ m t
  case complete key g _ =>
    obtain ⟨d, m, t, hd, rfl⟩ := ht
    have hg : (hub.depot handler.depot).shelf.group? key = some g := hfits key (.seen g) rfl
    exact ⟨(hr.tidy _ _ _ hg).1, d, m, t, handler.output.isSome, hd, rfl⟩
  case processing => simpa [doing, Tells] using ht
  case processed => simpa [doing, Tells] using ht
  case broken key g work _ =>
    obtain ⟨rfl, d, m, t, called, -, rfl⟩ := ht
    exact .broken [.removed d g.key (some g) t .handling] (.released (.completed called)) (by simp)
  case removed key g result depot gone hr' =>
    obtain ⟨rfl, d, m, t, called, hd, rfl⟩ := ht
    have hg : (hub.depot handler.depot).shelf.group? g.key = some g := hfits g.key (.seen g) rfl
    have hremoval := hr'
    rw [(ho.service _).remove] at hr'
    cases hr'
    cases hhome.symm.trans hd
    simp only [doing, Depot.removal, hremoval]
    rw [show (hub.depot handler.depot).store.find? g.key = some g from hg]
    exact .released (.completed called)
  case unremoved hr' =>
    rw [(ho.service _).remove] at hr'
    cases hr'
  case released => simpa [doing, Tells] using ht
  case last => simpa [doing, Tells] using ht

end Handling.Goes

namespace Offer.Goes

variable {hub hub' : Hub σ} {handler : Handler σ} {h : HandlerId} {stale : Group} {p p' : Offer σ}
  {c : List Doing}

theorem stored_of_unmoved {g : Group} (ho : hub.Orderly) (hun : Unmoved hub handler stale g) :
    (hub.depot handler.depot).shelf.group? stale.key = some g := by
  obtain ⟨hread, hfilled, -⟩ := hun
  rw [(ho.service _).get] at hread
  rcases hg : (hub.depot handler.depot).store.find? stale.key with _ | stored
  · rw [Store.get_of_find?_none hg] at hread
    cases hread
    cases hfilled
  · rw [Store.get_of_find? hg] at hread
    cases hread
    exact hg

theorem tells (hg : Goes hub handler h stale p hub' p') (ho : hub.Orderly)
    (hh : hub.handler? h = some handler) (hr : (Frame.offer h stale p).Right hub)
    (ht : p.Tells hub h stale c) (timeout : Option Nat) :
    p'.Tells hub h stale (c ++ (p.doing hub handler h stale timeout p').toList) := by
  have hhome := Hub.home?_of_handler? hh
  have hfits : ∀ key x, p.grip stale = some (key, x) →
      x.Fits ((hub.depot handler.depot).shelf.group? key) := by
    intro key x hx
    exact hr.fits handler.depot key x (by rw [Frame.grip_offer, if_pos hhome, hx])
  have hkey : ∀ g, Unmoved hub handler stale g → g.key = stale.key :=
    fun g hun => (hr.tidy _ _ _ (stored_of_unmoved ho hun)).1
  cases hg
  case met =>
    cases ht
    rfl
  case taken =>
    cases ht
    rfl
  case busy =>
    cases ht
    exact .bare
  case unread =>
    cases ht
    exact .bare
  case gone =>
    cases ht
    exact .bare
  case changed =>
    cases ht
    exact .bare
  case completes g hun _ =>
    cases ht
    exact ⟨hkey g hun, handler.output.isSome, rfl⟩
  case discards g hun _ hdiscard =>
    cases ht
    exact ⟨hkey g hun, ⟨handler, hh, hdiscard⟩, [], rfl, rfl⟩
  case drops g r hun _ _ =>
    cases ht
    exact ⟨hkey g hun, .dropped⟩
  case discarded g =>
    obtain ⟨hk, -, gone, hgone, rfl⟩ := ht
    rw [List.append_nil] at hgone
    subst hgone
    simpa [doing, Tells] using ⟨hk, .discarded⟩
  case unchannelled hnone =>
    obtain ⟨-, ⟨handler', hh', hsome⟩, -⟩ := ht
    rw [hh] at hh'
    cases hh'
    simp [hnone] at hsome
  case sends g m left channel _ =>
    obtain ⟨hk, hdiscard, gone, hgone, rfl⟩ := ht
    exact ⟨hk, hdiscard, gone ++ [m], by simpa using hgone, by simp [doing]⟩
  case sending => simpa [doing, Tells] using ht
  case sent => simpa [doing, Tells] using ht
  case unsent g m left work _ =>
    obtain ⟨hk, hdiscard, gone, hgone, rfl⟩ := ht
    have hcourse : Course (.discarded h g true :: g.messages.map .sent
        ++ [Doing.removed handler.depot g.key (some g) 0 (.offer timeout)]) := .expired .discarded
    refine .broken
      (left.map .sent ++ [Doing.removed handler.depot g.key (some g) 0 (.offer timeout)])
      ?_ (by simp)
    simpa [hgone] using hcourse
  case completing => simpa [doing, Tells] using ht
  case completed g work result _ _ =>
    obtain ⟨hk, called, rfl⟩ := ht
    exact ⟨hk, .completed called⟩
  case broken g work _ =>
    obtain ⟨hk, called, rfl⟩ := ht
    exact .broken [.removed handler.depot g.key (some g) 0 (.offer timeout)]
      (.expired (.completed called)) (by simp)
  case removed g depot gone hr' =>
    obtain ⟨hk, hdealing⟩ := ht
    have hg : (hub.depot handler.depot).shelf.group? stale.key = some g :=
      hfits stale.key (.seen g) rfl
    have hremoval := hr'
    rw [(ho.service _).remove] at hr'
    cases hr'
    simp only [doing, Depot.removal, hremoval]
    rw [show (hub.depot handler.depot).store.find? stale.key = some g from hg, ← hk]
    exact .expired hdealing
  case unremoved hr' =>
    rw [(ho.service _).remove] at hr'
    cases hr'
  case released => simpa [doing, Tells] using ht
  case last => simpa [doing, Tells] using ht

end Offer.Goes

namespace Pass.Goes

variable {hub hub' : Hub σ} {d : DepotId} {timeout : Nat} {p p' : Pass σ} {c : List Doing}

theorem tells (hg : Goes hub d timeout p hub' p') (hr : (Frame.pass d timeout p).Right hub)
    (ht : p.Tells d timeout c) : p'.Tells d timeout (c ++ (p.doing hub d timeout p').toList) := by
  cases hg
  case selected =>
    cases ht
    exact ⟨_, [], rfl, by simp⟩
  case broken =>
    obtain ⟨t, sweeps, rfl, hsweeps⟩ := ht
    refine .broken [.removed d default (some ⟨default, [], 0⟩) 0 (.pass timeout)]
      (.passed (t := t) fun x hx => ?_) (by simp)
    rcases List.mem_append.1 hx with hx | hx
    · exact hsweeps x hx
    · exact ⟨⟨default, [], 0⟩, 0, List.mem_singleton.1 hx⟩
  case swept t g hu =>
    obtain ⟨time, sweeps, rfl, hsweeps⟩ := ht
    obtain ⟨current, hcurrent, -⟩ := Store.isUnchanged_iff.1 hu
    have hkey : current.key = g.key := (hr.tidy d g.key current hcurrent).1
    refine ⟨time, sweeps ++ [Doing.removed d g.key (some current) hub.clock (.pass timeout)],
      by simp [doing, hcurrent], fun x hx => ?_⟩
    rcases List.mem_append.1 hx with hx | hx
    · exact hsweeps x hx
    · exact ⟨current, hub.clock, by rw [List.mem_singleton.1 hx, hkey]⟩
  case heard =>
    unfold Pass.heard
    simpa [doing, Tells] using ht
  all_goals simpa [doing, Tells] using ht

end Pass.Goes

namespace Frame

variable {hub hub' : Hub σ} {f f' inner : Frame σ} {c : List Doing}

namespace Tells

theorem grows (hg : hub.Grows hub') (ht : f.Tells hub c) : f.Tells hub' c := by
  have hdiscard : ∀ h, (∃ handler, hub.handler? h = some handler ∧ handler.discard.isSome = true) →
      ∃ handler, hub'.handler? h = some handler ∧ handler.discard.isSome = true := by
    rintro h ⟨old, hold, hsome⟩
    obtain ⟨new, hnew, hmake⟩ := hg.handlers h old hold
    exact ⟨new, hnew, hmake.discard ▸ hsome⟩
  cases f with
  | handling h p =>
    cases p
    case deciding =>
      obtain ⟨d, m, t, hd, rfl⟩ := ht
      exact ⟨d, m, t, hg.home? hd, rfl⟩
    case processing =>
      obtain ⟨hk, d, m, t, called, hd, rfl⟩ := ht
      exact ⟨hk, d, m, t, called, hg.home? hd, rfl⟩
    case removing =>
      obtain ⟨hk, d, m, t, called, hd, rfl⟩ := ht
      exact ⟨hk, d, m, t, called, hg.home? hd, rfl⟩
    all_goals exact ht
  | offer h stale p =>
    cases p
    case discarding => exact ⟨ht.1, hdiscard h ht.2.1, ht.2.2⟩
    case sending => exact ⟨ht.1, hdiscard h ht.2.1, ht.2.2⟩
    all_goals exact ht
  | pass d timeout p => exact ht
  | drop h p => exact ht

theorem goes (ho : hub.Orderly) (hr : f.Right hub) (ht : f.Tells hub c)
    (hs : f.step hub = .goes hub' f') (under : Option (Frame σ)) :
    f'.Tells hub (c ++ (f.doing hub under f').toList) := by
  cases f with
  | handling h p =>
    obtain ⟨handler, hh⟩ := Handling.handler_of_step hs
    obtain ⟨p', rfl, hg⟩ := Handling.goes_of_step hh hs
    simp only [doing, hh, Option.bind_some]
    exact hg.tells ho hh hr ht
  | offer h stale p =>
    obtain ⟨handler, hh⟩ := Offer.handler_of_step hs
    obtain ⟨p', rfl, hg⟩ := Offer.goes_of_step hh hs
    simp only [doing, hh, Option.bind_some]
    exact hg.tells ho hh hr ht (under.bind timeout?)
  | pass d timeout p =>
    obtain ⟨p', rfl, hg⟩ := Pass.goes_of_step hs
    exact hg.tells hr ht
  | drop h p =>
    obtain ⟨rfl, rfl⟩ := Drop.goes_of_step hs
    cases ht
    rfl

theorem calls (ht : f.Tells hub c) (hs : f.step hub = .calls hub' f' inner) :
    f'.Tells hub c ∧ inner.Tells hub [] := by
  have hscript : ∀ {α : Type} {s : Script σ α}, s.step hub = .calls inner →
      inner.Tells hub [] := by
    intro α s hcall
    rcases Script.calls_of_step hcall with ⟨id, m, rfl⟩ | ⟨d, timeout, rfl⟩ <;> rfl
  cases f with
  | handling h p =>
    obtain ⟨rfl, rfl, key, g, work, -, hw⟩ := Handling.calls_of_step hs
    exact ⟨ht, hscript hw⟩
  | offer h stale p =>
    obtain ⟨rfl, rfl, ⟨g, m, left, work, -, hw⟩ | ⟨g, work, -, hw⟩⟩ := Offer.calls_of_step hs <;>
      exact ⟨ht, hscript hw⟩
  | pass d timeout p =>
    obtain ⟨rfl, ⟨t, g, h, left, said, rfl, rfl, rfl⟩
      | ⟨t, g, who, left, said, work, -, rfl, hw⟩⟩ := Pass.calls_of_step hs
    · exact ⟨ht, rfl⟩
    · exact ⟨ht, hscript hw⟩
  | drop h p => exact (Drop.calls_of_step hs).elim

theorem resume (ht : f.Tells hub c) (r : Reply) : (f.resume r).Tells hub c := by
  cases f with
  | handling h p => cases p <;> exact ht
  | offer h stale p => cases p <;> exact ht
  | pass d timeout p =>
    cases p
    case waiting =>
      obtain ⟨t, sweeps, rfl, hsweeps⟩ := ht
      simp only [Frame.resume, Pass.resume]
      split
      · exact ⟨t, sweeps, rfl, hsweeps⟩
      · exact .passed hsweeps
    all_goals exact ht
  | drop h p => exact ht

theorem ends (hf : f.Orderly hub) (ht : f.Tells hub c) {r : Reply}
    (hs : f.step hub = .ends hub' r) : Course c := by
  cases f with
  | handling h p =>
    obtain ⟨hh, rfl⟩ | ⟨result, rfl, rfl, -⟩ | ⟨result, rfl, rfl, -⟩ := Handling.ends_of_step hs
    · cases p
      case arriving =>
        cases ht
        exact .bare
      case processing => simp [Frame.Orderly, Handling.Orderly, hh] at hf
      all_goals
        have hsome : (hub'.handler? h).isSome = true := hf
        simp [hh] at hsome
    · exact ht
    · exact ht
  | offer h stale p =>
    obtain ⟨hh, rfl⟩ | ⟨rfl, rfl⟩ | ⟨outcome, rfl, rfl⟩ | ⟨outcome, rfl, rfl⟩ :=
      Offer.ends_of_step hs
    · cases p
      case sending => simp [Frame.Orderly, Offer.Orderly, hh] at hf
      case completing => simp [Frame.Orderly, Offer.Orderly, hh] at hf
      all_goals
        have hsome : (hub'.handler? h).isSome = true := hf
        simp [hh] at hsome
    · cases ht
      exact .bare
    · exact ht
    · exact ht
  | pass d timeout p =>
    obtain ⟨rfl, rfl | rfl⟩ | ⟨t, rfl, rfl⟩ := Pass.ends_of_step hs
    · cases ht
      exact .bare
    · exact ht
    · obtain ⟨time, sweeps, rfl, hsweeps⟩ := ht
      exact .passed hsweeps
  | drop h p =>
    cases ht
    exact .bare

end Tells

end Frame

/-- What the calls at a place did, against the call that is there now: that one is as far as its
phase tells, and all others have run their course. -/
def Told (hub : Hub σ) : Option (Frame σ) → List (List Doing) → Prop
  | none, cs => ∀ c ∈ cs, Course c
  | some _, [] => False
  | some f, c :: older => f.Tells hub c ∧ ∀ c ∈ older, Course c

namespace Told

variable {hub hub' : Hub σ} {cs : List (List Doing)} {f f' : Frame σ}

theorem newest (h : Told hub (some f) cs) :
    ∃ c older, cs = c :: older ∧ f.Tells hub c ∧ ∀ c ∈ older, Course c := by
  rcases cs with _ | ⟨c, older⟩
  · cases h
  · exact ⟨c, older, rfl, h⟩

theorem grows {f? : Option (Frame σ)} (hg : hub.Grows hub') (h : Told hub f? cs) :
    Told hub' f? cs := by
  rcases f? with _ | f
  · exact h
  · obtain ⟨c, older, rfl, ht, holder⟩ := h.newest
    exact ⟨ht.grows hg, holder⟩

theorem comes (h : Told hub none cs) (ht : f.Tells hub []) : Told hub (some f) ([] :: cs) :=
  ⟨ht, h⟩

theorem ends (h : Told hub (some f) cs) (hf : f.Orderly hub) {r : Reply}
    (hs : f.step hub = .ends hub' r) : Told hub none cs := by
  obtain ⟨c, older, rfl, ht, holder⟩ := h.newest
  intro x hx
  rcases List.mem_cons.1 hx with rfl | hx
  · exact ht.ends hf hs
  · exact holder x hx

end Told

theorem calls_came (p q : Place) (notes : List Note) :
    calls p (notes ++ [Note.came q]) = if q = p then [] :: calls p notes else calls p notes := by
  rw [calls_snoc, Note.hear]

theorem calls_did_ne {p q : Place} (h : q ≠ p) (notes : List Note) (x : Option Doing) :
    calls p (notes ++ (x.map (Note.did q)).toList) = calls p notes := by
  rcases x with _ | x
  · simp
  · simp only [Option.map_some, Option.toList_some, calls_snoc, Note.hear, if_neg h]

theorem calls_did {p : Place} {notes : List Note} {c : List Doing} {older : List (List Doing)}
    (h : calls p notes = c :: older) (x : Option Doing) :
    calls p (notes ++ (x.map (Note.did p)).toList) = (c ++ x.toList) :: older := by
  rcases x with _ | x
  · simp [h]
  · simp only [Option.map_some, Option.toList_some, calls_snoc, Note.hear, if_true, h]

theorem Sound.right {hub : Hub σ} {at_ : Place → Option (Frame σ)}
    (hs : ∀ d, Sound (hub.depot d).shelf (grips hub at_ d)) {p : Place} {f : Frame σ}
    (hp : at_ p = some f) : f.Right hub :=
  ⟨fun d => (hs d).tidy, fun d key x hx => (hs d).fits p key x (by simp [grips, hp, hx])⟩

theorem Activity.tells_frame (hub : Hub σ) (a : Activity) : (a.frame : Frame σ).Tells hub [] := by
  cases a <;> rfl

/-- Whatever happens, the books tell of every place how far its calls are. -/
theorem Told.advance {hub hub' : Hub σ} {at_ at' : Place → Option (Frame σ)}
    {notes new : List Note} (ha : Advance hub at_ hub' at' new) (ho : hub.Orderly)
    (hf : ∀ p f, at_ p = some f → f.Orderly hub)
    (hs : ∀ d, Sound (hub.depot d).shelf (grips hub at_ d))
    (ht : ∀ p, Told hub (at_ p) (calls p notes)) (q : Place) :
    Told hub' (at' q) (calls q (notes ++ new)) := by
  refine .grows (ha.grows ho hf) ?_
  cases ha with
  | aside h =>
    rw [List.append_nil]
    exact ht q
  | @starts p a hp =>
    rw [calls_came, Function.update_apply]
    by_cases hq : q = p
    · subst hq
      rw [if_pos rfl, if_pos rfl]
      exact .comes (hp ▸ ht q) (a.tells_frame hub)
    · rw [if_neg hq, if_neg (Ne.symm hq)]
      exact ht q
  | @goes p f hub' f' hp hstep =>
    rw [Function.update_apply]
    by_cases hq : q = p
    · subst hq
      obtain ⟨c, older, hc, htells, holder⟩ := (hp ▸ ht q).newest
      rw [if_pos rfl, calls_did hc]
      exact ⟨htells.goes ho (Sound.right hs hp) hstep _, holder⟩
    · rw [if_neg hq, calls_did_ne (Ne.symm hq)]
      exact ht q
  | @calls p f hub' f' inner hp hstep hab =>
    obtain ⟨c, older, hc, htells, holder⟩ := (hp ▸ ht p).newest
    obtain ⟨hcaller, hinner⟩ := htells.calls hstep
    rw [calls_came, Function.update_apply, Function.update_apply]
    by_cases hq : q = p.above
    · subst hq
      rw [if_pos rfl, if_pos rfl]
      exact .comes (hab ▸ ht p.above) hinner
    · rw [if_neg hq, if_neg (Ne.symm hq)]
      by_cases hqp : q = p
      · subst hqp
        rw [if_pos rfl, hc]
        exact ⟨hcaller, holder⟩
      · rw [if_neg hqp]
        exact ht q
  | @ends p f hub' r hp hstep =>
    rw [List.append_nil, Function.update_apply]
    by_cases hq : q = p
    · subst hq
      rw [if_pos rfl]
      exact (hp ▸ ht q).ends (hf q f hp) hstep
    · rw [if_neg hq]
      exact ht q
  | @returns p f g hub' r hp hstep hg =>
    rw [List.append_nil, Function.update_apply, Function.update_apply]
    by_cases hq : q = p
    · subst hq
      obtain ⟨c, older, hc, htells, holder⟩ := (hg ▸ ht q).newest
      rw [if_pos rfl, hc]
      exact ⟨htells.resume r, holder⟩
    · rw [if_neg hq]
      by_cases hqa : q = p.above
      · subst hqa
        rw [if_pos rfl]
        exact (hp ▸ ht p.above).ends (hf _ f hp) hstep
      · rw [if_neg hqa]
        exact ht q

/-- In every lawful run from rest, the books tell of every place how far its calls are. -/
theorem Machine.told_after {s : Machine σ} (ho : s.Orderly)
    (hs : ∀ d, Sound (s.hub.depot d).shelf (grips s.hub s.frameAt d))
    (hrest : ∀ p, s.frameAt p = none) (moves : List (Move σ)) (hl : s.Lawful moves) (p : Place) :
    Told (s.after moves).hub ((s.after moves).frameAt p) (calls p (s.history moves)) := by
  refine (Machine.along_run
    (P := fun hub at_ notes => (∀ d, Sound (hub.depot d).shelf (grips hub at_ d))
      ∧ ∀ p, Told hub (at_ p) (calls p notes))
    (fun ho hf ha h => ⟨fun d => ha.sound ho hf d (h.1 d), Told.advance ha ho hf h.1 h.2⟩)
    ho ⟨hs, fun p => ?_⟩ moves hl).2 p
  rw [hrest p]
  intro c hc
  cases hc

end Collate
