import Collate.Proofs.Rules
import Mathlib.Logic.Function.Basic

/-!
# The books of a run

A machine together with what may happen around it makes a run: a list of moves. An event of the
machine is a move, and so is whatever the library leaves open: a depot is opened, a hook joins
expiry, stale groups come in another order, and the code behind a handler, which may have a state
of its own, answers differently from now on. Every interleaving of calls is such a list.

The books note each call that begins, and each doing of a call that matters to its group, in the
order of the steps. A call is known by its place, the thread and the number of calls it stands on.
What a move can do is then seen from the places alone (`Advance`).
-/

namespace Collate

variable {σ : Type}

/-- Where a call stands: its thread, and how many calls of that thread wait for it. -/
structure Place where
  thread : Nat
  depth : Nat
  deriving DecidableEq

namespace Place

/-- The place of a call made from here. -/
def above (p : Place) : Place := ⟨p.thread, p.depth + 1⟩

/-- The place of the call that waits for this one. -/
def below? : Place → Option Place
  | ⟨_, 0⟩ => none
  | ⟨i, n + 1⟩ => some ⟨i, n⟩

@[simp] theorem below?_above (p : Place) : p.above.below? = some p := rfl

theorem above_ne (p : Place) : p.above ≠ p := by
  intro h
  have := congrArg Place.depth h
  simp [above] at this

end Place

/-- Who takes a group out of its store: the handling that completed it, the offer that expired it
under a pass, or a pass itself. -/
inductive Remover where
  | handling
  | offer (timeout : Option Nat)
  | pass (timeout : Nat)
  deriving DecidableEq

/-- What the books note of a call. -/
inductive Doing where
  /-- The correlation strategy of a handler gave a message a key. -/
  | named (h : HandlerId) (m : Message) (key : Key)
  | added (h : HandlerId) (d : DepotId) (key : Key) (m : Message) (time : Instant)
  /-- A group goes to the processor, which is called if there is an output channel. -/
  | completed (h : HandlerId) (g : Group) (called : Bool)
  /-- A group is to be discarded, into a channel if there is one. -/
  | discarded (h : HandlerId) (g : Group) (channelled : Bool)
  /-- A message goes to the discard channel. -/
  | sent (m : Message)
  /-- A group is taken out of a store, which answered with it. -/
  | removed (d : DepotId) (key : Key) (g : Option Group) (time : Instant) (by_ : Remover)
  /-- A pass selected the stale groups. -/
  | selected (d : DepotId) (timeout : Nat) (time : Instant)
  /-- Code of the outside panicked. -/
  | panicked

inductive Note where
  | came (p : Place)
  | did (p : Place) (x : Doing)

/-- The removal of the group of a key, if the depot carries it out. -/
def Depot.removal (depot : Depot) (d : DepotId) (key : Key) (now : Instant) (by_ : Remover) :
    Option Doing :=
  match depot.remove key with
  | .ok (_, g) => some (.removed d key g now by_)
  | .error _ => none

def Handling.doing (hub : Hub σ) (handler : Handler σ) (h : HandlerId) :
    Handling σ → Handling σ → Option Doing
  | .arriving m, .locking key _ _ => some (.named h m key)
  | .arriving _, .leaving .panicked => some .panicked
  | .adding key m, .deciding _ _ => some (.added h handler.depot key m hub.clock)
  | .deciding _ g, .processing _ _ _ => some (.completed h g handler.output.isSome)
  | .deciding _ _, .releasing _ _ .panicked => some .panicked
  | .processing _ _ _, .releasing _ _ _ => some .panicked
  | .removing key _ _, .releasing _ _ _ =>
    (hub.depot handler.depot).removal handler.depot key hub.clock .handling
  | _, _ => none

def Offer.doing (hub : Hub σ) (handler : Handler σ) (h : HandlerId) (stale : Group)
    (timeout : Option Nat) : Offer σ → Offer σ → Option Doing
  | .rereading, .completing g _ => some (.completed h g handler.output.isSome)
  | .rereading, .discarding g _ => some (.discarded h g true)
  | .rereading, .removing g => some (.discarded h g false)
  | .discarding _ _, .sending _ m _ _ => some (.sent m)
  | .sending _ _ _ _, .releasing _ _ => some .panicked
  | .completing _ _, .releasing _ _ => some .panicked
  | .removing _, .releasing _ _ =>
    (hub.depot handler.depot).removal handler.depot stale.key hub.clock (.offer timeout)
  | _, _ => none

def Pass.doing (hub : Hub σ) (d : DepotId) (timeout : Nat) : Pass σ → Pass σ → Option Doing
  | .selecting, .consulting _ => some (.selected d timeout hub.clock)
  | .hooked _ _ _ _ _ _, .failing => some .panicked
  | .comparing _ g, .freeing _ _ _ true =>
    some (.removed d g.key ((hub.depot d).store.find? g.key) hub.clock (.pass timeout))
  | _, _ => none

namespace Frame

def timeout? : Frame σ → Option Nat
  | .pass _ timeout _ => some timeout
  | _ => none

/-- What the books note of a step from one frame to the next, over the frame that waits for it. -/
def doing (hub : Hub σ) (under : Option (Frame σ)) : Frame σ → Frame σ → Option Doing
  | .handling h p, .handling _ p' =>
    (hub.handler? h).bind fun handler => p.doing hub handler h p'
  | .offer h stale p, .offer _ _ p' =>
    (hub.handler? h).bind fun handler => p.doing hub handler h stale (under.bind timeout?) p'
  | .pass d timeout p, .pass _ _ p' => p.doing hub d timeout p'
  | _, _ => none

end Frame

/-- What can happen next in a run. -/
inductive Move (σ : Type) where
  | event (e : Event σ)
  | openDepot (capacity : Option Nat)
  /-- A hook of the outside joins expiry in a depot. -/
  | enlist (d : DepotId) (hook : Group → Script σ ExpiryOutcome)
  /-- Stale groups come in another order from now on. -/
  | rearrange (arrange : List Group → List Group)
  /-- The code behind a handler answers differently from now on. -/
  | reform (h : HandlerId) (code : Handler σ)
  /-- Somebody else changes the outside. -/
  | disturb (change : σ → σ)

namespace Machine

def onHub (s : Machine σ) (f : Hub σ → Hub σ) : Machine σ := { s with hub := f s.hub }

def move (s : Machine σ) : Move σ → Machine σ
  | .event e => s.apply e
  | .openDepot capacity => s.onHub fun hub => (hub.openDepot capacity).1
  | .enlist d hook => s.onHub fun hub =>
    let hub' := (hub.addHook hook).1
    ((hub'.register d (.hook hub.hooks.length)).toOption).getD hub'
  | .rearrange arrange => s.onHub fun hub => { hub with arrange := arrange }
  | .reform h code => s.onHub fun hub =>
    { hub with members := hub.members.modify h fun m => { m with handler := code } }
  | .disturb change => s.onHub fun hub => { hub with outside := change hub.outside }

def frameAt (s : Machine σ) (p : Place) : Option (Frame σ) :=
  (s.threads[p.thread]?).bind fun t => t.stack.reverse[p.depth]?

/-- What the books note of the next step of a stack of frames in thread `i`. -/
def stackNotes (hub : Hub σ) (i : Nat) : List (Frame σ) → List Note
  | [] => []
  | f :: below =>
    match f.step hub with
    | .goes _ f' => ((f.doing hub below.head? f').map (Note.did ⟨i, below.length⟩)).toList
    | .calls _ _ _ => [.came ⟨i, below.length + 1⟩]
    | _ => []

/-- What the books note of a move. -/
def notes (s : Machine σ) : Move σ → List Note
  | .event (.start _) => [.came ⟨s.threads.length, 0⟩]
  | .event (.step i) => (s.threads[i]?).elim [] fun t => stackNotes s.hub i t.stack
  | _ => []

def after (s : Machine σ) : List (Move σ) → Machine σ
  | [] => s
  | mv :: moves => (s.move mv).after moves

/-- The books of a run. -/
def history (s : Machine σ) : List (Move σ) → List Note
  | [] => []
  | mv :: moves => s.notes mv ++ (s.move mv).history moves

theorem after_events (s : Machine σ) :
    ∀ events : List (Event σ), s.after (events.map .event) = s.run events
  | [] => rfl
  | e :: events => (s.apply e).after_events events

theorem after_append (s : Machine σ) :
    ∀ a b : List (Move σ), s.after (a ++ b) = (s.after a).after b
  | [], _ => rfl
  | mv :: a, b => (s.move mv).after_append a b

theorem history_append (s : Machine σ) :
    ∀ a b : List (Move σ), s.history (a ++ b) = s.history a ++ (s.after a).history b
  | [], _ => rfl
  | mv :: a, b => by
    simp only [List.cons_append, history, (s.move mv).history_append a b, List.append_assoc]
    rfl

end Machine

/-- Two handlers that differ in their code only. -/
structure Handler.SameMake (a b : Handler σ) : Prop where
  depot : b.depot = a.depot
  settings : b.settings = a.settings
  output : b.output.isSome = a.output.isSome
  discard : b.discard.isSome = a.discard.isSome

theorem Handler.SameMake.refl (a : Handler σ) : a.SameMake a := ⟨rfl, rfl, rfl, rfl⟩

namespace Hub

/-- A hub with more depots and handlers, perhaps, and each handler of the make it was. -/
structure Grows (hub hub' : Hub σ) : Prop where
  handlers : ∀ h old, hub.handler? h = some old →
    ∃ new, hub'.handler? h = some new ∧ old.SameMake new
  length : hub.depots.length ≤ hub'.depots.length

/-- What happens beside all calls: no store and no lock changes, and time does not go back. -/
structure Aside (hub hub' : Hub σ) : Prop where
  grows : hub.Grows hub'
  find? : ∀ d key, (hub'.depot d).store.find? key = (hub.depot d).store.find? key
  lock? : ∀ d key, (hub'.depot d).locks.find? key = (hub.depot d).locks.find? key
  clock : hub.clock ≤ hub'.clock

theorem Grows.refl (hub : Hub σ) : hub.Grows hub :=
  ⟨fun _ old h => ⟨old, h, .refl old⟩, Nat.le_refl _⟩

theorem Aside.refl (hub : Hub σ) : hub.Aside hub :=
  ⟨.refl hub, fun _ _ => rfl, fun _ _ => rfl, Nat.le_refl _⟩

end Hub

/-- How things stand at the places, and what one move makes of that. -/
inductive Advance (hub : Hub σ) (at_ : Place → Option (Frame σ)) :
    Hub σ → (Place → Option (Frame σ)) → List Note → Prop
  | aside {hub'} : hub.Aside hub' → Advance hub at_ hub' at_ []
  | starts {p} (a : Activity) : at_ p = none →
      Advance hub at_ hub (Function.update at_ p (some a.frame)) [.came p]
  | goes {p f hub' f'} : at_ p = some f → f.step hub = .goes hub' f' →
      Advance hub at_ hub' (Function.update at_ p (some f'))
        (((f.doing hub (p.below?.bind at_) f').map (Note.did p)).toList)
  | calls {p f hub' f' inner} : at_ p = some f → f.step hub = .calls hub' f' inner →
      at_ p.above = none →
      Advance hub at_ hub' (Function.update (Function.update at_ p (some f')) p.above (some inner))
        [.came p.above]
  | ends {p f hub' r} : at_ p = some f → f.step hub = .ends hub' r →
      Advance hub at_ hub' (Function.update at_ p none) []
  | returns {p f g hub' r} : at_ p.above = some f → f.step hub = .ends hub' r → at_ p = some g →
      Advance hub at_ hub'
        (Function.update (Function.update at_ p.above none) p (some (g.resume r))) []

namespace Machine

theorem frameAt_set (s : Machine σ) {i : Nat} {t t' : Thread σ} (hub : Hub σ)
    (ht : s.threads[i]? = some t) (p : Place) :
    (⟨hub, s.threads.set i t'⟩ : Machine σ).frameAt p
      = if p.thread = i then t'.stack.reverse[p.depth]? else s.frameAt p := by
  have hi : i < s.threads.length := (List.getElem?_eq_some_iff.1 ht).1
  unfold frameAt
  by_cases h : p.thread = i
  · simp [h, hi]
  · simp [h, Ne.symm h]

theorem frameAt_start (s : Machine σ) (t : Thread σ) (p : Place) :
    (⟨s.hub, s.threads ++ [t]⟩ : Machine σ).frameAt p
      = if p.thread = s.threads.length then t.stack.reverse[p.depth]? else s.frameAt p := by
  unfold frameAt
  rw [getElem?_snoc]
  split_ifs <;> rfl

theorem frameAt_of_thread {s : Machine σ} {i : Nat} {t : Thread σ} (ht : s.threads[i]? = some t)
    (n : Nat) : s.frameAt ⟨i, n⟩ = t.stack.reverse[n]? := by
  simp [frameAt, ht]

theorem reverse_cons_getElem? {α : Type} (a : α) (l : List α) (n : Nat) :
    (a :: l).reverse[n]? = if n = l.length then some a else l.reverse[n]? := by
  rw [List.reverse_cons, getElem?_snoc, List.length_reverse]

section Stack

variable {s : Machine σ} {i : Nat} {t t' : Thread σ} {f f' : Frame σ} {below : List (Frame σ)}

theorem frameAt_top (ht : s.threads[i]? = some t) (hf : t.stack = f :: below) :
    s.frameAt ⟨i, below.length⟩ = some f := by
  rw [frameAt_of_thread ht, hf, reverse_cons_getElem?, if_pos rfl]

theorem frameAt_above_top (ht : s.threads[i]? = some t) (hf : t.stack = f :: below) :
    s.frameAt ⟨i, below.length + 1⟩ = none := by
  rw [frameAt_of_thread ht, hf, List.getElem?_eq_none]
  simp

theorem frameAt_under_top (ht : s.threads[i]? = some t) (hf : t.stack = f :: below) :
    (Place.mk i below.length).below?.bind s.frameAt = below.head? := by
  rcases below with _ | ⟨g, rest⟩
  · rfl
  · simp only [List.length_cons, Place.below?, Option.bind_some, List.head?_cons]
    rw [frameAt_of_thread ht, hf, reverse_cons_getElem?, if_neg (by simp), reverse_cons_getElem?,
      if_pos rfl]

/-- The top frame of a thread gives way to another. -/
theorem frameAt_set_top (hub : Hub σ) (ht : s.threads[i]? = some t) (hf : t.stack = f :: below)
    (hf' : t'.stack = f' :: below) :
    (⟨hub, s.threads.set i t'⟩ : Machine σ).frameAt
      = Function.update s.frameAt ⟨i, below.length⟩ (some f') := by
  funext q
  rw [frameAt_set s hub ht, hf', reverse_cons_getElem?, Function.update_apply]
  obtain ⟨j, n⟩ := q
  by_cases hj : j = i
  · subst hj
    simp only [if_true, Place.mk.injEq, true_and]
    split_ifs with hn
    · rfl
    · rw [frameAt_of_thread ht, hf, reverse_cons_getElem?, if_neg hn]
  · simp [hj]

/-- The top frame of a thread goes. -/
theorem frameAt_set_pop (hub : Hub σ) (ht : s.threads[i]? = some t) (hf : t.stack = f :: below)
    (hf' : t'.stack = below) :
    (⟨hub, s.threads.set i t'⟩ : Machine σ).frameAt
      = Function.update s.frameAt ⟨i, below.length⟩ none := by
  funext q
  rw [frameAt_set s hub ht, hf', Function.update_apply]
  obtain ⟨j, n⟩ := q
  by_cases hj : j = i
  · subst hj
    simp only [if_true, Place.mk.injEq, true_and]
    split_ifs with hn
    · rw [hn, List.getElem?_eq_none]
      simp
    · rw [frameAt_of_thread ht, hf, reverse_cons_getElem?, if_neg hn]
  · simp [hj]

/-- The top frame of a thread makes a call. -/
theorem frameAt_set_push {inner : Frame σ} (hub : Hub σ) (ht : s.threads[i]? = some t)
    (hf : t.stack = f :: below) (hf' : t'.stack = inner :: f' :: below) :
    (⟨hub, s.threads.set i t'⟩ : Machine σ).frameAt
      = Function.update (Function.update s.frameAt ⟨i, below.length⟩ (some f'))
        ⟨i, below.length + 1⟩ (some inner) := by
  funext q
  rw [frameAt_set s hub ht, hf', reverse_cons_getElem?, reverse_cons_getElem?,
    Function.update_apply, Function.update_apply]
  obtain ⟨j, n⟩ := q
  by_cases hj : j = i
  · subst hj
    simp only [if_true, Place.mk.injEq, true_and, List.length_cons]
    split_ifs with h₁ h₂
    · rfl
    · rfl
    · rw [frameAt_of_thread ht, hf, reverse_cons_getElem?, if_neg h₂]
  · simp [hj]

/-- The top frame of a thread goes, and the one below it goes on. -/
theorem frameAt_set_return {g g' : Frame σ} {rest : List (Frame σ)} (hub : Hub σ)
    (ht : s.threads[i]? = some t) (hf : t.stack = f :: g :: rest) (hf' : t'.stack = g' :: rest) :
    (⟨hub, s.threads.set i t'⟩ : Machine σ).frameAt
      = Function.update (Function.update s.frameAt ⟨i, rest.length + 1⟩ none)
        ⟨i, rest.length⟩ (some g') := by
  funext q
  rw [frameAt_set s hub ht, hf', reverse_cons_getElem?, Function.update_apply,
    Function.update_apply]
  obtain ⟨j, n⟩ := q
  by_cases hj : j = i
  · subst hj
    simp only [if_true, Place.mk.injEq, true_and]
    split_ifs with h₁ h₂
    · rfl
    · rw [h₂, List.getElem?_eq_none]
      simp
    · rw [frameAt_of_thread ht, hf, reverse_cons_getElem?, if_neg (by simpa using h₂),
        reverse_cons_getElem?, if_neg h₁]
  · simp [hj]

/-- The frame below the top one. -/
theorem frameAt_second {g : Frame σ} {rest : List (Frame σ)} (ht : s.threads[i]? = some t)
    (hf : t.stack = f :: g :: rest) : s.frameAt ⟨i, rest.length⟩ = some g := by
  rw [frameAt_of_thread ht, hf, reverse_cons_getElem?, if_neg (by simp), reverse_cons_getElem?,
    if_pos rfl]

end Stack

theorem frameAt_begin (s : Machine σ) (a : Activity) :
    (s.apply (.start a)).frameAt
      = Function.update s.frameAt ⟨s.threads.length, 0⟩ (some a.frame) := by
  funext q
  simp only [apply]
  rw [frameAt_start, Function.update_apply]
  obtain ⟨j, n⟩ := q
  by_cases hj : j = s.threads.length
  · subst hj
    rcases n with _ | n <;> simp [Thread.start, frameAt]
  · simp [hj]

theorem advance_start (s : Machine σ) (a : Activity) :
    Advance s.hub s.frameAt (s.move (.event (.start a))).hub
      (s.move (.event (.start a))).frameAt (s.notes (.event (.start a))) := by
  simp only [move]
  rw [frameAt_begin]
  exact .starts a (by simp [frameAt])

theorem advance_step (s : Machine σ) (i : Nat) :
    Advance s.hub s.frameAt (s.move (.event (.step i))).hub (s.move (.event (.step i))).frameAt
      (s.notes (.event (.step i))) := by
  rcases ht : s.threads[i]? with _ | t
  · simp only [move, apply, progress, notes, ht, Option.elim_none]
    exact .aside (.refl _)
  obtain ⟨stack, reply⟩ := t
  rcases stack with _ | ⟨f, below⟩
  · simp only [move, apply, progress, notes, ht, Thread.step, Option.elim_some, stackNotes]
    exact .aside (.refl _)
  have htop := frameAt_top ht rfl
  rcases hs : f.step s.hub with ⟨hub, f'⟩ | ⟨hub, f', inner⟩ | ⟨hub, r⟩ | deadline
  · simp only [move, apply, progress, notes, ht, Thread.step, hs, Option.elim_some, stackNotes]
    rw [frameAt_set_top hub ht rfl rfl, ← frameAt_under_top ht rfl]
    exact .goes htop hs
  · simp only [move, apply, progress, notes, ht, Thread.step, hs, Option.elim_some, stackNotes]
    rw [frameAt_set_push hub ht rfl rfl]
    exact .calls htop hs (frameAt_above_top ht rfl)
  · rcases below with _ | ⟨g, rest⟩
    · simp only [move, apply, progress, notes, ht, Thread.step, hs, Option.elim_some, stackNotes]
      rw [frameAt_set_pop hub ht rfl rfl]
      exact .ends htop hs
    · simp only [move, apply, progress, notes, ht, Thread.step, hs, Option.elim_some, stackNotes]
      rw [frameAt_set_return hub ht rfl rfl]
      exact .returns (p := ⟨i, rest.length⟩) htop hs (frameAt_second ht rfl)
  · simp only [move, apply, progress, notes, ht, Thread.step, hs, Option.elim_some, stackNotes]
    exact .aside (.refl _)

end Machine

end Collate
