import Collate.Proofs.Ownership
import Collate.Proofs.Solo

/-!
# What a pass counts

A pass counts a group once it has heard of all participants, and only then; the group itself went
long before, in an offer or by the hand of the pass. At any time what the thread of a pass has taken
out of the depot is what it has counted, what was said of the group that it is at, and what the
offer under way has taken and not yet said (`Thread.Tallied`). No group is taken twice for one
snapshot: after the first time nothing under the key bears the time of the snapshot any more, as
long as no two additions are of one time (`Ledger.Spent`).
-/

namespace Collate

variable {σ : Type}

/-! ## Spent snapshots -/

namespace Ledger

/-- A snapshot of a group that bears the time of an addition, while the group that is there now does
not bear it. -/
structure Spent (g : Group) (l : Ledger) : Prop where
  put : ∃ m, .put g.key m g.lastModified ∈ l
  gone : ∀ x, group? g.key l = some x → x.lastModified ≠ g.lastModified

variable {g : Group} {l : Ledger}

theorem Spent.snoc (h : Spent g l) {e : Entry} (ht : (times (l ++ [e])).Pairwise (· < ·)) :
    Spent g (l ++ [e]) := by
  obtain ⟨m, hm⟩ := h.put
  refine ⟨⟨m, List.mem_append_left _ hm⟩, fun x hx => ?_⟩
  rw [group?_snoc] at hx
  cases e with
  | put k m' t =>
    simp only [shelve] at hx
    split_ifs at hx with hk
    · -- what comes in now bears a later time
      cases hx
      rw [times, List.filterMap_append] at ht
      exact Nat.ne_of_gt ((List.pairwise_append.1 ht).2.2 _ (mem_times hm) t (by simp))
    · exact h.gone x hx
  | took k g' =>
    simp only [shelve] at hx
    split_ifs at hx
    exact h.gone x hx

theorem Spent.append (h : Spent g l) {late : Ledger}
    (ht : (times (l ++ late)).Pairwise (· < ·)) : Spent g (l ++ late) := by
  induction late using List.reverseRecOn with
  | nil => rwa [List.append_nil]
  | append_singleton late e ih =>
    rw [← List.append_assoc] at ht ⊢
    refine (ih ?_).snoc ht
    rw [times, List.filterMap_append] at ht
    exact (List.pairwise_append.1 ht).1

theorem spent_of_took {x : Group} (hx : group? g.key l = some x)
    (hsame : x.lastModified = g.lastModified) (y : Option Group) :
    Spent g (l ++ [.took g.key y]) := by
  obtain ⟨m, hm⟩ := exists_put hx
  refine ⟨⟨m, List.mem_append_left _ (hsame ▸ hm)⟩, fun x' hx' => ?_⟩
  simp [shelve] at hx'

end Ledger

/-! ## Removals by the passes of some threads -/

/-- Whether a note is about a group that a pass at the bottom of one of some threads, or an offer of
that pass, took out of a depot. What code of the outside calls in between counts for itself. -/
def Note.reaped (d : DepotId) (threads : List Nat) : Note → Bool
  | .did p (.removed d' _ (some _) _ by_) =>
    d' = d && p.thread ∈ threads && p.depth ≤ 1 && by_ ≠ .handling
  | _ => false

/-- How many groups the passes of some threads took out of a depot. -/
def reaped (d : DepotId) (threads : List Nat) (notes : List Note) : Nat :=
  notes.countP (Note.reaped d threads)

theorem reaped_append (d : DepotId) (threads : List Nat) (a b : List Note) :
    reaped d threads (a ++ b) = reaped d threads a + reaped d threads b :=
  List.countP_append

theorem reaped_cons (d : DepotId) (threads : List Nat) (note : Note) (notes : List Note) :
    reaped d threads (note :: notes)
      = reaped d threads notes + (note.reaped d threads).toNat := by
  rw [reaped, List.countP_cons]
  cases note.reaped d threads <;> rfl

theorem Note.reaped_snoc (d : DepotId) {threads : List Nat} {i : Nat} (hi : i ∉ threads)
    (note : Note) : (note.reaped d (threads ++ [i])).toNat
      = (note.reaped d threads).toNat + (note.reaped d [i]).toNat := by
  rcases note with _ | ⟨p, x⟩
  · rfl
  · cases x with
    | removed d' key g time by_ =>
      by_cases hp : p.thread = i
      · cases g <;> simp [reaped, hp, hi]
      · cases g <;> simp [reaped, hp]
    | _ => rfl

/-- What one more thread took out adds to what the others did. -/
theorem reaped_snoc (d : DepotId) {threads : List Nat} {i : Nat} (hi : i ∉ threads)
    (notes : List Note) :
    reaped d (threads ++ [i]) notes = reaped d threads notes + reaped d [i] notes := by
  induction notes with
  | nil => rfl
  | cons note notes ih =>
    rw [reaped_cons, reaped_cons, reaped_cons, ih, note.reaped_snoc d hi]
    omega

theorem reaped_elsewhere (d : DepotId) {threads : List Nat} {notes : List Note}
    (h : ∀ p x, .did p x ∈ notes → p.thread ∉ threads) : reaped d threads notes = 0 := by
  refine List.countP_eq_zero.2 fun note hnote hreaped => ?_
  rcases note with _ | ⟨p, x⟩
  · cases hreaped
  · cases x with
    | removed d' key g time by_ =>
      refine h p _ hnote ?_
      cases g <;> simp_all [Note.reaped]
    | _ => cases hreaped

theorem reaped_did_deep (d : DepotId) (threads : List Nat) {p : Place} (hp : 2 ≤ p.depth)
    (x : Option Doing) : reaped d threads (x.map (Note.did p)).toList = 0 := by
  have hdeep : ¬p.depth ≤ 1 := by omega
  rcases x with _ | x
  · rfl
  · cases x with
    | removed d' key g t by_ => cases g <;> simp [reaped, Note.reaped, hdeep]
    | _ => rfl

/-! ## Offers -/

namespace Offer

/-- What an offer is going to answer, once it has dealt with its group. -/
def outcome? : Offer σ → Option (Attempt ExpiryOutcome)
  | .releasing _ outcome => some outcome
  | .leaving outcome => some outcome
  | .disowning outcome => some outcome
  | _ => none

/-- Whether an offer has taken its group out. -/
def took (o : Offer σ) : Bool := o.outcome? = some (.returned .expired)

@[simp] theorem outcome?_resume (o : Offer σ) (r : Reply) : (o.resume r).outcome? = o.outcome? := by
  cases o <;> rfl

variable {hub hub' : Hub σ} {handler : Handler σ} {h : HandlerId} {stale : Group} {p p' : Offer σ}

/-- An offer takes its group out in one step, and comes to its answer by that step or by passing the
group by, unless code of the outside panics. -/
theorem Goes.outcome? (hg : Goes hub handler h stale p hub' p') (ho : hub.Orderly)
    (timeout : Option Nat) :
    (∃ g, p = .removing g ∧ p'.outcome? = some (.returned .expired)
        ∧ p.doing hub handler h stale timeout p' = some (.removed handler.depot stale.key
          ((hub.depot handler.depot).shelf.group? stale.key) hub.clock (.offer timeout)))
      ∨ p.doing hub handler h stale timeout p' = some .panicked
      ∨ ((p'.outcome? = p.outcome? ∨ p'.outcome? = some (.returned .skipped) ∧ p.outcome? = none)
        ∧ ∀ d threads q, reaped d threads
          ((p.doing hub handler h stale timeout p').map (Note.did q)).toList = 0) := by
  cases hg
  case removed g depot gone hr =>
    have hremoved := hr
    rw [(ho.service _).remove] at hremoved
    cases hremoved
    exact .inl ⟨g, rfl, rfl, by simp only [doing, Depot.removal, hr]; rfl⟩
  case unremoved hr =>
    rw [(ho.service _).remove] at hr
    cases hr
  case unsent => exact .inr (.inl rfl)
  case broken => exact .inr (.inl rfl)
  case busy => exact .inr (.inr ⟨.inr ⟨rfl, rfl⟩, fun _ _ _ => rfl⟩)
  case unread => exact .inr (.inr ⟨.inr ⟨rfl, rfl⟩, fun _ _ _ => rfl⟩)
  case gone => exact .inr (.inr ⟨.inr ⟨rfl, rfl⟩, fun _ _ _ => rfl⟩)
  case changed => exact .inr (.inr ⟨.inr ⟨rfl, rfl⟩, fun _ _ _ => rfl⟩)
  all_goals exact .inr (.inr ⟨.inl rfl, fun _ _ _ => rfl⟩)

theorem reply_of_ends (ho : p.Orderly hub h) {r : Reply} (hs : p.step hub h stale = .ends hub' r) :
    p = .meeting ∧ r = .offered (.returned .detached)
      ∨ ∃ outcome, p.outcome? = some outcome ∧ r = .offered outcome := by
  have hsome : (hub.handler? h).isSome = true := by
    cases p
    case sending => exact ho.1
    case completing => exact ho.1
    all_goals exact ho
  obtain ⟨handler, hh⟩ := Option.isSome_iff_exists.1 hsome
  obtain ⟨m, hm, -⟩ := Option.map_eq_some_iff.1 hh
  obtain ⟨hnone, -⟩ | ⟨rfl, -⟩ | ⟨outcome, rfl, -⟩ | ⟨outcome, rfl, -⟩ := ends_of_step hs
  · rw [hh] at hnone
    cases hnone
  · simp only [step, hm, meet] at hs
    split_ifs at hs
    cases hs
    exact .inl ⟨rfl, rfl⟩
  · simp only [step, hm, leave] at hs
    split_ifs at hs
    cases hs
    exact .inr ⟨outcome, rfl, rfl⟩
  · simp only [step, hm] at hs
    cases hs
    exact .inr ⟨outcome, rfl, rfl⟩

end Offer

/-! ## Passes -/

def NoHooks (l : List Participant) : Prop := ∀ id, .hook id ∉ l

/-- Who said that a group expired was there, and nobody will find the group as it was. -/
def Responses.Settled (g : Group) (l : Ledger) (said : Responses) : Prop :=
  said.expired = true → said.attached = true ∧ l.Spent g

/-- How much a pass that goes on by itself has taken out, over handlers only. -/
def Pass.Tallied (l : Ledger) (n : Nat) : Pass σ → Prop
  | .selecting => n = 0
  | .consulting _ => n = 0
  | .next t => NoHooks t.participants ∧ n = t.expired
  | .offering t g left said => NoHooks t.participants ∧ NoHooks left ∧ said.Settled g l
      ∧ n = t.expired + said.expired.toNat
  | .claiming t _ => NoHooks t.participants ∧ n = t.expired
  | .comparing t _ => NoHooks t.participants ∧ n = t.expired
  | .freeing t _ _ removed => NoHooks t.participants ∧ n = t.expired + removed.toNat
  | .pruning t => n = t.expired
  | .waiting .. | .hooked .. | .failing => False

/-- How much a pass has taken out that waits for an offer. -/
structure Offer.Tallied (l : Ledger) (n : Nat) (t : Tally) (g : Group) (left : List Participant)
    (said : Responses) (o : Offer σ) : Prop where
  handlers : NoHooks t.participants
  asked : NoHooks left
  settled : said.Settled g l
  spent : o.took = true → said.expired = false ∧ l.Spent g
  unbroken : o.outcome? ≠ some .panicked
  count : n = t.expired + said.expired.toNat + o.took.toNat

section Passes

variable {l l' : Ledger} {n : Nat} {hub hub' : Hub σ} {d : DepotId} {timeout : Nat} {p p' : Pass σ}

theorem Responses.Settled.mono {g : Group} {said : Responses} (h : said.Settled g l)
    (hl : ∀ g, l.Spent g → l'.Spent g) : said.Settled g l' :=
  fun he => (h he).imp_right (hl g)

namespace Pass

theorem Tallied.mono (h : p.Tallied l n) (hl : ∀ g, l.Spent g → l'.Spent g) : p.Tallied l' n := by
  cases p with
  | offering t g left said => exact ⟨h.1, h.2.1, h.2.2.1.mono hl, h.2.2.2⟩
  | _ => exact h

theorem Goes.tallied (hg : Goes hub d timeout p hub' p')
    (hhub : NoHooks (hub.depot d).participants) (h : p.Tallied l n) (i : Nat) :
    p'.Tallied l (n + reaped d [i] ((p.doing hub d timeout p').map (Note.did ⟨i, 0⟩)).toList) := by
  cases hg
  case selected => exact h
  case consulted => exact ⟨hhub, h⟩
  case takes t g rest hrest => exact ⟨h.1, h.1, fun he => (by cases he), h.2⟩
  case ready => exact h.2
  case answered t g said hatt =>
    obtain ⟨ht, -, -, hn⟩ := h
    exact ⟨ht, by cases hs : said.expired <;> simp [hn, counted, hs, doing, reaped]⟩
  case unanswered t g said hatt =>
    obtain ⟨ht, -, hsaid, hn⟩ := h
    refine ⟨ht, ?_⟩
    rcases hs : said.expired with _ | _
    · simp [hn, hs, doing, reaped]
    · rw [(hsaid hs).1] at hatt
      cases hatt
  case hooks id left _ _ _ _ => exact absurd List.mem_cons_self (h.2.1 id)
  case hooked => cases h
  case heard => cases h
  case broken => cases h
  case claimed => exact h
  case busy => exact h
  case swept t g hu =>
    obtain ⟨current, hcurrent, -⟩ := Store.isUnchanged_iff.1 hu
    exact ⟨h.1, by simp [h.2, doing, hcurrent, reaped, Note.reaped]⟩
  case kept => exact h
  case freed t g retire removed =>
    exact ⟨h.1, by cases removed <;> simp [h.2, counted, doing, reaped]⟩

theorem Tallied.ends (h : p.Tallied l n) (ho : hub.Orderly) {r : Reply}
    (hs : p.step hub d timeout = .ends hub' r) : r = .passed (.returned (.ok n)) := by
  obtain ⟨-, rfl | rfl⟩ | ⟨t, rfl, -⟩ := ends_of_step hs
  · have hservice : (hub.depot d).outages = ⟨none, none, none, none, none⟩ := ho.service d
    simp only [step, select, hservice] at hs
    split at hs
    · cases hs
      rw [show n = 0 from h]
    · cases hs
  · cases h
  · cases hs
    rw [show n = t.expired from h]

end Pass

namespace Offer

variable {t : Tally} {g : Group} {left : List Participant} {said : Responses} {o o' : Offer σ}

theorem Tallied.mono (h : o.Tallied l n t g left said) (hl : ∀ g, l.Spent g → l'.Spent g) :
    o.Tallied l' n t g left said :=
  ⟨h.handlers, h.asked, h.settled.mono hl, fun he => (h.spent he).imp_right (hl g), h.unbroken,
    h.count⟩

theorem Tallied.same (h : o.Tallied l n t g left said) (ho : o'.outcome? = o.outcome?) :
    o'.Tallied l n t g left said := by
  have htook : o'.took = o.took := by unfold Offer.took; rw [ho]
  exact ⟨h.handlers, h.asked, h.settled, fun he => h.spent (htook ▸ he), ho ▸ h.unbroken,
    htook ▸ h.count⟩

/-- What an offer answers moves what it took to what was said of the group. -/
theorem Tallied.heard (h : o.Tallied l n t g left said) {outcome : ExpiryOutcome}
    (ho : o.took = decide (outcome = .expired)) (who : Participant) :
    (Pass.heard t g who left said outcome : Pass σ).Tallied l n := by
  obtain ⟨hhandlers, hasked, hsettled, hspent, -, hn⟩ := h
  cases outcome with
  | expired =>
    obtain ⟨hfirst, hspent⟩ := hspent ho
    exact ⟨hhandlers, hasked, fun _ => ⟨rfl, hspent⟩, by simp [hn, hfirst, ho, Pass.hear]⟩
  | skipped =>
    exact ⟨hhandlers, hasked, fun he => ⟨rfl, (hsettled he).2⟩, by simp [hn, ho, Pass.hear]⟩
  | detached =>
    refine ⟨?_, hasked, hsettled, ?_⟩ <;> simp only [Pass.hear] <;> split_ifs
    · exact hhandlers
    · exact hhandlers
    · simp [hn, ho]
    · simp [hn, ho]

end Offer

end Passes

/-! ## Threads -/

/-- The thread of a pass over a depot, and how much it has taken out: at its end it replies that it
expired so many groups. -/
inductive Thread.Tallied (d : DepotId) (l : Ledger) (n : Nat) : Thread σ → Prop
  | replied : Tallied d l n ⟨[], some (.passed (.returned (.ok n)))⟩
  | passing {timeout p} : Pass.Tallied l n p → Tallied d l n ⟨[.pass d timeout p], none⟩
  | offering (above) {h g o timeout t left said} : Offer.Tallied l n t g left said o →
      Tallied d l n ⟨above ++ [.offer h g o, .pass d timeout (.waiting t g (.handler h) left said)],
        none⟩

theorem Thread.Tallied.mono {d : DepotId} {l l' : Ledger} {n : Nat} {t : Thread σ}
    (h : t.Tallied d l n) (hl : ∀ g, l.Spent g → l'.Spent g) : t.Tallied d l' n := by
  cases h with
  | replied => exact .replied
  | passing h => exact .passing (h.mono hl)
  | offering above h => exact .offering above (h.mono hl)

namespace Machine

section Notes

variable {s : Machine σ} {i : Nat} {f f' inner : Frame σ} {below : List (Frame σ)}
  {reply : Option Reply} {hub' : Hub σ}

theorem notes_goes (ht : s.threads[i]? = some ⟨f :: below, reply⟩)
    (hs : f.step s.hub = .goes hub' f') : s.notes (.event (.step i))
      = ((f.doing s.hub below.head? f').map (Note.did ⟨i, below.length⟩)).toList := by
  simp [notes, ht, hs, stackNotes]

theorem notes_calls (ht : s.threads[i]? = some ⟨f :: below, reply⟩)
    (hs : f.step s.hub = .calls hub' f' inner) :
    s.notes (.event (.step i)) = [.came ⟨i, below.length + 1⟩] := by
  simp [notes, ht, hs, stackNotes]

theorem notes_ends (ht : s.threads[i]? = some ⟨f :: below, reply⟩) {r : Reply}
    (hs : f.step s.hub = .ends hub' r) : s.notes (.event (.step i)) = [] := by
  simp [notes, ht, hs, stackNotes]

theorem move_waits (ht : s.threads[i]? = some ⟨f :: below, reply⟩) {deadline : Option Instant}
    (hs : f.step s.hub = .waits deadline) :
    s.move (.event (.step i)) = s ∧ s.notes (.event (.step i)) = [] := by
  simp [move, apply, progress, notes, ht, Thread.step, hs, stackNotes]

/-- A thread does what it does in its own place. -/
theorem thread_of_did {mv : Move σ} {p : Place} {x : Doing} (h : .did p x ∈ s.notes mv) :
    mv = .event (.step p.thread) ∧ ∃ t, s.threads[p.thread]? = some t ∧ t.stack ≠ [] := by
  have hstep : ∃ i, mv = .event (.step i) := by
    rcases mv with (a | i | n | handler) | capacity | ⟨d, hook⟩ | arrange | ⟨h', code⟩ | change
    case event.step => exact ⟨i, rfl⟩
    all_goals simp [notes] at h
  obtain ⟨i, rfl⟩ := hstep
  rcases ht : s.threads[i]? with _ | ⟨stack, reply⟩
  · simp [notes, ht] at h
  rcases stack with _ | ⟨f, below⟩
  · simp [notes, ht, stackNotes] at h
  rcases hs : f.step s.hub with ⟨hub, f'⟩ | ⟨hub, f', inner⟩ | ⟨hub, r⟩ | deadline
  · rw [notes_goes ht hs] at h
    obtain ⟨y, -, hy⟩ := Option.map_eq_some_iff.1 (Option.mem_toList.1 h)
    cases hy
    exact ⟨rfl, _, ht, by simp⟩
  · simp [notes_calls ht hs] at h
  · simp [notes_ends ht hs] at h
  · simp [(move_waits ht hs).2] at h

/-- Where nothing was to be done or somebody else did something, no group is taken out. -/
theorem reaped_notes {mv : Move σ} (d : DepotId) {threads : List Nat}
    (h : ∀ j ∈ threads, mv = .event (.step j) → ∀ t, s.threads[j]? = some t → t.stack = []) :
    reaped d threads (s.notes mv) = 0 := by
  refine reaped_elsewhere d fun p x hx hp => ?_
  obtain ⟨hmv, t, ht, hstack⟩ := thread_of_did hx
  exact hstack (h p.thread hp hmv t ht)

/-- A thread stays as it is until it does a step. -/
theorem thread_still {mv : Move σ} {t : Thread σ} (ht : s.threads[i]? = some t)
    (h : mv = .event (.step i) → t.stack = []) : (s.move mv).threads[i]? = some t := by
  cases mv with
  | event e =>
    cases e with
    | start a =>
      exact (List.getElem?_append_left (List.getElem?_eq_some_iff.1 ht).1).trans ht
    | step j =>
      by_cases hj : j = i
      · subst hj
        have hover : t.step s.hub = .over := by simp [Thread.step, h rfl]
        simp [move, apply, progress, ht, hover]
      · simp only [move, apply]
        split
        · exact (List.getElem?_set_ne hj).trans ht
        · exact ht
    | elapse | build => exact ht
  | openDepot | enlist | rearrange | reform | disturb => exact ht

end Notes

variable {s : Machine σ} {d : DepotId} {notes : List Note} {i : Nat}

/-- The offer of a pass that is about to take its group out has the group as it was selected. -/
theorem taken_of_removing (hv : Vigilant s.hub s.frameAt notes) {h : HandlerId} {stale g : Group}
    {timeout : Nat} {p : Pass σ} {handler : Handler σ}
    (hp : s.frameAt ⟨i, 1⟩ = some (.offer h stale (.removing g)))
    (hq : s.frameAt ⟨i, 0⟩ = some (.pass d timeout p)) (hh : s.hub.handler? h = some handler) :
    handler.depot = d ∧ (s.hub.depot d).shelf.group? stale.key = some g
      ∧ g.lastModified = stale.lastModified := by
  obtain ⟨hsame, q, d', timeout', t, who, left, said, habove, hat, hhome⟩ := hv.aims _ _ hp
  have hbelow : q = ⟨i, 0⟩ := by
    obtain ⟨j, n⟩ := q
    simp only [Place.above, Place.mk.injEq] at habove
    obtain ⟨rfl, hn⟩ := habove
    rw [Nat.succ.inj hn]
  subst hbelow
  cases hq.symm.trans hat
  cases (Hub.home?_of_handler? hh).symm.trans hhome
  refine ⟨rfl, (Sound.right hv.sound hp).fits handler.depot stale.key (.seen g) ?_, hsame g rfl⟩
  rw [Frame.grip_offer, if_pos hhome]
  rfl

section Step

variable {new : List Note}

theorem tallied_pass (ho : s.Orderly) (hhooks : NoHooks (s.hub.depot d).participants)
    {timeout : Nat} {p : Pass σ} (ht : s.threads[i]? = some ⟨[.pass d timeout p], none⟩)
    (hnew : s.notes (.event (.step i)) = new)
    (hl : ∀ g, (ledger d notes).Spent g → (ledger d (notes ++ new)).Spent g)
    (h : p.Tallied (ledger d notes) (reaped d [i] notes)) :
    ∃ t', (s.move (.event (.step i))).threads[i]? = some t'
      ∧ t'.Tallied d (ledger d (notes ++ new)) (reaped d [i] (notes ++ new)) := by
  have hi : i < s.threads.length := (List.getElem?_eq_some_iff.1 ht).1
  rw [reaped_append]
  rcases hs : (Frame.pass d timeout p).step s.hub with
    ⟨hub', f'⟩ | ⟨hub', f', inner⟩ | ⟨hub', r⟩ | _
  · obtain ⟨p', rfl, hg⟩ := Pass.goes_of_step hs
    rw [notes_goes ht hs] at hnew
    rw [(move_goes ht hs).1, ← hnew]
    exact ⟨_, List.getElem?_set_self hi, .passing ((hg.tallied hhooks h i).mono (hnew ▸ hl))⟩
  · rw [notes_calls ht hs] at hnew
    subst hnew
    rw [(move_calls ht hs).1]
    obtain ⟨-, ⟨t, g, h', left, said, rfl, rfl, rfl⟩ | ⟨t, g, who, left, said, work, rfl, -⟩⟩ :=
      Pass.calls_of_step hs
    · obtain ⟨hhandlers, hasked, hsettled, hn⟩ := h
      refine ⟨_, List.getElem?_set_self hi, .offering [] ?_⟩
      exact ⟨hhandlers, fun id hid => hasked id (List.mem_cons_of_mem _ hid), hsettled.mono hl,
        fun he => (by cases he), by simp [Offer.outcome?], hn⟩
    · cases h
  · rw [notes_ends ht hs] at hnew
    subst hnew
    rw [(move_ends ht hs).1, h.ends ho.hub hs]
    exact ⟨_, List.getElem?_set_self hi, .replied⟩
  · obtain ⟨hmove, hnone⟩ := move_waits ht hs
    obtain rfl := hnone.symm.trans hnew
    rw [hmove]
    exact ⟨_, ht, .passing (h.mono hl)⟩

/-- An offer takes its group out for a pass that heard of nobody before who did. -/
theorem tallied_removal (hv : Vigilant s.hub s.frameAt notes) {h : HandlerId} {g g' : Group}
    {timeout : Nat} {p : Pass σ} {handler : Handler σ} {t : Tally} {left : List Participant}
    {said : Responses} {o' : Offer σ}
    (ho : (Offer.removing g' : Offer σ).Tallied (ledger d notes) (reaped d [i] notes) t g left said)
    (hp : s.frameAt ⟨i, 1⟩ = some (.offer h g (.removing g')))
    (hq : s.frameAt ⟨i, 0⟩ = some (.pass d timeout p)) (hh : s.hub.handler? h = some handler)
    (htook : o'.outcome? = some (.returned .expired))
    (hl : ∀ g, (ledger d notes).Spent g → (ledger d (notes ++ new)).Spent g)
    (hnew : new = [.did ⟨i, 1⟩ (.removed handler.depot g.key
      ((s.hub.depot handler.depot).shelf.group? g.key) s.hub.clock (.offer (some timeout)))]) :
    o'.Tallied (ledger d (notes ++ new)) (reaped d [i] notes + reaped d [i] new) t g left said := by
  obtain ⟨hdepot, hstored, hsame⟩ := taken_of_removing hv hp hq hh
  rw [hdepot, hstored] at hnew
  subst hnew
  have hledger := ((hv.kept d).stored g.key).symm.trans hstored
  -- a group that was taken before for this snapshot is not there as it was
  have hfirst : said.expired = false := by
    by_contra hexpired
    exact (ho.settled (by simpa using hexpired)).2.gone g' hledger hsame
  have hpost : ledger d (notes ++ [.did ⟨i, 1⟩
      (.removed d g.key (some g') s.hub.clock (.offer (some timeout)))])
      = ledger d notes ++ [.took g.key (some g')] := by
    simp [ledger, Note.posting?, Doing.posting?]
  refine ⟨ho.handlers, ho.asked, ho.settled.mono hl, fun _ => ⟨hfirst, ?_⟩, by simp [htook], ?_⟩
  · rw [hpost]
    exact Ledger.spent_of_took hledger hsame _
  · have hbefore : (Offer.removing g' : Offer σ).took = false := rfl
    have hafter : o'.took = true := by simp [Offer.took, htook]
    rw [ho.count, hbefore, hafter]
    simp [reaped, Note.reaped]

theorem tallied_offer (ho : s.Orderly) (hv : Vigilant s.hub s.frameAt notes) {h : HandlerId}
    {g : Group} {o : Offer σ} {timeout : Nat} {t : Tally} {left : List Participant}
    {said : Responses}
    (ht : s.threads[i]? = some
      ⟨[.offer h g o, .pass d timeout (.waiting t g (.handler h) left said)], none⟩)
    (hnew : s.notes (.event (.step i)) = new) (hcalm : ∀ p, .did p .panicked ∉ new)
    (hl : ∀ g, (ledger d notes).Spent g → (ledger d (notes ++ new)).Spent g)
    (ho' : o.Tallied (ledger d notes) (reaped d [i] notes) t g left said) :
    ∃ t', (s.move (.event (.step i))).threads[i]? = some t'
      ∧ t'.Tallied d (ledger d (notes ++ new)) (reaped d [i] (notes ++ new)) := by
  have hi : i < s.threads.length := (List.getElem?_eq_some_iff.1 ht).1
  have hat : s.frameAt ⟨i, 1⟩ = some (.offer h g o) := frameAt_top ht rfl
  rw [reaped_append]
  rcases hs : (Frame.offer h g o).step s.hub with ⟨hub', f'⟩ | ⟨hub', f', inner⟩ | ⟨hub', r⟩ | _
  · obtain ⟨handler, hh⟩ := Offer.handler_of_step hs
    obtain ⟨o', rfl, hg⟩ := Offer.goes_of_step hh hs
    rw [notes_goes ht hs] at hnew
    rw [(move_goes ht hs).1]
    refine ⟨_, List.getElem?_set_self hi, .offering [] ?_⟩
    have hdoing : (Frame.offer h g o).doing s.hub
        (some (.pass d timeout (.waiting t g (.handler h) left said))) (.offer h g o')
        = o.doing s.hub handler h g (some timeout) o' := by
      simp [Frame.doing, hh, Frame.timeout?]
    simp only [List.head?_cons, hdoing, List.length_singleton] at hnew
    obtain ⟨g', rfl, htook, hremoved⟩ | hpanicked | ⟨hsame | ⟨hskips, hnone⟩, hquiet⟩ :=
      hg.outcome? ho.hub (some timeout)
    · rw [hremoved] at hnew
      exact tallied_removal hv ho' hat (frameAt_second ht rfl) hh htook hl hnew.symm
    · rw [hpanicked] at hnew
      exact absurd (hnew ▸ by simp) (hcalm ⟨i, 1⟩)
    · rw [← hnew, hquiet, Nat.add_zero, hnew]
      exact (ho'.same hsame).mono hl
    · rw [← hnew, hquiet, Nat.add_zero, hnew]
      refine ⟨ho'.handlers, ho'.asked, ho'.settled.mono hl, ?_, by simp [hskips], ?_⟩
      · simp [Offer.took, hskips]
      · simp [ho'.count, Offer.took, hskips, hnone]
  · obtain ⟨-, rfl, -⟩ := Offer.calls_of_step hs
    rw [notes_calls ht hs] at hnew
    subst hnew
    rw [(move_calls ht hs).1]
    exact ⟨_, List.getElem?_set_self hi, .offering [inner] (ho'.mono hl)⟩
  · rw [notes_ends ht hs] at hnew
    subst hnew
    rw [(move_ends ht hs).1]
    refine ⟨_, List.getElem?_set_self hi, .passing ?_⟩
    have hheard : ∀ outcome, o.took = decide (outcome = .expired) →
        r = .offered (.returned outcome) →
        Pass.Tallied (ledger d (notes ++ [])) (reaped d [i] notes + reaped d [i] [])
          ((Pass.waiting t g (.handler h) left said : Pass σ).resume r) := by
      rintro outcome htook rfl
      exact (ho'.heard htook (.handler h)).mono hl
    obtain ⟨rfl, hr⟩ | ⟨outcome, houtcome, hr⟩ :=
      Offer.reply_of_ends (ho.frames _ _ hat : o.Orderly s.hub h) hs
    · exact hheard .detached rfl hr
    · rcases outcome with outcome | _
      · exact hheard outcome (by simp [Offer.took, houtcome]) hr
      · exact absurd houtcome ho'.unbroken
  · obtain ⟨hmove, hnone⟩ := move_waits ht hs
    obtain rfl := hnone.symm.trans hnew
    rw [hmove]
    exact ⟨_, ht, .offering [] (ho'.mono hl)⟩

theorem tallied_deep {f : Frame σ} {above : List (Frame σ)} {h : HandlerId} {g : Group}
    {o : Offer σ} {timeout : Nat} {t : Tally} {left : List Participant} {said : Responses}
    (ht : s.threads[i]? = some ⟨(f :: above)
      ++ [.offer h g o, .pass d timeout (.waiting t g (.handler h) left said)], none⟩)
    (hnew : s.notes (.event (.step i)) = new)
    (hl : ∀ g, (ledger d notes).Spent g → (ledger d (notes ++ new)).Spent g)
    (ho' : o.Tallied (ledger d notes) (reaped d [i] notes) t g left said) :
    ∃ t', (s.move (.event (.step i))).threads[i]? = some t'
      ∧ t'.Tallied d (ledger d (notes ++ new)) (reaped d [i] (notes ++ new)) := by
  have hi : i < s.threads.length := (List.getElem?_eq_some_iff.1 ht).1
  rw [List.cons_append] at ht
  rw [reaped_append]
  rcases hs : f.step s.hub with ⟨hub', f'⟩ | ⟨hub', f', inner⟩ | ⟨hub', r⟩ | _
  · rw [notes_goes ht hs] at hnew
    rw [(move_goes ht hs).1, ← hnew, reaped_did_deep d [i] (by simp), hnew]
    exact ⟨_, List.getElem?_set_self hi, .offering (f' :: above) (ho'.mono hl)⟩
  · rw [notes_calls ht hs] at hnew
    subst hnew
    rw [(move_calls ht hs).1]
    exact ⟨_, List.getElem?_set_self hi, .offering (inner :: f' :: above) (ho'.mono hl)⟩
  · rw [notes_ends ht hs] at hnew
    subst hnew
    rw [(move_ends ht hs).1]
    refine ⟨_, List.getElem?_set_self hi, ?_⟩
    rcases above with _ | ⟨next, above⟩
    · exact .offering [] ((ho'.same (o.outcome?_resume r)).mono hl)
    · exact .offering (next.resume r :: above) (ho'.mono hl)
  · obtain ⟨hmove, hnone⟩ := move_waits ht hs
    obtain rfl := hnone.symm.trans hnew
    rw [hmove]
    exact ⟨_, ht, .offering (f :: above) (ho'.mono hl)⟩

end Step

/-- Whatever happens, the thread of a pass replies with what it has taken out. -/
theorem tallied_move (ho : s.Orderly) (hv : Vigilant s.hub s.frameAt notes)
    (hhooks : NoHooks (s.hub.depot d).participants) (mv : Move σ)
    (hcalm : ∀ p, .did p .panicked ∉ s.notes mv)
    (htimes : (ledger d (notes ++ s.notes mv)).times.Pairwise (· < ·)) {t : Thread σ}
    (ht : s.threads[i]? = some t) (h : t.Tallied d (ledger d notes) (reaped d [i] notes)) :
    ∃ t', (s.move mv).threads[i]? = some t'
      ∧ t'.Tallied d (ledger d (notes ++ s.notes mv)) (reaped d [i] (notes ++ s.notes mv)) := by
  have hl : ∀ g, (ledger d notes).Spent g → (ledger d (notes ++ s.notes mv)).Spent g :=
    fun g hg => by
      rw [ledger_append] at htimes ⊢
      exact hg.append htimes
  have hstill : (mv = .event (.step i) → t.stack = []) → ∃ t', (s.move mv).threads[i]? = some t'
      ∧ t'.Tallied d (ledger d (notes ++ s.notes mv)) (reaped d [i] (notes ++ s.notes mv)) := by
    intro hmv
    have hzero : reaped d [i] (s.notes mv) = 0 := reaped_notes d fun j hj hstep t' ht' => by
      obtain rfl := List.mem_singleton.1 hj
      cases ht.symm.trans ht'
      exact hmv hstep
    rw [reaped_append, hzero]
    exact ⟨t, thread_still ht hmv, h.mono hl⟩
  by_cases hmv : mv = .event (.step i)
  · subst hmv
    cases h with
    | replied => exact hstill fun _ => rfl
    | passing h => exact tallied_pass ho hhooks ht rfl hl h
    | offering above h =>
      rcases above with _ | ⟨f, above⟩
      · exact tallied_offer ho hv ht rfl hcalm hl h
      · exact tallied_deep ht rfl hl h
  · exact hstill fun heq => absurd heq hmv

end Machine

end Collate
