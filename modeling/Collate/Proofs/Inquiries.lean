import Collate.Proofs.Faithful
import Collate.Proofs.Order

/-!
# What a pass asks and hears

A pass is told by how it asks each participant, what it hears, what is stored once all are heard,
and what the pass then does by itself (`Moment`). A hook is asked by doing what it does with the
group, a handler by an offer (`Participant.inquiry`). What is heard is what just that comes to, and
in its own turns a pass changes nothing that is stored but where it is seen to see to a group
(`Machine.candid`).
-/

namespace Collate

variable {σ : Type}

/-! ## What can be seen of a pass -/

/-- How a participant is asked: a hook is set to work on a script, and a handler is called. -/
inductive Inquiry (σ : Type) where
  | script (work : Script σ ExpiryOutcome)
  | call (f : Frame σ)

/-- How a participant is to be asked about a group. A hook that there is none of is gone. -/
def Participant.inquiry (hub : Hub σ) (g : Group) : Participant → Inquiry σ
  | .handler h => .call (.offer h g .meeting)
  | .hook id => .script ((hub.hooks[id]?).elim (.done .detached) fun hook => hook g)

inductive Moment (σ : Type) where
  /-- A participant is asked about a group. -/
  | asked (g : Group) (who : Participant) (inquiry : Inquiry σ)
  /-- A participant answered the offer of a group. -/
  | heard (g : Group) (who : Participant) (outcome : ExpiryOutcome)
  /-- Nobody is left to be asked about a group: what is stored then. -/
  | polled (g : Group) (stored : Store)
  /-- The pass saw to a group by itself: what was stored before, and what is stored now. -/
  | settled (g : Group) (before now : Store)

/-- What is seen as a call takes a step with no other call above it. -/
def Frame.moments (hub : Hub σ) : Frame σ → List (Moment σ)
  | .pass d timeout p =>
    match p with
    | .offering _ g (who :: _) _ =>
      match p.step hub d timeout with
      | .goes _ (.pass _ _ (.hooked _ _ _ _ _ work)) => [.asked g who (.script work)]
      | .calls _ _ inner => [.asked g who (.call inner)]
      | _ => []
    | .hooked _ g who _ _ (.done outcome) => [.heard g who outcome]
    | .offering _ g [] _ => [.polled g (hub.depot d).store]
    | .comparing _ g =>
      match p.step hub d timeout with
      | .goes hub' _ => [.settled g (hub.depot d).store (hub'.depot d).store]
      | _ => []
    | _ => []
  | _ => []

/-- What a call hears of the one above it, which ends with a reply. -/
def Frame.hears (r : Reply) : Frame σ → List (Moment σ)
  | .pass _ _ (.waiting _ g who _ _) =>
    match r with
    | .offered (.returned outcome) => [.heard g who outcome]
    | _ => []
  | _ => []

namespace Thread

/-- What the last call of a stack hears of one that ends right above it. -/
def hears (r : Reply) : List (Frame σ) → List (Moment σ)
  | [f] => f.hears r
  | _ => []

/-- What is seen of a pass as its thread takes a step. -/
def moments (hub : Hub σ) (t : Thread σ) : List (Moment σ) :=
  match t.stack with
  | [] => []
  | [f] => f.moments hub
  | f :: below =>
    match f.step hub with
    | .ends _ r => hears r below
    | _ => []

end Thread

namespace Machine

/-- What is seen of the pass of thread `i` as something happens. -/
def seen (s : Machine σ) (i : Nat) : Move σ → List (Moment σ)
  | .event (.step j) => if j = i then (s.threads[i]?).elim [] (Thread.moments s.hub) else []
  | _ => []

/-- All that is seen of the pass of thread `i` in a run. -/
def moments (i : Nat) : Machine σ → List (Move σ) → List (Moment σ)
  | _, [] => []
  | s, mv :: moves => s.seen i mv ++ moments i (s.move mv) moves

end Machine

/-! ## What is asked, and what is heard -/

/-- A pass that asks a participant about a group, with a script that is left to do. -/
def Frame.Consults (g : Group) (who : Participant) (work : Script σ ExpiryOutcome) :
    Frame σ → Prop
  | .pass _ _ (.hooked _ g' who' _ _ work') => g' = g ∧ who' = who ∧ work' = work
  | _ => False

/-- A pass that waits for what a participant answers about a group. -/
def Frame.Awaits (g : Group) (who : Participant) : Frame σ → Prop
  | .pass _ _ (.waiting _ g' who' _ _) => g' = g ∧ who' = who
  | _ => False

/-- In a run, the call that stands on the pass of thread `i` goes on until it returns. Nothing is
heard before, and what is heard then is its answer. -/
inductive Machine.Listens (i : Nat) (g : Group) (who : Participant) :
    Machine σ → List (Move σ) → Prop
  | still {s f} : s.frameAt ⟨i, 1⟩ = some f → Listens i g who s []
  | waits {s f mv moves} : s.frameAt ⟨i, 1⟩ = some f → s.seen i mv = [] →
      Listens i g who (s.move mv) moves → Listens i g who s (mv :: moves)
  | hears {s f mv moves outcome} : s.Returns ⟨i, 0⟩ f mv (.offered (.returned outcome)) →
      s.seen i mv = [.heard g who outcome] → Listens i g who s (mv :: moves)
  | breaks {s f mv moves r} : s.Returns ⟨i, 0⟩ f mv r →
      (∀ outcome, r ≠ .offered (.returned outcome)) → s.seen i mv = [] →
      Listens i g who s (mv :: moves)

/-- The pass of thread `i` hears what it asks for, and does nothing to what is stored unseen. -/
structure Machine.Candid (s : Machine σ) (i : Nat) (moves : List (Move σ)) : Prop where
  /-- The script that a participant is asked with is carried out, and what it comes to is heard. -/
  scripts : ∀ before mv rest, moves = before ++ mv :: rest → ∀ g who work,
    .asked g who (.script work) ∈ (s.after before).seen i mv →
      (s.after (before ++ [mv])).CarriesOut (fun work f => f.Consults g who work)
        (fun s mv outcome => s.seen i mv = [.heard g who outcome]) ⟨i, 0⟩ work rest
  /-- The call that a participant is asked with is made, and what it returns is heard. -/
  calls : ∀ before mv rest, moves = before ++ mv :: rest → ∀ g who f,
    .asked g who (.call f) ∈ (s.after before).seen i mv →
      (s.after (before ++ [mv])).frameAt ⟨i, 1⟩ = some f
        ∧ (s.after (before ++ [mv])).Listens i g who rest
  /-- In its own turns, unless a hook is at work, the pass changes nothing that is stored but where
  it is seen to see to a group. -/
  leaves : ∀ before mv rest, moves = before ++ mv :: rest → ∀ d timeout p,
    (s.after before).frameAt ⟨i, 0⟩ = some (.pass d timeout p) →
      (s.after before).turns ⟨i, 0⟩ mv = true →
      (∀ g who work, ¬(Frame.pass d timeout p).Consults g who work) →
      ∀ other, (other = d → ∀ g was now, .settled g was now ∉ (s.after before).seen i mv) →
        ((s.after (before ++ [mv])).hub.depot other).store
          = ((s.after before).hub.depot other).store

namespace Frame

variable {g : Group} {who : Participant} {f : Frame σ}

theorem Consults.eq {work : Script σ ExpiryOutcome} (h : f.Consults g who work) :
    ∃ d timeout t left said, f = .pass d timeout (.hooked t g who left said work) := by
  cases f with
  | pass d timeout p =>
    cases p <;> simp only [Consults] at h
    obtain ⟨rfl, rfl, rfl⟩ := h
    exact ⟨_, _, _, _, _, rfl⟩
  | _ => exact h.elim

theorem Awaits.eq (h : f.Awaits g who) :
    ∃ d timeout t left said, f = .pass d timeout (.waiting t g who left said) := by
  cases f with
  | pass d timeout p =>
    cases p <;> simp only [Awaits] at h
    obtain ⟨rfl, rfl⟩ := h
    exact ⟨_, _, _, _, _, rfl⟩
  | _ => exact h.elim

theorem enacts_consults (g : Group) (who : Participant) :
    Enacts (fun work (f : Frame σ) => f.Consults g who work) where
  goes := by
    intro hub hub' work f f' hat hs
    obtain ⟨d, timeout, t, left, said, rfl⟩ := hat.eq
    obtain ⟨p', rfl, hg⟩ := Pass.goes_of_step (p := .hooked t g who left said work) hs
    cases hg with
    | hooked hw => exact .inl ⟨_, hw, rfl, rfl, rfl⟩
    | heard hw => exact .inr (.inl ⟨_, hw⟩)
    | broken hw => exact .inr (.inr ⟨hw, fun _ => rfl⟩)
  calls := by
    intro hub hub' work f f' inner hat hs
    obtain ⟨d, timeout, t, left, said, rfl⟩ := hat.eq
    obtain ⟨-, ⟨_, _, _, _, _, hp, -⟩ | ⟨_, _, _, _, _, _, hp, rfl, hw⟩⟩ :=
      Pass.calls_of_step (p := .hooked t g who left said work) hs <;> cases hp
    exact ⟨rfl, hw⟩
  resume := by
    intro work f r hat
    obtain ⟨d, timeout, t, left, said, rfl⟩ := hat.eq
    exact ⟨rfl, rfl, rfl⟩
  ne_waits := by
    intro hub work f hat deadline hs
    obtain ⟨d, timeout, t, left, said, rfl⟩ := hat.eq
    change Pass.runHook hub d timeout t g who left said work = _ at hs
    unfold Pass.runHook at hs
    rcases hw : work.step hub with ⟨hub₁, work'⟩ | inner | outcome | _ <;>
      rw [hw] at hs <;> cases hs

/-- A hook that is at work does not end the pass. -/
theorem Consults.ne_ends {work : Script σ ExpiryOutcome} (h : f.Consults g who work)
    {hub hub' : Hub σ} (r : Reply) : f.step hub ≠ .ends hub' r := by
  intro hs
  obtain ⟨d, timeout, t, left, said, rfl⟩ := h.eq
  obtain ⟨-, hp | hp⟩ | ⟨_, hp, -⟩ :=
    Pass.ends_of_step (p := .hooked t g who left said work) hs <;> cases hp

/-- A pass asks in the step with which a hook is set to work, or a call is made. -/
theorem offering_of_asked {hub : Hub σ} {inquiry : Inquiry σ}
    (h : .asked g who inquiry ∈ f.moments hub) : ∃ d timeout t left said,
      f = .pass d timeout (.offering t g (who :: left) said)
        ∧ ((∃ work, inquiry = .script work
            ∧ f.step hub = .goes hub (.pass d timeout (.hooked t g who left said work)))
          ∨ ∃ inner, inquiry = .call inner
            ∧ f.step hub = .calls hub (.pass d timeout (.waiting t g who left said)) inner) := by
  cases f with
  | pass d timeout p =>
    cases p with
    | offering t g' among said =>
      rcases among with _ | ⟨h' | id, left⟩
      · simp [moments] at h
      · cases List.mem_singleton.1 h
        exact ⟨d, timeout, t, left, said, rfl, .inr ⟨_, rfl, rfl⟩⟩
      · cases List.mem_singleton.1 h
        exact ⟨d, timeout, t, left, said, rfl, .inl ⟨_, rfl, rfl⟩⟩
    | hooked t g' who' left said work => cases work <;> simp [moments] at h
    | comparing t g' =>
      simp only [moments] at h
      split at h <;> simp at h
    | _ => simp [moments] at h
  | _ => cases h

end Frame

theorem Hub.store_setDepot (hub : Hub σ) {d other : DepotId} {depot : Depot}
    (hs : depot.store = (hub.depot d).store) :
    ((hub.setDepot d depot).depot other).store = (hub.depot other).store := by
  rcases Nat.lt_or_ge d hub.depots.length with hd | hd
  · rw [depot_setDepot hub other depot hd]
    split_ifs with h
    · rw [hs, h]
    · rfl
  · rw [setDepot_of_le depot hd]

/-- Where a pass goes on with no hook at work, it leaves what is stored alone, unless it is seen to
see to a group of its own depot. -/
theorem Pass.Goes.store {hub hub' : Hub σ} {d : DepotId} {timeout : Nat} {p p' : Pass σ}
    (hg : Goes hub d timeout p hub' p')
    (hhook : ∀ g who work, ¬(Frame.pass d timeout p).Consults g who work) {other : DepotId}
    (hunseen : other = d → ∀ g was now,
      .settled g was now ∉ (Frame.pass d timeout p).moments hub) :
    (hub'.depot other).store = (hub.depot other).store := by
  cases hg
  case hooked => exact absurd ⟨rfl, rfl, rfl⟩ (hhook _ _ _)
  case swept t g hsame =>
    by_cases hd : other = d
    · exact absurd (List.mem_singleton_self _) (hunseen hd g _ _)
    · rw [Hub.depot_setDepot_ne _ _ (Ne.symm hd)]
  case claimed => exact Hub.store_setDepot _ rfl
  case kept => exact Hub.store_setDepot _ rfl
  case freed => exact Hub.store_setDepot _ rfl
  all_goals rfl

namespace Machine

variable {s : Machine σ} {i : Nat} {mv : Move σ} {f : Frame σ} {g : Group} {who : Participant}

/-- What is seen in a turn of a pass. -/
theorem seen_of_turn (hf : s.frameAt ⟨i, 0⟩ = some f) (ht : s.turns ⟨i, 0⟩ mv = true) :
    s.seen i mv = f.moments s.hub := by
  obtain ⟨rfl, t, below, hthread, hstack, hp⟩ := top_of_turns hf ht
  obtain rfl : below = [] := List.eq_nil_of_length_eq_zero (congrArg Place.depth hp).symm
  simp only [seen, if_pos, hthread, Option.elim_some, Thread.moments, hstack]

/-- What is seen as the call that stands on a pass returns. -/
theorem seen_of_returns {r : Reply} (hf : s.frameAt ⟨i, 0⟩ = some f)
    (h : s.Returns ⟨i, 0⟩ f mv r) : s.seen i mv = f.hears r := by
  obtain ⟨inner, hub', hinner, hs⟩ := h.ends
  obtain ⟨rfl, t, below, hthread, hstack, hp⟩ := top_of_turns hinner h.turns
  obtain ⟨f', rfl⟩ : ∃ f', below = [f'] :=
    List.length_eq_one_iff.1 (congrArg Place.depth hp).symm
  change s.threads[i]? = some t at hthread
  rw [frameAt_of_thread hthread, hstack] at hf
  cases hf
  simp only [seen, Place.above, if_pos, hthread, Option.elim_some, Thread.moments, hstack, hs,
    Thread.hears]

/-- Nothing is seen as long as a call stands on a pass. -/
theorem seen_of_busy {inner : Frame σ} (hf : s.frameAt ⟨i, 0⟩ = some f)
    (hinner : s.frameAt ⟨i, 1⟩ = some inner)
    (hsame : ((s.move mv).frameAt ⟨i, 1⟩).isNone = (s.frameAt ⟨i, 1⟩).isNone) :
    s.seen i mv = [] := by
  obtain ⟨t, hthread, hat⟩ := Option.bind_eq_some_iff.1 hinner
  change s.threads[i]? = some t at hthread
  change t.stack.reverse[1]? = some inner at hat
  cases mv with
  | event e =>
    cases e with
    | step j =>
      by_cases hj : j = i
      · subst hj
        rcases hstack : t.stack with _ | ⟨top, _ | ⟨last, rest⟩⟩
        · simp [hstack] at hat
        · simp [hstack] at hat
        · simp only [seen, if_pos, hthread, Option.elim_some, Thread.moments, hstack]
          rcases hs : top.step s.hub with ⟨hub', f'⟩ | ⟨hub', f', new⟩ | ⟨hub', r⟩ | deadline
          case ends =>
            rcases rest with _ | ⟨next, rest⟩
            · -- the call that stands on the pass would be over
              have hturn : s.turns ⟨j, 1⟩ (.event (.step j)) = true := by
                simpa [turns, Place.above] using frameAt_above_top hthread hstack
              have hover : (s.move (.event (.step j))).frameAt ⟨j, 1⟩ = none :=
                (turn_ends (frameAt_top hthread hstack) hturn hs).2
              rw [hinner, hover] at hsame
              cases hsame
            · rfl
          all_goals rfl
      · simp only [seen, if_neg hj]
    | _ => rfl
  | _ => rfl

/-- A pass that waits for an answer hears it. -/
theorem listens (moves : List (Move σ)) {inner : Frame σ} (hf : s.frameAt ⟨i, 0⟩ = some f)
    (hwaits : f.Awaits g who) (hinner : s.frameAt ⟨i, 1⟩ = some inner) :
    s.Listens i g who moves := by
  induction moves generalizing s inner with
  | nil => exact .still hinner
  | cons mv moves ih =>
    have hturn : s.turns ⟨i, 0⟩ mv = false := by
      by_contra hturn
      have hfree := free_of_turns (by simpa using hturn)
      change s.frameAt ⟨i, 1⟩ = none at hfree
      rw [hinner] at hfree
      cases hfree
    obtain ⟨hback, hsame⟩ | ⟨r, hreturn⟩ := move_of_not_turns hf hturn
    · change ((s.move mv).frameAt ⟨i, 1⟩).isNone = (s.frameAt ⟨i, 1⟩).isNone at hsame
      have hbusy : ((s.move mv).frameAt ⟨i, 1⟩).isNone = false := by rw [hsame, hinner]; rfl
      obtain ⟨inner', hinner'⟩ := Option.isSome_iff_exists.1 (by simpa using hbusy)
      exact .waits hinner (seen_of_busy hf hinner hsame) (ih hback hinner')
    · have hseen := seen_of_returns hf hreturn
      obtain ⟨d, timeout, t, left, said, rfl⟩ := hwaits.eq
      by_cases hanswer : ∃ outcome, r = .offered (.returned outcome)
      · obtain ⟨outcome, rfl⟩ := hanswer
        exact .hears hreturn hseen
      · refine .breaks hreturn (fun outcome hr => hanswer ⟨outcome, hr⟩) (hseen.trans ?_)
        simp only [Frame.hears]
        split
        · exact absurd ⟨_, rfl⟩ hanswer
        · rfl

/-- Whatever is asked is asked in a turn of the pass. -/
theorem turn_of_asked {inquiry : Inquiry σ} (h : .asked g who inquiry ∈ s.seen i mv) :
    ∃ f, s.frameAt ⟨i, 0⟩ = some f ∧ s.turns ⟨i, 0⟩ mv = true
      ∧ .asked g who inquiry ∈ f.moments s.hub := by
  cases mv with
  | event e =>
    cases e with
    | step j =>
      by_cases hj : j = i
      · subst hj
        rcases ht : s.threads[j]? with _ | t
        · simp [seen, ht] at h
        simp only [seen, if_pos, ht, Option.elim_some, Thread.moments] at h
        rcases hstack : t.stack with _ | ⟨top, _ | ⟨last, rest⟩⟩ <;> rw [hstack] at h
        · cases h
        · refine ⟨top, frameAt_top ht hstack, ?_, h⟩
          simpa [turns, Place.above] using frameAt_above_top ht hstack
        · -- a reply is heard, if anything
          simp only at h
          split at h
          · rcases rest with _ | ⟨next, rest⟩
            · simp only [Thread.hears, Frame.hears] at h
              repeat' split at h
              all_goals simp at h
            · cases h
          · cases h
      · simp [seen, hj] at h
    | _ => cases h
  | _ => cases h

/-- A pass hears what it asks for, and does nothing to what is stored unseen. -/
theorem candid (s : Machine σ) (i : Nat) (moves : List (Move σ)) : s.Candid i moves where
  scripts := by
    rintro before mv rest rfl g who work hasked
    obtain ⟨f, hf, hturn, hmoment⟩ := turn_of_asked hasked
    obtain ⟨d, timeout, t, left, said, rfl, ⟨_, hwork, hs⟩ | ⟨_, hcall, -⟩⟩ :=
      Frame.offering_of_asked hmoment
    · cases hwork
      rw [after_append]
      refine carriesOut (Frame.enacts_consults g who) (fun hf hat hturn _ hw => ?_) rest
        (turn_goes hf hturn hs).2.1 ⟨rfl, rfl, rfl⟩
        fun _ _ _ _ _ r _ _ hat => hat.ne_ends r
      obtain ⟨d, timeout, t, left, said, rfl⟩ := hat.eq
      rw [seen_of_turn hf hturn, Script.gives_of_step hw]
      rfl
    · cases hcall
  calls := by
    rintro before mv rest rfl g who inner hasked
    obtain ⟨f, hf, hturn, hmoment⟩ := turn_of_asked hasked
    obtain ⟨d, timeout, t, left, said, rfl, ⟨_, hwork, -⟩ | ⟨_, hcall, hs⟩⟩ :=
      Frame.offering_of_asked hmoment
    · cases hwork
    · cases hcall
      obtain ⟨-, hback, habove⟩ := turn_calls hf hturn hs
      rw [after_append]
      exact ⟨habove, listens rest hback ⟨rfl, rfl⟩ habove⟩
  leaves := by
    rintro before mv rest rfl d timeout p hf hturn hhook other hunseen
    rw [seen_of_turn hf hturn] at hunseen
    rw [after_append]
    change (((s.after before).move mv).hub.depot other).store = _
    rcases hs : p.step (s.after before).hub d timeout
      with ⟨hub', f'⟩ | ⟨hub', f', inner⟩ | ⟨hub', r⟩ | deadline
    · obtain ⟨p', rfl, hg⟩ := Pass.goes_of_step hs
      rw [(turn_goes hf hturn hs).1]
      exact hg.store hhook hunseen
    · rw [(turn_calls hf hturn hs).1, (Pass.calls_of_step hs).1]
    · rw [(turn_ends hf hturn hs).1]
      obtain ⟨rfl, -⟩ | ⟨t, -, rfl⟩ := Pass.ends_of_step hs
      · rfl
      · exact Hub.store_setDepot _ rfl
    · rw [turn_waits hf hturn hs]

end Machine

end Collate
