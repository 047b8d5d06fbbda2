import Collate.Intake
import Collate.Proofs.Depots
import Collate.Reaper
import Mathlib.Data.List.Induction

/-!
# Requests to stop

Any number of requests, each a flag raised and a signal sent, between the steps of any number of
intakes and reapers. A loop that is about to look finds the flag up once some request is through; a
loop that looked before that subscribed before the signal was sent, so its wait has something
pending, be it the signal or word that signals were lost. So every loop ends within three steps of
its own, whatever its waits go on with.
-/

namespace Collate

open Shutdown (Coordinator)

/-! ## Loops -/

/-- A pass of a reaper. -/
inductive Round where
  | periodic
  | final
  deriving DecidableEq

/-- The pass that a step of a reaper makes. -/
def Reaper.Run.round? (r : Reaper.Run) (choice : Reaper.Choice) : Option Round :=
  match r.phase, choice with
  | .waiting, .tick => some .periodic
  | .stopping, _ => if r.plan.expireOnStop then some .final else none
  | _, _ => none

/-- A reaper touches the machine only by its passes, and counts what they expired. -/
theorem Reaper.step_of_round? {σ : Type} (c : Coordinator) (s : Machine σ) (r : Reaper.Run)
    (choice : Reaper.Choice) :
    (step c s r choice).2.1 = (if (r.round? choice).isSome then (pass s r.plan).1 else s)
      ∧ (step c s r choice).2.2.total
        = r.total + if (r.round? choice).isSome then (pass s r.plan).2 else 0 := by
  obtain ⟨plan, receiver, total, phase⟩ := r
  cases phase <;> cases choice <;> simp only [step, Run.round?] <;> split_ifs <;> simp_all

/-- Where a loop stands, whatever it does. -/
inductive Stance where
  | checking
  | waiting
  | stopping
  | over
  deriving DecidableEq

namespace Stance

/-- How many steps may be left, once the flag is up and waits have something pending. -/
def rank : Stance → Nat
  | .over => 0
  | .stopping => 1
  | .checking => 2
  | .waiting => 3

theorem rank_le (s : Stance) : s.rank ≤ 3 := by cases s <;> decide

theorem eq_over_of_rank {s : Stance} (h : s.rank = 0) : s = .over := by
  cases s <;> first | rfl | cases h

end Stance

def Intake.Phase.stance : Intake.Phase → Stance
  | .checking => .checking
  | .waiting => .waiting
  | .over | .broken _ => .over

def Reaper.Phase.stance : Reaper.Phase → Stance
  | .checking => .checking
  | .waiting => .waiting
  | .stopping => .stopping
  | .over => .over

/-- An intake, or a reaper with the passes that it made so far. -/
inductive Loop where
  | intake (r : Intake.Run)
  | reaper (r : Reaper.Run) (rounds : List Round)

/-- The branch that a wait goes on with: what it was told, or the next line or tick. -/
inductive Branch where
  | signal
  | work

def Branch.intake : Branch → Intake.Choice
  | signal => .signal
  | work => .line

def Branch.reaper : Branch → Reaper.Choice
  | signal => .signal
  | work => .tick

namespace Loop

variable {σ : Type}

def stance : Loop → Stance
  | intake r => r.phase.stance
  | reaper r _ => r.phase.stance

def receiver : Loop → Nat
  | intake r => r.receiver
  | reaper r _ => r.receiver

def step (c : Coordinator) (s : Machine σ) (b : Branch) : Loop → Coordinator × Machine σ × Loop
  | intake r =>
    let (c, s, r) := Intake.step c s r b.intake
    (c, s, .intake r)
  | reaper r rounds =>
    let round := r.round? b.reaper
    let (c, s, r) := Reaper.step c s r b.reaper
    (c, s, .reaper r (rounds ++ round.toList))

/-- What a step of a loop does to the coordinator and to where the loop stands. -/
inductive Moves (c : Coordinator) (l : Loop) : Coordinator → Loop → Prop where
  | rests (h : l.stance = .over ∨ l.stance = .waiting ∧ c.isPending l.receiver = false) :
      Moves c l c l
  | waits {l' : Loop} (h : l'.stance = .waiting) (hc : c.requested = false)
      (hr : l'.receiver = l.receiver) : Moves c l c l'
  | nears {l' : Loop} (h : l'.stance.rank < l.stance.rank) (hr : l'.receiver = l.receiver) :
      Moves c l c l'
  | hears {l' : Loop} (h : l'.stance.rank < l.stance.rank) (hr : l'.receiver = l.receiver) :
      Moves c l (c.receive l.receiver).1 l'

theorem Moves.receiver {c c' : Coordinator} {l l' : Loop} (h : Moves c l c' l') :
    l'.receiver = l.receiver := by
  cases h with
  | rests => rfl
  | waits _ _ hr | nears _ hr | hears _ hr => exact hr

theorem Moves.coordinator {c c' : Coordinator} {l l' : Loop} (h : Moves c l c' l') :
    c' = c ∨ c' = (c.receive l.receiver).1 := by
  cases h with
  | rests | waits | nears => exact .inl rfl
  | hears => exact .inr rfl

theorem moves_intake (c : Coordinator) (s : Machine σ) (b : Branch) (r : Intake.Run) :
    Moves c (.intake r) (step c s b (.intake r)).1 (step c s b (.intake r)).2.2 := by
  obtain ⟨h, receiver, lines, summary, phase⟩ := r
  cases phase with
  | checking =>
    rcases hc : c.requested with _ | _ <;> simp only [step, Intake.step, hc]
    · exact .waits rfl hc rfl
    · exact .nears (show Stance.over.rank < Stance.checking.rank by decide) rfl
  | waiting =>
    cases b with
    | signal =>
      rcases hp : c.isPending receiver with _ | _ <;>
        simp only [step, Branch.intake, Intake.step, hp, if_true, Bool.false_eq_true, if_false]
      · exact .rests (.inr ⟨rfl, hp⟩)
      · exact .hears (show Stance.over.rank < Stance.waiting.rank by decide) rfl
    | work =>
      simp only [step, Branch.intake, Intake.step, Intake.nextLine]
      split
      · exact .nears (show Stance.over.rank < Stance.waiting.rank by decide) rfl
      · split
        · exact .nears (show Stance.over.rank < Stance.waiting.rank by decide) rfl
        · exact .nears (show Stance.checking.rank < Stance.waiting.rank by decide) rfl
  | _ => exact .rests (.inl rfl)

theorem moves_reaper (c : Coordinator) (s : Machine σ) (b : Branch) (r : Reaper.Run)
    (rounds : List Round) :
    Moves c (.reaper r rounds) (step c s b (.reaper r rounds)).1
      (step c s b (.reaper r rounds)).2.2 := by
  obtain ⟨plan, receiver, total, phase⟩ := r
  cases phase with
  | checking =>
    rcases hc : c.requested with _ | _ <;>
      simp only [step, Reaper.step, Reaper.Run.round?, hc, Option.toList_none, List.append_nil]
    · exact .waits rfl hc rfl
    · exact .nears (show Stance.stopping.rank < Stance.checking.rank by decide) rfl
  | waiting =>
    cases b with
    | signal =>
      rcases hp : c.isPending receiver with _ | _ <;>
        simp only [step, Branch.reaper, Reaper.step, Reaper.Run.round?, hp, if_true,
          Bool.false_eq_true, if_false, Option.toList_none, List.append_nil]
      · exact .rests (.inr ⟨rfl, hp⟩)
      · exact .hears (show Stance.stopping.rank < Stance.waiting.rank by decide) rfl
    | work => exact .nears (show Stance.checking.rank < Stance.waiting.rank by decide) rfl
  | stopping =>
    simp only [step, Reaper.step]
    split_ifs <;> exact .nears (show Stance.over.rank < Stance.stopping.rank by decide) rfl
  | _ =>
    simp only [step, Reaper.step, Reaper.Run.round?, Option.toList_none, List.append_nil]
    exact .rests (.inl rfl)

theorem moves_step (c : Coordinator) (s : Machine σ) (b : Branch) (l : Loop) :
    Moves c l (l.step c s b).1 (l.step c s b).2.2 := by
  cases l with
  | intake r => exact moves_intake c s b r
  | reaper r rounds => exact moves_reaper c s b r rounds

/-- A reaper makes periodic passes, and then a last one if it is to make one. -/
def Tidy : Loop → Prop
  | intake _ => True
  | reaper r rounds => ∃ n, rounds = List.replicate n .periodic
      ++ if r.phase = .over ∧ r.plan.expireOnStop = true then [.final] else []

theorem Tidy.step {l : Loop} (h : l.Tidy) (c : Coordinator) (s : Machine σ) (b : Branch) :
    (l.step c s b).2.2.Tidy := by
  cases l with
  | intake r => trivial
  | reaper r rounds =>
    obtain ⟨plan, receiver, total, phase⟩ := r
    obtain ⟨n, rfl⟩ := h
    cases phase with
    | checking =>
      rcases hc : c.requested with _ | _ <;> simp only [Loop.step, Reaper.step, hc] <;>
        exact ⟨n, by simp [Reaper.Run.round?]⟩
    | waiting =>
      cases b with
      | signal =>
        rcases hp : c.isPending receiver with _ | _ <;>
          simp only [Loop.step, Branch.reaper, Reaper.step, hp, if_true, Bool.false_eq_true,
            if_false] <;>
          exact ⟨n, by simp [Reaper.Run.round?]⟩
      | work => exact ⟨n + 1, by simp [Reaper.Run.round?, Branch.reaper, List.replicate_succ']⟩
    | stopping =>
      rcases he : plan.expireOnStop with _ | _ <;>
        simp only [Loop.step, Reaper.step, he, if_true, Bool.false_eq_true, if_false] <;>
        exact ⟨n, by simp [Reaper.Run.round?, he]⟩
    | _ => exact ⟨n, by simp [Reaper.Run.round?]⟩

end Loop

/-- An intake that was told to stop: it reads one line more at most, and only if it was waiting. -/
def Intake.Run.Ceases (r r' : Run) : Prop :=
  r' = r
    ∨ r'.phase ≠ .waiting ∧ (r'.lines = r.lines ∧ r'.summary = r.summary
      ∨ r.phase = .waiting ∧ ∃ line, r.lines = line :: r'.lines
        ∧ (r'.summary = r.summary ∨ ∃ fate, r'.summary = count r.summary fate))

/-- A reaper that was told to stop: it makes one periodic pass more if it was waiting, and then the
last one if it is to make one. -/
def Reaper.Run.Ceases (r : Run) (rounds : List Round) (r' : Run) (rounds' : List Round) : Prop :=
  (r' = r ∧ rounds' = rounds)
    ∨ r.phase ≠ .over ∧ r'.phase ≠ .waiting ∧ r'.plan = r.plan
      ∧ ∃ periodic, (periodic = [] ∨ r.phase = .waiting ∧ periodic = [.periodic])
        ∧ rounds' = rounds ++ periodic
          ++ if r'.phase = .over ∧ r.plan.expireOnStop = true then [.final] else []

section Ceasing

variable {σ : Type} {c : Coordinator}

theorem Intake.ceases_step (hc : c.requested = true) (s : Machine σ) (r : Run) (choice : Choice) :
    r.Ceases (step c s r choice).2.2 ∧ (r.phase ≠ .waiting →
      (step c s r choice).2.2.phase ≠ .waiting ∧ (step c s r choice).2.2.lines = r.lines
        ∧ (step c s r choice).2.2.summary = r.summary) := by
  obtain ⟨h, receiver, lines, summary, phase⟩ := r
  cases phase with
  | checking => simp [step, hc, Run.Ceases]
  | waiting =>
    refine ⟨?_, fun hne => absurd rfl hne⟩
    cases choice with
    | signal =>
      simp only [step]
      split_ifs
      · exact .inr ⟨by simp, .inl ⟨rfl, rfl⟩⟩
      · exact .inl rfl
    | line =>
      rcases lines with _ | ⟨line, rest⟩
      · exact .inr ⟨by simp [step, nextLine], .inl ⟨rfl, rfl⟩⟩
      · simp only [step, nextLine]
        split
        · exact .inr ⟨by simp, .inr ⟨rfl, line, rfl, .inl rfl⟩⟩
        · exact .inr ⟨by simp, .inr ⟨rfl, line, rfl, .inr ⟨_, rfl⟩⟩⟩
  | _ => simp [step, Run.Ceases]

theorem Intake.Run.Ceases.step {r r' : Run} (h : r.Ceases r') (hc : c.requested = true)
    (s : Machine σ) (choice : Choice) : r.Ceases (step c s r' choice).2.2 := by
  obtain ⟨hnext, hrests⟩ := ceases_step hc s r' choice
  rcases h with rfl | ⟨hne, hread⟩
  · exact hnext
  · obtain ⟨hne', hlines, hsummary⟩ := hrests hne
    exact .inr ⟨hne', by rwa [hlines, hsummary]⟩

theorem Reaper.Run.Ceases.step {r r' : Run} {rounds rounds' : List Round}
    (h : r.Ceases rounds r' rounds') (hc : c.requested = true) (s : Machine σ) (choice : Choice) :
    r.Ceases rounds (step c s r' choice).2.2 (rounds' ++ (r'.round? choice).toList) := by
  rcases h with ⟨rfl, rfl⟩ | ⟨hover, hne, hplan, periodic, hp, rfl⟩
  · obtain ⟨plan, receiver, total, phase⟩ := r'
    cases phase with
    | checking =>
      refine .inr ⟨by simp, by simp [Reaper.step, hc], rfl, [], .inl rfl, ?_⟩
      simp [Reaper.step, hc, round?]
    | waiting =>
      cases choice with
      | signal =>
        simp only [Reaper.step]
        split_ifs
        · exact .inr ⟨by simp, by simp, rfl, [], .inl rfl, by simp [round?]⟩
        · exact .inl ⟨rfl, by simp [round?]⟩
      | tick =>
        exact .inr ⟨by simp, by simp [Reaper.step], rfl, [.periodic], .inr ⟨rfl, rfl⟩,
          by simp [Reaper.step, round?]⟩
    | stopping =>
      rcases he : plan.expireOnStop with _ | _ <;>
        simp only [Reaper.step, he, if_true, Bool.false_eq_true, if_false] <;>
        exact .inr ⟨by simp, by simp, rfl, [], .inl rfl, by simp [round?, he]⟩
    | _ => exact .inl ⟨rfl, by simp [round?]⟩
  · obtain ⟨plan, receiver, total, phase⟩ := r'
    cases hplan
    cases phase with
    | checking =>
      exact .inr ⟨hover, by simp [Reaper.step, hc], rfl, periodic, hp,
        by simp [Reaper.step, round?, hc]⟩
    | waiting => exact absurd rfl hne
    | stopping =>
      rcases he : r.plan.expireOnStop with _ | _ <;>
        simp only [Reaper.step, he, if_true, Bool.false_eq_true, if_false] <;>
        exact .inr ⟨hover, by simp, rfl, periodic, hp, by simp [round?, he]⟩
    | _ =>
      exact .inr ⟨hover, by simp [Reaper.step], rfl, periodic, hp, by simp [round?, Reaper.step]⟩

end Ceasing

/-! ## Pending signals -/

namespace Shutdown.Coordinator

variable {c : Coordinator}

theorem isPending_iff {i : Nat} :
    c.isPending i = true ↔ ∃ past, c.receivers[i]? = some past ∧ past < c.sent := by
  unfold isPending receive notice
  rcases c.receivers[i]? with _ | past
  · have hnot : ¬ c.sent + ringSize < c.sent := by omega
    simp [hnot]
  · simp only [Option.getD_some, Option.some.injEq, exists_eq_left']
    split_ifs <;> simp <;> omega

/-- A receiver that looks is past no more than was sent. -/
theorem notice_le {past : Nat} (h : past ≤ c.sent) : (c.notice past).2 ≤ c.sent := by
  unfold notice
  split_ifs <;> simp only <;> omega

/-- Looking changes nothing for the others. -/
theorem isPending_receive {i j : Nat} (h : i ≠ j) :
    (c.receive i).1.isPending j = c.isPending j := by
  have hj : (c.receive i).1.receivers[j]? = c.receivers[j]? := List.getElem?_set_ne h
  unfold isPending
  simp only [receive] at hj ⊢
  rw [hj]
  rfl

end Shutdown.Coordinator

/-! ## Everything that goes on -/

/-- How far a request to stop has come. -/
inductive Trigger where
  | raising
  | signalling
  | through
  deriving DecidableEq

/-- The coordinator, a machine, and all requests and loops there ever were, each with its
number. -/
structure World (σ : Type) where
  coordinator : Coordinator
  machine : Machine σ
  triggers : List Trigger
  loops : List Loop

namespace World

variable {σ : Type}

/-- What happens next. A line is read and handled in one step, and so is a pass made, at the time
when the wait chose it; what others do to the machine meanwhile may stand before or after. -/
inductive Act (σ : Type) where
  | trigger
  | further (j : Nat)
  | listen (h : HandlerId) (input : List UInt8)
  | spawn (p : ReaperPlan)
  | loop (i : Nat) (b : Branch)
  | meddle (s : Machine σ)

def Act.isOf (i : Nat) : Act σ → Bool
  | .loop j _ => i = j
  | _ => false

def initial (s : Machine σ) : World σ := ⟨.initial, s, [], []⟩

def step (w : World σ) : Act σ → World σ
  | .trigger => { w with triggers := w.triggers ++ [.raising] }
  | .further j =>
    match w.triggers[j]? with
    | some .raising =>
      { w with coordinator := w.coordinator.raise, triggers := w.triggers.set j .signalling }
    | some .signalling =>
      { w with coordinator := w.coordinator.signal, triggers := w.triggers.set j .through }
    | _ => w
  | .listen h input =>
    let (c, r) := Intake.begin w.coordinator h input
    { w with coordinator := c, loops := w.loops ++ [.intake r] }
  | .spawn p =>
    let (c, r) := Reaper.begin w.coordinator p
    { w with coordinator := c, loops := w.loops ++ [.reaper r []] }
  | .loop i b =>
    match w.loops[i]? with
    | some l =>
      let (c, s, l) := l.step w.coordinator w.machine b
      { w with coordinator := c, machine := s, loops := w.loops.set i l }
    | none => w
  | .meddle s => { w with machine := s }

def run (w : World σ) (acts : List (Act σ)) : World σ := acts.foldl step w

theorem run_snoc (w : World σ) (acts : List (Act σ)) (a : Act σ) :
    w.run (acts ++ [a]) = (w.run acts).step a := by
  simp [run]

/-- What holds of a world whatever happened. Each loop has the receiver of its number, none is past
what was sent, and once a request is through every wait has something pending. -/
structure Kept (w : World σ) : Prop where
  raised : ∀ x ∈ w.triggers, x ≠ .raising → w.coordinator.requested = true
  past : ∀ p ∈ w.coordinator.receivers, p ≤ w.coordinator.sent
  seats : w.coordinator.receivers.length = w.loops.length
  own : ∀ (i : Nat) (l : Loop), w.loops[i]? = some l → l.receiver = i
  pending : .through ∈ w.triggers → ∀ l ∈ w.loops, l.stance = .waiting →
    w.coordinator.isPending l.receiver = true
  tidy : ∀ l ∈ w.loops, l.Tidy

theorem kept_initial (s : Machine σ) : (initial s).Kept where
  raised x hx := by cases hx
  past p hp := by cases hp
  seats := rfl
  own i l hl := by cases hl
  pending h := by cases h
  tidy l hl := by cases hl

variable {w : World σ}

theorem Kept.trigger (hw : w.Kept) : (w.step .trigger).Kept := by
  refine ⟨fun x hx hne => ?_, hw.past, hw.seats, hw.own, fun hx => hw.pending ?_, hw.tidy⟩
  · rcases List.mem_append.1 hx with hx | hx
    · exact hw.raised x hx hne
    · exact absurd (List.mem_singleton.1 hx) hne
  · rcases List.mem_append.1 hx with hx | hx
    · exact hx
    · cases List.mem_singleton.1 hx

theorem Kept.further (hw : w.Kept) (j : Nat) : (w.step (.further j)).Kept := by
  simp only [step]
  split
  · refine ⟨fun _ _ _ => rfl, hw.past, hw.seats, hw.own, fun hx => ?_, hw.tidy⟩
    rcases List.mem_or_eq_of_mem_set hx with hx | hx
    · exact hw.pending hx
    · cases hx
  · rename_i hj
    have hraised := hw.raised _ (List.mem_of_getElem? hj) (by decide)
    refine ⟨fun _ _ _ => hraised, fun p hp => Nat.le_succ_of_le (hw.past p hp), hw.seats, hw.own,
      fun _ l hl hwait => ?_, hw.tidy⟩
    -- the receiver was there before this signal
    obtain ⟨i, hi⟩ := List.getElem?_of_mem hl
    have hlt : l.receiver < w.coordinator.receivers.length := by
      rw [hw.own i l hi, hw.seats]
      exact (List.getElem?_eq_some_iff.1 hi).1
    exact Shutdown.Coordinator.isPending_iff.2 ⟨_, List.getElem?_eq_getElem hlt,
      Nat.lt_succ_of_le (hw.past _ (List.getElem_mem hlt))⟩
  · exact hw

/-- A loop that starts has a receiver of its own, and looks at the flag first. -/
theorem Kept.starts (hw : w.Kept) {l : Loop} (hr : l.receiver = w.coordinator.subscribe.2)
    (hl : l.stance = .checking) (ht : l.Tidy) :
    Kept { w with coordinator := w.coordinator.subscribe.1, loops := w.loops ++ [l] } := by
  refine ⟨hw.raised, fun p hp => ?_, ?_, fun i l' hi => ?_, fun hx l' hl' hwait => ?_,
    fun l' hl' => ?_⟩
  · rcases List.mem_append.1 hp with hp | hp
    · exact hw.past p hp
    · exact Nat.le_of_eq (List.mem_singleton.1 hp)
  · simp [Coordinator.subscribe, hw.seats]
  · rw [getElem?_snoc] at hi
    split_ifs at hi with hlast
    · cases hi
      rw [hr, hlast, ← hw.seats]
      rfl
    · exact hw.own i l' hi
  · rcases List.mem_append.1 hl' with hl' | hl'
    · obtain ⟨past, hpast, hlt⟩ :=
        Shutdown.Coordinator.isPending_iff.1 (hw.pending hx l' hl' hwait)
      exact Shutdown.Coordinator.isPending_iff.2
        ⟨past, List.getElem?_append_left (List.getElem?_eq_some_iff.1 hpast).1 ▸ hpast, hlt⟩
    · cases List.mem_singleton.1 hl'
      rw [hl] at hwait
      cases hwait
  · rcases List.mem_append.1 hl' with hl' | hl'
    · exact hw.tidy l' hl'
    · exact List.mem_singleton.1 hl' ▸ ht

theorem Kept.moves (hw : w.Kept) {i : Nat} {l l' : Loop} {c : Coordinator} (s : Machine σ)
    (hi : w.loops[i]? = some l) (hm : l.Moves w.coordinator c l') (ht : l'.Tidy) :
    Kept { w with coordinator := c, machine := s, loops := w.loops.set i l' } := by
  obtain ⟨hlt, -⟩ := List.getElem?_eq_some_iff.1 hi
  have hown := hw.own i l hi
  have hothers : c.requested = w.coordinator.requested ∧ (∀ p ∈ c.receivers, p ≤ c.sent)
      ∧ c.receivers.length = w.coordinator.receivers.length
      ∧ ∀ j, i ≠ j → c.isPending j = w.coordinator.isPending j := by
    rcases hm.coordinator with rfl | rfl
    · exact ⟨rfl, hw.past, rfl, fun _ _ => rfl⟩
    · refine ⟨rfl, fun p hp => ?_, List.length_set, fun j hj =>
        Shutdown.Coordinator.isPending_receive (hown ▸ hj)⟩
      rcases List.mem_or_eq_of_mem_set hp with hp | rfl
      · exact hw.past p hp
      · refine Shutdown.Coordinator.notice_le ?_
        rcases hr : w.coordinator.receivers[l.receiver]? with _ | past
        · exact Nat.le_refl _
        · exact hw.past past (List.mem_of_getElem? hr)
  obtain ⟨hreq, hpast, hlen, hpending⟩ := hothers
  -- who still waits was told, or looked before any request was through
  have hwaits : .through ∈ w.triggers → l'.stance = .waiting → c.isPending l'.receiver = true := by
    intro hx hwait
    cases hm with
    | rests => exact hw.pending hx l (List.mem_of_getElem? hi) hwait
    | waits _ hc => rw [hw.raised _ hx (by decide)] at hc; cases hc
    | nears h | hears h =>
      rw [hwait] at h
      exact absurd (l.stance.rank_le) (Nat.not_le.2 h)
  refine ⟨fun x hx hne => hreq.trans (hw.raised x hx hne), hpast, ?_, fun j l₀ hj => ?_,
    fun hx l₀ hl₀ hwait => ?_, fun l₀ hl₀ => ?_⟩
  · simp [hlen, hw.seats]
  · rw [List.getElem?_set] at hj
    split_ifs at hj with hij
    · cases hj
      rw [hm.receiver, hown, hij]
    · exact hw.own j l₀ hj
  · obtain ⟨j, hj⟩ := List.getElem?_of_mem hl₀
    rw [List.getElem?_set] at hj
    split_ifs at hj with hij
    · cases hj
      exact hwaits hx hwait
    · rw [hpending _ (by rwa [hw.own j l₀ hj])]
      exact hw.pending hx l₀ (List.mem_of_getElem? hj) hwait
  · rcases List.mem_or_eq_of_mem_set hl₀ with hl₀ | rfl
    · exact hw.tidy l₀ hl₀
    · exact ht

theorem Kept.step (hw : w.Kept) (a : Act σ) : (w.step a).Kept := by
  cases a with
  | trigger => exact hw.trigger
  | further j => exact hw.further j
  | listen h input => exact hw.starts rfl rfl trivial
  | spawn p => exact hw.starts rfl rfl ⟨0, rfl⟩
  | loop i b =>
    simp only [World.step]
    split
    · rename_i l hi
      exact hw.moves _ hi (l.moves_step ..) ((hw.tidy l (List.mem_of_getElem? hi)).step ..)
    · exact hw
  | meddle s => exact ⟨hw.raised, hw.past, hw.seats, hw.own, hw.pending, hw.tidy⟩

theorem Kept.run (hw : w.Kept) (acts : List (Act σ)) : (w.run acts).Kept := by
  induction acts generalizing w with
  | nil => exact hw
  | cons a acts ih => exact ih (hw.step a)

/-! ## Once a request is through -/

theorem through_step (h : .through ∈ w.triggers) (a : Act σ) : .through ∈ (w.step a).triggers := by
  have hset : ∀ {j : Nat} {x y : Trigger}, w.triggers[j]? = some x → x ≠ .through →
      .through ∈ w.triggers.set j y := by
    intro j x y hj hne
    obtain ⟨k, hk⟩ := List.getElem?_of_mem h
    refine List.mem_of_getElem? ((List.getElem?_set_ne ?_).trans hk)
    rintro rfl
    exact hne (Option.some.inj (hj.symm.trans hk))
  cases a with
  | trigger => exact List.mem_append_left _ h
  | further j =>
    simp only [step]
    split
    · exact hset ‹_› (by decide)
    · exact hset ‹_› (by decide)
    · exact h
  | loop i b =>
    simp only [step]
    split <;> exact h
  | listen | spawn | meddle => exact h

theorem through_run (h : .through ∈ w.triggers) (acts : List (Act σ)) :
    .through ∈ (w.run acts).triggers := by
  induction acts generalizing w with
  | nil => exact h
  | cons a acts ih => exact ih (through_step h a)

/-- A loop changes by its own steps only. -/
theorem getElem?_loops_step {i : Nat} {l : Loop} (hi : w.loops[i]? = some l) (a : Act σ) :
    (a.isOf i = false ∧ (w.step a).loops[i]? = some l)
      ∨ ∃ b, a = .loop i b
        ∧ (w.step a).loops[i]? = some (l.step w.coordinator w.machine b).2.2 := by
  obtain ⟨hlt, -⟩ := List.getElem?_eq_some_iff.1 hi
  cases a with
  | trigger | meddle => exact .inl ⟨rfl, hi⟩
  | further j =>
    refine .inl ⟨rfl, ?_⟩
    simp only [step]
    split <;> exact hi
  | listen | spawn => exact .inl ⟨rfl, List.getElem?_append_left hlt ▸ hi⟩
  | loop j b =>
    by_cases hij : i = j
    · subst hij
      exact .inr ⟨b, rfl, by simp only [step, hi, List.getElem?_set_self hlt]⟩
    · refine .inl ⟨by simpa [Act.isOf] using hij, ?_⟩
      simp only [step]
      split
      · exact (List.getElem?_set_ne (Ne.symm hij)).trans hi
      · exact hi

/-- What a step of a reaper does: the machine changes by the pass that is listed for it, if there is
one, and by nothing else, and what that pass expired is added to the total. -/
def Makes (w w' : World σ) (i : Nat) (r : Reaper.Run) (rounds : List Round) : Prop :=
  ∃ r' round, w'.loops[i]? = some (.reaper r' (rounds ++ Option.toList round))
    ∧ w'.machine = (if round.isSome then (Reaper.pass w.machine r.plan).1 else w.machine)
    ∧ r'.total = r.total + if round.isSome then (Reaper.pass w.machine r.plan).2 else 0

theorem makes_step {i : Nat} {r : Reaper.Run} {rounds : List Round}
    (hi : w.loops[i]? = some (.reaper r rounds)) (b : Branch) :
    w.Makes (w.step (.loop i b)) i r rounds := by
  obtain ⟨hlt, -⟩ := List.getElem?_eq_some_iff.1 hi
  obtain ⟨hmachine, htotal⟩ := Reaper.step_of_round? w.coordinator w.machine r b.reaper
  refine ⟨_, r.round? b.reaper, ?_, ?_, htotal⟩
  · simp only [step, hi, Loop.step, List.getElem?_set_self hlt]
  · simp only [step, hi, Loop.step]
    exact hmachine

/-- What a world comes to once a request is through: whoever looks sees the flag, whoever waits has
something pending, and a loop reads at most one line more, or makes at most one periodic pass more,
and no pass that is not listed for it, and is over after three steps of its own. A loop that starts
later counts as well, with its own start for the moment. -/
structure Heeds (w : World σ) (after : List (Act σ)) : Prop where
  sees : ∀ l ∈ (w.run after).loops, l.stance = .checking →
    (w.run after).coordinator.requested = true
  hears : ∀ l ∈ (w.run after).loops, l.stance = .waiting →
    (w.run after).coordinator.isPending l.receiver = true
  reads : ∀ (i : Nat) (r : Intake.Run), w.loops[i]? = some (Loop.intake r) → ∃ r',
    (w.run after).loops[i]? = some (Loop.intake r') ∧ r.Ceases r'
  passes : ∀ (i : Nat) (r : Reaper.Run) rounds, w.loops[i]? = some (Loop.reaper r rounds) →
    ∃ r' rounds', (w.run after).loops[i]? = some (Loop.reaper r' rounds')
      ∧ r.Ceases rounds r' rounds'
  makes : ∀ early i b late r rounds, after = early ++ .loop i b :: late →
    (w.run early).loops[i]? = some (Loop.reaper r rounds) →
    (w.run early).Makes (w.run (early ++ [.loop i b])) i r rounds
  tidy : ∀ l ∈ (w.run after).loops, l.Tidy
  ends : ∀ (i : Nat) (l : Loop), w.loops[i]? = some l → 3 ≤ after.countP (Act.isOf i) → ∃ l',
    (w.run after).loops[i]? = some l' ∧ l'.stance = .over

variable (hw : w.Kept) (hx : .through ∈ w.triggers)

include hw hx

theorem Kept.requested (after : List (Act σ)) : (w.run after).coordinator.requested = true :=
  (hw.run after).raised _ (through_run hx after) (by decide)

theorem Kept.reads {i : Nat} {r : Intake.Run} (hi : w.loops[i]? = some (.intake r))
    (after : List (Act σ)) :
    ∃ r', (w.run after).loops[i]? = some (.intake r') ∧ r.Ceases r' := by
  induction after using List.reverseRecOn with
  | nil => exact ⟨r, hi, .inl rfl⟩
  | append_singleton after a ih =>
    obtain ⟨r', hr', hceases⟩ := ih
    rw [run_snoc]
    rcases getElem?_loops_step hr' a with ⟨-, hsame⟩ | ⟨b, rfl, hstep⟩
    · exact ⟨r', hsame, hceases⟩
    · exact ⟨_, hstep, hceases.step (hw.requested hx after) _ b.intake⟩

theorem Kept.passes {i : Nat} {r : Reaper.Run} {rounds : List Round}
    (hi : w.loops[i]? = some (.reaper r rounds)) (after : List (Act σ)) :
    ∃ r' rounds', (w.run after).loops[i]? = some (.reaper r' rounds')
      ∧ r.Ceases rounds r' rounds' := by
  induction after using List.reverseRecOn with
  | nil => exact ⟨r, rounds, hi, .inl ⟨rfl, rfl⟩⟩
  | append_singleton after a ih =>
    obtain ⟨r', rounds', hr', hceases⟩ := ih
    rw [run_snoc]
    rcases getElem?_loops_step hr' a with ⟨-, hsame⟩ | ⟨b, rfl, hstep⟩
    · exact ⟨r', rounds', hsame, hceases⟩
    · exact ⟨_, _, hstep, hceases.step (hw.requested hx after) _ b.reaper⟩

/-- Each step of its own brings a loop nearer to its end. -/
theorem Kept.nears {i : Nat} {l : Loop} (hi : w.loops[i]? = some l) (after : List (Act σ)) :
    ∃ l', (w.run after).loops[i]? = some l'
      ∧ l'.stance.rank ≤ l.stance.rank - after.countP (Act.isOf i) := by
  induction after using List.reverseRecOn with
  | nil => exact ⟨l, hi, Nat.le_refl _⟩
  | append_singleton after a ih =>
    obtain ⟨l', hl', hle⟩ := ih
    rw [run_snoc, List.countP_append, List.countP_singleton]
    rcases getElem?_loops_step hl' a with ⟨hof, hsame⟩ | ⟨b, rfl, hstep⟩
    · exact ⟨l', hsame, by simpa [hof] using hle⟩
    · refine ⟨_, hstep, ?_⟩
      have hkept := hw.run after
      have hmoves := l'.moves_step (w.run after).coordinator (w.run after).machine b
      simp only [Act.isOf, decide_true, if_true]
      generalize l'.step (w.run after).coordinator (w.run after).machine b = next at *
      obtain ⟨c, s, l''⟩ := next
      simp only at hmoves ⊢
      cases hmoves with
      | rests h =>
        rcases h with hover | ⟨hwait, hnot⟩
        · rw [hover]
          exact Nat.zero_le _
        · rw [hkept.pending (through_run hx after) l' (List.mem_of_getElem? hl') hwait] at hnot
          cases hnot
      | waits _ hc => rw [hw.requested hx after] at hc; cases hc
      | nears h | hears h => omega

theorem Kept.heeds (after : List (Act σ)) : w.Heeds after where
  sees _ _ _ := hw.requested hx after
  hears l hl hwait := (hw.run after).pending (through_run hx after) l hl hwait
  reads _ _ hi := hw.reads hx hi after
  passes _ _ _ hi := hw.passes hx hi after
  makes early i b late r rounds _ hi := by
    rw [run_snoc]
    exact makes_step hi b
  tidy := (hw.run after).tidy
  ends i l hi hcount := by
    obtain ⟨l', hl', hle⟩ := hw.nears hx hi after
    exact ⟨l', hl', Stance.eq_over_of_rank (by have := l.stance.rank_le; omega)⟩

omit hw hx

/-- Whatever the order of flags, signals, starts, looks and waits: from the moment on when some
request is through, nobody misses it. -/
theorem request_is_heeded (s : Machine σ) (before after : List (Act σ))
    (h : .through ∈ ((initial s).run before).triggers) :
    ((initial s).run before).Heeds after :=
  ((kept_initial s).run before).heeds h after

/-- An intake with a line and a reaper that both wait when the request comes. -/
def surprised : List (Act Unit) :=
  [.listen 0 [104, 105, 10], .spawn ⟨0, 0, 0, true⟩, .loop 0 .work, .loop 1 .work, .trigger,
    .further 0, .further 0]

theorem surprised_heed :
    .through ∈ ((initial (Machine.initial () fun _ => ⟨""⟩)).run surprised).triggers
      ∧ ((initial (Machine.initial () fun _ => ⟨""⟩)).run surprised).Heeds
        [.loop 1 .signal, .loop 0 .signal, .loop 1 .signal] :=
  ⟨by decide, request_is_heeded _ _ _ (by decide)⟩

end World

end Collate
