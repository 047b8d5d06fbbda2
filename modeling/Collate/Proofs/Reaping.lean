import Collate.Proofs.Resting
import Collate.Proofs.Sittings
import Collate.Proofs.Stopping
import Collate.Proofs.Tallies

/-!
# What a reaper counts

A reaper does not stop the world for its passes. It starts a pass, which is a thread like any other,
and goes on with its count when the pass has replied; meanwhile messages are handled, handlers are
dropped and others pass over the depot as well. If nobody does, that is the reaper of which a pass
is one step (`Reaper.Shift.turns_of_step`). Whoever interferes, the total of the reaper is the
number of groups that its passes took out of the depot (`Reaper.Shift.total_exact`): each pass
replies with what it took out, and a thread that is over takes out nothing more.
-/

namespace Collate

variable {σ : Type}

/-! ## What a move leaves alone -/

namespace Machine

/-- Only who enlists a hook in a depot brings one there. -/
theorem noHooks_move {s : Machine σ} (ho : s.Orderly) {mv : Move σ} (hl : mv.Lawful s.hub)
    {d : DepotId} (hd : ∀ hook, mv ≠ .enlist d hook) (h : NoHooks (s.hub.depot d).participants) :
    NoHooks ((s.move mv).hub.depot d).participants := by
  intro id hmem
  cases mv with
  | event e =>
    cases e with
    | start | elapse => exact h id hmem
    | step i => exact h id ((keeps_step ho i).participants d hmem)
    | build handler =>
      have hjoined := (Hub.orderly_engage ho.hub hl.1 hl.2).2
      simp only [move, apply, Hub.build, Hub.register_orderly hjoined] at hmem
      rcases (Hub.depot_join _ d _).2.2.2 _ hmem with hold | ⟨hwho, -⟩
      · exact h id hold
      · cases hwho
  | openDepot capacity =>
    simp only [move, onHub, Hub.depot_openDepot] at hmem
    split_ifs at hmem
    · cases hmem
    · exact h id hmem
  | enlist d' hook =>
    simp only [move, onHub, Hub.register_orderly (Hub.orderly_enlist ho.hub hl)] at hmem
    rcases (Hub.depot_join _ d _).2.2.2 _ hmem with hold | ⟨-, rfl⟩
    · exact h id hold
    · exact hd hook rfl
  | rearrange | reform | disturb => exact h id hmem

theorem length_le_move (s : Machine σ) (mv : Move σ) :
    s.threads.length ≤ (s.move mv).threads.length := by
  cases mv with
  | event e =>
    cases e with
    | start a => simp [move, apply]
    | step i =>
      simp only [move, apply]
      split
      · simp
      · exact Nat.le_refl _
    | elapse | build => exact Nat.le_refl _
  | openDepot | enlist | rearrange | reform | disturb => exact Nat.le_refl _

end Machine

/-! ## A reaper among others -/

namespace Reaper

open Shutdown (Coordinator)

@[simp] theorem threads_announce (s : Machine σ) (result : Attempt (Except StoreError Nat)) :
    (announce s result).threads = s.threads := by
  unfold announce
  split
  · split_ifs <;> rfl
  · rfl

theorem plan_step (c : Coordinator) (s : Machine σ) (r : Run) (choice : Choice) :
    (step c s r choice).2.2.plan = r.plan := by
  obtain ⟨plan, receiver, total, phase⟩ := r
  cases phase <;> cases choice <;> simp only [step] <;> split_ifs <;> rfl

/-- What a pass comes to by its reply. -/
def result : Reply → Attempt (Except StoreError Nat)
  | .passed result => result
  | _ => .panicked

/-- Where the reaper goes on after a pass. -/
def Phase.next (phase : Phase) : Phase := if phase = .stopping then .over else .checking

/-- A reaper at work, with the books of all that happened: the threads of the passes that it is done
with, and the thread of the pass that is under way. -/
structure Shift (σ : Type) where
  coordinator : Coordinator
  machine : Machine σ
  notes : List Note
  run : Run
  past : List Nat
  current : Option Nat

namespace Shift

inductive Act (σ : Type) where
  /-- The reaper has its turn. -/
  | turn (choice : Choice)
  | move (mv : Move σ)
  /-- Others request to stop, or look whether somebody did. -/
  | meddle (c : Coordinator)

def spawned (c : Coordinator) (s : Machine σ) (p : ReaperPlan) : Shift σ :=
  ⟨(begin c p).1, s, [], (begin c p).2, [], none⟩

def move (w : Shift σ) (mv : Move σ) : Shift σ :=
  { w with machine := w.machine.move mv, notes := w.notes ++ w.machine.notes mv }

/-- The reaper starts a pass. -/
def starts (w : Shift σ) : Shift σ :=
  { w.move (.event (.start (.expire w.run.plan.depot (w.run.plan.timeoutMs * nanosPerMilli)))) with
    current := some w.machine.threads.length }

/-- The reaper counts what a pass of its own replied, and goes on. -/
def counts (w : Shift σ) (i : Nat) (r : Reply) : Shift σ :=
  let counted := count (announce w.machine (result r)) (result r)
  { w with
    machine := counted.1
    run := { w.run with total := w.run.total + counted.2, phase := w.run.phase.next }
    past := w.past ++ [i]
    current := none }

def step (w : Shift σ) : Act σ → Shift σ
  | .move mv => w.move mv
  | .meddle c => { w with coordinator := c }
  | .turn choice =>
    match w.current with
    | some i =>
      match w.machine.reply? i with
      | some r => w.counts i r
      | none => w
    | none =>
      if (w.run.round? choice).isSome then w.starts
      else
        let next := Reaper.step w.coordinator w.machine w.run choice
        { w with coordinator := next.1, machine := next.2.1, run := next.2.2 }

def after (w : Shift σ) (acts : List (Act σ)) : Shift σ := acts.foldl step w

/-- Whatever is done is lawful, and nobody but handlers joins expiry in the depot of the reaper. -/
def Lawful : Shift σ → List (Act σ) → Prop
  | _, [] => True
  | w, a :: acts => (∀ mv, a = .move mv →
      mv.Lawful w.machine.hub ∧ ∀ hook, mv ≠ .enlist w.run.plan.depot hook)
    ∧ (w.step a).Lawful acts

/-! ## A pass at once -/

theorem after_moves (w : Shift σ) (moves : List (Move σ)) :
    w.after (moves.map .move) = { w with
      machine := w.machine.after moves
      notes := w.notes ++ w.machine.history moves } := by
  induction moves generalizing w with
  | nil => simp [after, Machine.after, Machine.history]
  | cons mv moves ih =>
    refine (ih (w.move mv)).trans ?_
    simp only [move, Machine.after, Machine.history, List.append_assoc]

theorem step_of_round (c : Coordinator) (s : Machine σ) {r : Run} {choice : Choice}
    (hr : (r.round? choice).isSome = true) : Reaper.step c s r choice
      = (c, (pass s r.plan).1,
        { r with total := r.total + (pass s r.plan).2, phase := r.phase.next }) := by
  obtain ⟨plan, receiver, total, phase⟩ := r
  cases phase <;> cases choice <;> simp_all [Run.round?, Reaper.step, Phase.next]

/-- What a pass that is carried out at once comes to, by the reply of its thread. -/
theorem pass_of_reply {s t : Machine σ} {p : ReaperPlan} {r : Reply}
    (ht : Machine.finish Machine.patience Machine.patience s.threads.length
      (s.apply (.start (.expire p.depot (p.timeoutMs * nanosPerMilli)))) = t)
    (hr : t.reply? s.threads.length = some r) :
    (pass s p).1.hub = (count (announce t (result r)) (result r)).1.hub
      ∧ (pass s p).2 = (count (announce t (result r)) (result r)).2 := by
  have hpass : pass s p = count (announce ⟨t.hub, t.threads.take s.threads.length⟩ (result r))
      (result r) := by
    simp only [pass, runOnce, Machine.expire, Machine.call, ht, hr]
    cases r <;> rfl
  rw [hpass]
  -- neither the record nor the count looks at the threads
  rcases result r with ((e | n) | _)
  · exact ⟨rfl, rfl⟩
  · by_cases hn : 0 < n <;> simp [announce, count, logged, hn]
  · exact ⟨rfl, rfl⟩

/-- If nobody else does anything from the start of a pass to its end, the reaper does what it does
by a step that carries the pass out at once. -/
theorem turns_of_step (w : Shift σ) (hc : w.current = none) {choice : Choice}
    (hr : (w.run.round? choice).isSome = true) :
    ∃ moves : List (Move σ), (∀ mv ∈ moves, mv.isAlone w.machine.threads.length = true)
      ∧ ∀ r, ((w.step (.turn choice)).after (moves.map .move)).machine.reply?
            w.machine.threads.length = some r →
        let v := ((w.step (.turn choice)).after (moves.map .move)).step (.turn choice)
        let next := Reaper.step w.coordinator w.machine w.run choice
        v.current = none ∧ v.coordinator = next.1 ∧ v.machine.hub = next.2.1.hub
          ∧ v.run = next.2.2 := by
  obtain ⟨moves, halone, hafter⟩ := Machine.exists_moves_finish Machine.patience Machine.patience
    (w.machine.apply (.start (.expire w.run.plan.depot
      (w.run.plan.timeoutMs * nanosPerMilli)))) w.machine.threads.length
  refine ⟨moves, halone, fun r hreply => ?_⟩
  have hturn : w.step (.turn choice) = w.starts := by simp [step, hc, hr]
  rw [hturn, after_moves] at hreply ⊢
  obtain ⟨hhub, htotal⟩ := pass_of_reply hafter hreply
  have hcounts : ∀ u : Shift σ, u.current = some w.machine.threads.length →
      u.machine.reply? w.machine.threads.length = some r →
      u.step (.turn choice) = u.counts w.machine.threads.length r := fun u hu hur => by
    simp only [step, hu, hur]
  rw [hcounts _ rfl hreply, step_of_round w.coordinator w.machine hr]
  exact ⟨rfl, rfl, hhub.symm, by rw [htotal]; rfl⟩

/-! ## The count -/

/-- What a shift keeps up: the reaper has counted what its passes that are over took out, and the
pass under way is going to reply with what it takes out. -/
structure Exact (d : DepotId) (w : Shift σ) : Prop where
  plan : w.run.plan.depot = d
  orderly : w.machine.Orderly
  vigilant : Vigilant w.machine.hub w.machine.frameAt w.notes
  hooks : NoHooks (w.machine.hub.depot d).participants
  known : ∀ p x, .did p x ∈ w.notes → p.thread < w.machine.threads.length
  past : ∀ i ∈ w.past, ∃ t, w.machine.threads[i]? = some t ∧ t.stack = []
  current : ∀ i ∈ w.current, i ∉ w.past ∧ w.run.phase ≠ .over
    ∧ ∃ t, w.machine.threads[i]? = some t ∧ t.Tallied d (ledger d w.notes) (reaped d [i] w.notes)
  total : w.run.total = reaped d w.past w.notes

/-- No code of the outside panicked, and no two additions to a depot were of one time. -/
structure Smooth (d : DepotId) (notes : List Note) : Prop where
  calm : ∀ p, .did p .panicked ∉ notes
  times : (ledger d notes).times.Pairwise (· < ·)

variable {d : DepotId} {w : Shift σ}

theorem Smooth.left {a b : List Note} (h : Smooth d (a ++ b)) : Smooth d a := by
  refine ⟨fun p hp => h.calm p (List.mem_append_left _ hp), ?_⟩
  have htimes := h.times
  rw [ledger_append, Ledger.times, List.filterMap_append] at htimes
  exact (List.pairwise_append.1 htimes).1

theorem Exact.spawned (outside : σ) (idOf : Nat → MessageId) (c : Coordinator) (p : ReaperPlan) :
    Exact p.depot (spawned c (.initial outside idOf) p) where
  plan := rfl
  orderly := Machine.orderly_initial outside idOf
  vigilant := .start outside idOf
  hooks id hid := by cases hid
  known p x hx := by cases hx
  past i hi := by cases hi
  current i hi := by cases hi
  total := rfl

theorem Exact.move (h : w.Exact d) {mv : Move σ} (hl : mv.Lawful w.machine.hub)
    (hd : ∀ hook, mv ≠ .enlist d hook) (hs : Smooth d (w.move mv).notes) : (w.move mv).Exact d where
  plan := h.plan
  orderly := Machine.orderly_move h.orderly hl
  vigilant := h.vigilant.advance h.orderly.hub h.orderly.frames
    (Machine.advance_move h.orderly hl).1
  hooks := Machine.noHooks_move h.orderly hl hd h.hooks
  known p x hx := by
    rcases List.mem_append.1 hx with hx | hx
    · exact Nat.lt_of_lt_of_le (h.known p x hx) (w.machine.length_le_move mv)
    · obtain ⟨-, t, ht, -⟩ := Machine.thread_of_did hx
      exact Nat.lt_of_lt_of_le (List.getElem?_eq_some_iff.1 ht).1 (w.machine.length_le_move mv)
  past i hi := by
    obtain ⟨t, ht, hstack⟩ := h.past i hi
    exact ⟨t, Machine.thread_still ht fun _ => hstack, hstack⟩
  current i hi := by
    obtain ⟨hpast, hphase, t, ht, htallied⟩ := h.current i hi
    exact ⟨hpast, hphase, Machine.tallied_move h.orderly h.vigilant h.hooks mv
      (fun p hp => hs.calm p (List.mem_append_right _ hp)) hs.times ht htallied⟩
  total := by
    have hzero : reaped d w.past (w.machine.notes mv) = 0 :=
      Machine.reaped_notes d fun j hj _ t ht => by
        obtain ⟨t', ht', hstack⟩ := h.past j hj
        cases ht.symm.trans ht'
        exact hstack
    show w.run.total = reaped d w.past (w.notes ++ w.machine.notes mv)
    rw [reaped_append, hzero, h.total, Nat.add_zero]

theorem Exact.starts (h : w.Exact d) (hphase : w.run.phase ≠ .over)
    (hs : Smooth d w.starts.notes) : w.starts.Exact d := by
  have hmoved : (w.move (.event (.start (.expire w.run.plan.depot
      (w.run.plan.timeoutMs * nanosPerMilli))))).Exact d := h.move trivial (fun hook => by simp) hs
  refine { hmoved with current := fun i hi => ?_ }
  cases hi
  refine ⟨fun hpast => ?_, hphase, _, List.getElem?_concat_length, ?_⟩
  · obtain ⟨t, ht, -⟩ := h.past _ hpast
    exact Nat.lt_irrefl _ (List.getElem?_eq_some_iff.1 ht).1
  · rw [h.plan]
    refine .passing (reaped_elsewhere d fun p x hx hp => ?_)
    obtain hx | hx := List.mem_append.1 hx
    · exact Nat.ne_of_lt (h.known p x hx) (List.mem_singleton.1 hp)
    · simp [Machine.notes] at hx

theorem Exact.logged (h : w.Exact d) (r : Log.Record) :
    { w with machine := logged w.machine r }.Exact d where
  plan := h.plan
  orderly := ⟨(Hub.Alike.log _ r).keeps.orderly h.orderly.hub,
    fun p f hf => (h.orderly.frames p f hf).grows (Hub.Alike.log _ r).keeps.grows⟩
  vigilant := by
    have haside : w.machine.hub.Aside (w.machine.hub.log r) :=
      Hub.aside_of_eq rfl rfl (Nat.le_refl _)
    have hv := h.vigilant.advance h.orderly.hub h.orderly.frames (.aside haside)
    rwa [List.append_nil] at hv
  hooks := h.hooks
  known := h.known
  past := h.past
  current := h.current
  total := h.total

theorem Exact.announces (h : w.Exact d) (result : Attempt (Except StoreError Nat)) :
    { w with machine := announce w.machine result }.Exact d := by
  unfold announce
  split
  · split_ifs
    · exact h.logged _
    · exact h
  · exact h

theorem Exact.counts (h : w.Exact d) {i : Nat} (hc : w.current = some i) {r : Reply}
    (hr : w.machine.reply? i = some r) : (w.counts i r).Exact d := by
  obtain ⟨hpast, hphase, t, ht, htallied⟩ := h.current i hc
  have hreply : t.reply = some r := by
    rw [Machine.reply?, ht] at hr
    exact hr
  cases htallied with
  | replied =>
    cases hreply
    have hannounced := h.announces (.returned (.ok (reaped d [i] w.notes)))
    refine ⟨h.plan, hannounced.orderly, hannounced.vigilant, hannounced.hooks, hannounced.known,
      fun j hj => ?_, fun j hj => (by cases hj), ?_⟩
    · rcases List.mem_append.1 hj with hj | hj
      · exact hannounced.past j hj
      · obtain rfl := List.mem_singleton.1 hj
        exact ⟨_, (congrArg (·[j]?) (threads_announce ..)).trans ht, rfl⟩
    · show w.run.total + reaped d [i] w.notes = reaped d (w.past ++ [i]) w.notes
      rw [reaped_snoc d hpast, h.total]
  | passing => cases hreply
  | offering => cases hreply

/-- What the reaper does without a pass touches nothing but itself. -/
theorem Exact.rests (h : w.Exact d) (hc : w.current = none) {choice : Choice}
    (hr : (w.run.round? choice).isSome = false) : (w.step (.turn choice)).Exact d := by
  obtain ⟨hmachine, htotal⟩ := step_of_round? w.coordinator w.machine w.run choice
  simp only [hr, Bool.false_eq_true, if_false, Nat.add_zero] at hmachine htotal
  simp only [step, hc, hr, Bool.false_eq_true, if_false, hmachine]
  exact ⟨(congrArg ReaperPlan.depot (plan_step ..)).trans h.plan, h.orderly, h.vigilant, h.hooks,
    h.known, h.past, fun i hi => (by cases hi), htotal.trans h.total⟩

theorem Exact.step (h : w.Exact d) {a : Act σ} (hl : ∀ mv, a = .move mv →
    mv.Lawful w.machine.hub ∧ ∀ hook, mv ≠ .enlist w.run.plan.depot hook)
    (hs : Smooth d (w.step a).notes) : (w.step a).Exact d := by
  cases a with
  | move mv =>
    obtain ⟨hl, hd⟩ := hl mv rfl
    exact h.move hl (h.plan ▸ hd) hs
  | meddle c =>
    exact ⟨h.plan, h.orderly, h.vigilant, h.hooks, h.known, h.past, h.current, h.total⟩
  | turn choice =>
    rcases hc : w.current with _ | i
    · rcases hr : (w.run.round? choice).isSome with _ | _
      · exact h.rests hc hr
      · simp only [Shift.step, hc, hr, if_true] at hs ⊢
        refine h.starts (fun hover => ?_) hs
        simp [Run.round?, hover] at hr
    · rcases hr : w.machine.reply? i with _ | r
      · simpa only [Shift.step, hc, hr] using h
      · simpa only [Shift.step, hc, hr] using h.counts hc hr

theorem notes_step (w : Shift σ) (a : Act σ) : ∃ new, (w.step a).notes = w.notes ++ new := by
  cases a with
  | move mv => exact ⟨_, rfl⟩
  | meddle c => exact ⟨[], (List.append_nil _).symm⟩
  | turn choice =>
    simp only [step]
    split
    · split
      · exact ⟨[], (List.append_nil _).symm⟩
      · exact ⟨[], (List.append_nil _).symm⟩
    · split_ifs
      · exact ⟨_, rfl⟩
      · exact ⟨[], (List.append_nil _).symm⟩

theorem notes_after (w : Shift σ) (acts : List (Act σ)) :
    ∃ new, (w.after acts).notes = w.notes ++ new := by
  induction acts generalizing w with
  | nil => exact ⟨[], (List.append_nil _).symm⟩
  | cons a acts ih =>
    obtain ⟨new, hnew⟩ := w.notes_step a
    obtain ⟨rest, hrest⟩ := ih (w.step a)
    exact ⟨new ++ rest, hrest.trans (by rw [hnew, List.append_assoc])⟩

theorem Exact.after (h : w.Exact d) (acts : List (Act σ)) (hl : w.Lawful acts)
    (hs : Smooth d (w.after acts).notes) : (w.after acts).Exact d := by
  induction acts generalizing w with
  | nil => exact h
  | cons a acts ih =>
    obtain ⟨new, hnew⟩ := (w.step a).notes_after acts
    have hnext : Smooth d (w.step a).notes := Smooth.left (hnew ▸ hs)
    exact ih (h.step hl.1 hnext) hl.2 hs

/-- Whatever happens around a reaper, if nothing panics and no two additions to its depot are of one
time, its total is the number of groups that its passes took out of the depot, and once it is over
none of its passes is under way. The removals among which these are counted are fair: each took the
group that was there, so that additions and removals make up what the depot holds. -/
theorem total_exact (outside : σ) (idOf : Nat → MessageId) (c : Coordinator) (p : ReaperPlan)
    (acts : List (Act σ)) (hl : (spawned c (.initial outside idOf) p).Lawful acts)
    (hs : Smooth p.depot ((spawned c (.initial outside idOf) p).after acts).notes) :
    let w := (spawned c (.initial outside idOf) p).after acts
    w.run.total = reaped p.depot w.past w.notes
      ∧ (w.run.phase = .over → w.current = none)
      ∧ (ledger p.depot w.notes).Fair
      ∧ ∀ key, (w.machine.hub.depot p.depot).shelf.group? key
          = (ledger p.depot w.notes).group? key := by
  intro w
  have h : w.Exact p.depot := (Exact.spawned outside idOf c p).after acts hl hs
  have hkept := h.vigilant.kept p.depot
  refine ⟨h.total, fun hover => ?_, hkept.fair, hkept.stored⟩
  rcases hc : w.current with _ | i
  · rfl
  · exact absurd hover (h.current i hc).2.1

/-! ## A reaper of a shared depot -/

/-- A turn, a look at the coordinator, or a move that everybody may make at any time. -/
def Act.isFree : Act σ → Bool
  | .move (.event (.build _)) => false
  | .move (.event _) => true
  | .move (.openDepot _) => true
  | .move _ => false
  | _ => true

theorem lawful_free (w : Shift σ) (acts : List (Act σ)) (h : acts.all Act.isFree = true) :
    w.Lawful acts := by
  induction acts generalizing w with
  | nil => trivial
  | cons a acts ih =>
    simp only [List.all_cons, Bool.and_eq_true] at h
    refine ⟨fun mv hmv => ?_, ih _ h.2⟩
    subst hmv
    rcases mv with (a | i | n | handler) | capacity | _ | _ | _ | _
    case event.build => exact absurd h.1 (by simp [Act.isFree])
    case event.start | event.step | event.elapse | openDepot => exact ⟨trivial, by simp⟩
    all_goals exact absurd h.1 (by simp [Act.isFree])

def does (i n : Nat) : List (Act σ) := List.replicate n (.move (.event (.step i)))

/-- Two handlers add to a group. A pass selects it, but a third message comes in before the pass has
the key. At the request to stop a last pass offers the group to both handlers. -/
def sharedActs : List (Act Unit) := List.flatten [
  [.move (.openDepot none), .move (.event (.build gathering)), .move (.event (.build finishing))],
  [.move (.event (.start (.handle 0 (plain "first"))))],
  does 0 6,
  [.move (.event (.elapse nanosPerMilli)), .move (.event (.start (.handle 1 (plain "second"))))],
  does 1 6,
  [.move (.event (.elapse nanosPerMilli)), .turn .tick, .turn .tick],
  does 2 2,
  [.move (.event (.start (.handle 1 (plain "third"))))],
  does 3 6,
  does 2 14,
  [.turn .tick, .move (.event (.elapse nanosPerMilli)), .meddle Coordinator.initial.trigger,
    .turn .signal, .turn .signal],
  does 4 19,
  [.turn .signal]]

/-- The reaper of the shared depot, which takes out what was idle for a millisecond. -/
def sharedShift : Shift Unit := spawned .initial (.initial () fun _ => ⟨""⟩) ⟨0, 1, 1000, true⟩

theorem lawful_sharedActs : sharedShift.Lawful sharedActs := by
  have hfree : ∀ w : Shift Unit, w.Lawful (sharedActs.drop 3) := fun w =>
    lawful_free w _ (by decide +kernel)
  refine ⟨?_, ?_, ?_, hfree _⟩ <;> rintro mv ⟨⟩
  · exact ⟨trivial, by simp⟩
  · exact ⟨⟨discreet_gathering _, Nat.zero_lt_one⟩, by simp⟩
  · exact ⟨⟨discreet_gathering _, Nat.zero_lt_one⟩, by simp⟩

theorem smooth_sharedActs : Smooth 0 (sharedShift.after sharedActs).notes where
  calm p hp := by
    have hnone : (sharedShift.after sharedActs).notes.any Note.isPanic = false := by decide +kernel
    exact absurd rfl (List.any_eq_false.1 hnone _ hp)
  times := by decide +kernel

/-- The first pass counts nothing; the last one counts the group once, though both were asked. -/
theorem shared_counted_once :
    sharedShift.Lawful sharedActs ∧ Smooth 0 (sharedShift.after sharedActs).notes
      ∧ (sharedShift.after sharedActs).run.phase = .over
      ∧ (sharedShift.after sharedActs).past = [2, 4]
      ∧ reaped 0 [2, 4] (sharedShift.after sharedActs).notes = 1
      ∧ (sharedShift.after sharedActs).run.total = 1 := by
  have hpast : (sharedShift.after sharedActs).past = [2, 4] := by decide +kernel
  have hreaped : reaped 0 [2, 4] (sharedShift.after sharedActs).notes = 1 := by decide +kernel
  have htotal := (total_exact () (fun _ => ⟨""⟩) .initial ⟨0, 1, 1000, true⟩ sharedActs
    lawful_sharedActs smooth_sharedActs).1
  have hshift : sharedShift = spawned .initial (.initial () fun _ => ⟨""⟩) ⟨0, 1, 1000, true⟩ := rfl
  rw [← hshift, hpast, hreaped] at htotal
  exact ⟨lawful_sharedActs, smooth_sharedActs, by decide +kernel, hpast, hreaped, htotal⟩

end Shift

end Reaper

end Collate
