import Collate.Intake
import Mathlib.Tactic.SplitIfs

/-!
# Journals are only written

No step reads the journal, so what was logged before changes nothing but the front of the journal:
to put records there commutes with a step of a frame (`Frame.step_preceded`), and so with all that
threads and runs are made of, up to the message of a line of input (`Intake.feed_preceded`).
-/

namespace Collate

variable {σ : Type}

/-- The hub where more had been logged before. -/
def Hub.preceded (hub : Hub σ) (journal : Log.Journal) : Hub σ :=
  { hub with journal := journal ++ hub.journal }

/-! ## Steps -/

def ScriptTurn.preceded {α : Type} (journal : Log.Journal) : ScriptTurn σ α → ScriptTurn σ α
  | .goes hub s => .goes (hub.preceded journal) s
  | turn => turn

def Turn.preceded (journal : Log.Journal) : Turn σ → Turn σ
  | .goes hub f => .goes (hub.preceded journal) f
  | .calls hub f inner => .calls (hub.preceded journal) f inner
  | .ends hub r => .ends (hub.preceded journal) r
  | .waits deadline => .waits deadline

def Progress.preceded (journal : Log.Journal) : Progress σ → Progress σ
  | .ran hub t => .ran (hub.preceded journal) t
  | progress => progress

section Steps

variable (hub : Hub σ) (journal : Log.Journal)

namespace Hub

@[simp] theorem depot_preceded (d : DepotId) : (hub.preceded journal).depot d = hub.depot d := rfl

@[simp] theorem member?_preceded (h : HandlerId) :
    (hub.preceded journal).member? h = hub.member? h := rfl

@[simp] theorem members_preceded : (hub.preceded journal).members = hub.members := rfl

@[simp] theorem clock_preceded : (hub.preceded journal).clock = hub.clock := rfl

@[simp] theorem arrange_preceded : (hub.preceded journal).arrange = hub.arrange := rfl

@[simp] theorem isLive_preceded (h : HandlerId) :
    (hub.preceded journal).isLive h = hub.isLive h := rfl

@[simp] theorem refer_preceded (h : HandlerId) :
    (hub.preceded journal).refer h = (hub.refer h).preceded journal := rfl

@[simp] theorem unrefer_preceded (h : HandlerId) :
    (hub.preceded journal).unrefer h = (hub.unrefer h).preceded journal := rfl

@[simp] theorem log_preceded (r : Log.Record) :
    (hub.preceded journal).log r = (hub.log r).preceded journal := by
  simp [log, preceded]

@[simp] theorem disown_preceded (h : HandlerId) :
    (hub.preceded journal).disown h = (hub.disown h).preceded journal := by
  unfold disown
  rw [member?_preceded]
  split <;> rfl

theorem register_preceded (d : DepotId) (p : Participant) :
    (hub.preceded journal).register d p = (hub.register d p).map (·.preceded journal) := by
  unfold register
  rw [depot_preceded]
  cases (hub.depot d).register p <;> rfl

theorem build_preceded (handler : Handler σ) :
    ((hub.preceded journal).build handler).1 = (hub.build handler).1.preceded journal := by
  let joined : Hub σ := { hub with members := hub.members ++ [⟨handler, 1⟩] }
  have hjoined : ({ hub.preceded journal with
      members := (hub.preceded journal).members ++ [⟨handler, 1⟩] } : Hub σ)
        = joined.preceded journal := rfl
  unfold build
  dsimp only
  rw [hjoined, register_preceded, members_preceded]
  cases joined.register handler.depot (.handler hub.members.length) <;> rfl

end Hub

theorem Script.step_preceded {α : Type} (s : Script σ α) :
    s.step (hub.preceded journal) = (s.step hub).preceded journal := by
  cases s with
  | log r next => exact congrArg (ScriptTurn.goes · next) (hub.log_preceded journal r)
  | add d key m next =>
    simp only [step, Hub.depot_preceded, Hub.clock_preceded]
    split <;> rfl
  | remove d key next =>
    simp only [step, Hub.depot_preceded]
    split <;> rfl
  | _ => rfl

theorem Handling.step_preceded (h : HandlerId) (p : Handling σ) :
    p.step (hub.preceded journal) h = (p.step hub h).preceded journal := by
  unfold step
  rw [Hub.member?_preceded]
  rcases hub.member? h with _ | member
  · rfl
  cases p with
  | arriving m =>
    simp only [arrive, Hub.refer_preceded]
    split <;> rfl
  | locking key m deadline =>
    simp only [lock]
    rw [Hub.depot_preceded, Hub.clock_preceded]
    split
    · rfl
    · split_ifs <;> rfl
  | adding key m =>
    simp only [add, Hub.depot_preceded, Hub.clock_preceded]
    split <;> rfl
  | deciding key g =>
    simp only [decide]
    split <;> rfl
  | processing key g work =>
    simp only [process, work.step_preceded]
    cases work.step hub <;> rfl
  | removing key g result =>
    simp only [remove, Hub.depot_preceded]
    split <;> rfl
  | leaving result =>
    simp only [leave]
    rw [Hub.unrefer_preceded, Hub.isLive_preceded]
    split_ifs <;> rfl
  | disowning result => exact congrArg (Turn.ends · _) (hub.disown_preceded journal h)
  | reviewing | releasing => rfl

theorem Offer.step_preceded (h : HandlerId) (stale : Group) (p : Offer σ) :
    p.step (hub.preceded journal) h stale = (p.step hub h stale).preceded journal := by
  unfold step
  rw [Hub.member?_preceded]
  rcases hub.member? h with _ | member
  · rfl
  cases p with
  | meeting =>
    simp only [meet]
    rw [Hub.isLive_preceded]
    split_ifs <;> rfl
  | seizing =>
    simp only [seize, Hub.depot_preceded]
    split <;> rfl
  | rereading =>
    simp only [reread, act, Hub.depot_preceded, Hub.clock_preceded, Hub.log_preceded]
    split
    · rfl
    · split_ifs
      · rfl
      · rfl
      · split
        · rfl
        · split <;> rfl
  | discarding g left =>
    cases left with
    | nil => rfl
    | cons m left =>
      simp only [discardNext]
      split <;> rfl
  | sending g m left work =>
    simp only [send, work.step_preceded]
    rcases work.step hub with _ | _ | result | _
    · rfl
    · rfl
    · rcases result with e | _
      · exact congrArg (Turn.goes · _) (hub.log_preceded journal _)
      · rfl
    · rfl
  | completing g work =>
    simp only [complete, work.step_preceded]
    rcases work.step hub with _ | _ | result | _
    · rfl
    · rfl
    · rcases result with e | _
      · exact congrArg (Turn.goes · _) (hub.log_preceded journal _)
      · rfl
    · rfl
  | removing g =>
    simp only [remove, Hub.depot_preceded, Hub.log_preceded]
    split <;> rfl
  | leaving outcome =>
    simp only [leave]
    rw [Hub.unrefer_preceded, Hub.isLive_preceded]
    split_ifs <;> rfl
  | disowning outcome => exact congrArg (Turn.ends · _) (hub.disown_preceded journal h)
  | releasing => rfl

theorem Pass.step_preceded (d : DepotId) (timeout : Nat) (p : Pass σ) :
    p.step (hub.preceded journal) d timeout = (p.step hub d timeout).preceded journal := by
  cases p with
  | selecting =>
    simp only [step, select, Hub.depot_preceded, Hub.clock_preceded, Hub.arrange_preceded]
    split
    · rfl
    · split <;> rfl
  | next t =>
    simp only [step, takeNext]
    split <;> rfl
  | offering t g left said =>
    rcases left with _ | ⟨who, left⟩
    · simp only [step, offer]
      split_ifs <;> rfl
    · cases who <;> rfl
  | hooked t g who left said work =>
    simp only [step, runHook, work.step_preceded]
    cases work.step hub <;> rfl
  | claiming t g =>
    simp only [step, claim, Hub.depot_preceded]
    split <;> rfl
  | consulting | waiting | comparing | freeing | pruning | failing => rfl

theorem Drop.step_preceded (h : HandlerId) (p : Drop) :
    p.step (hub.preceded journal) h = (p.step hub h).preceded journal := by
  cases p with
  | letting =>
    simp only [step]
    rw [Hub.unrefer_preceded, Hub.isLive_preceded]
    split_ifs <;> rfl
  | disowning => exact congrArg (Turn.ends · _) (hub.disown_preceded journal h)

theorem Frame.step_preceded (f : Frame σ) :
    f.step (hub.preceded journal) = (f.step hub).preceded journal := by
  cases f with
  | handling h p => exact p.step_preceded hub journal h
  | offer h stale p => exact p.step_preceded hub journal h stale
  | pass d timeout p => exact p.step_preceded hub journal d timeout
  | drop h p => exact p.step_preceded hub journal h

theorem Thread.step_preceded (t : Thread σ) :
    t.step (hub.preceded journal) = (t.step hub).preceded journal := by
  obtain ⟨_ | ⟨f, below⟩, reply⟩ := t
  · rfl
  simp only [step, f.step_preceded]
  rcases f.step hub with _ | _ | _ | _
  · rfl
  · rfl
  · cases below <;> rfl
  · rfl

end Steps

/-! ## Calls -/

namespace Machine

def preceded (s : Machine σ) (journal : Log.Journal) : Machine σ :=
  { s with hub := s.hub.preceded journal }

variable (s : Machine σ) (journal : Log.Journal)

theorem threads_preceded : (s.preceded journal).threads = s.threads := rfl

theorem progress_preceded (i : Nat) :
    (s.preceded journal).progress i = (s.progress i).preceded journal := by
  simp only [progress, threads_preceded]
  rcases s.threads[i]? with _ | t
  · rfl
  · exact t.step_preceded s.hub journal

theorem apply_preceded (e : Event σ) :
    (s.preceded journal).apply e = (s.apply e).preceded journal := by
  cases e with
  | start | elapse => rfl
  | step i =>
    simp only [apply, progress_preceded]
    cases s.progress i <;> rfl
  | build handler =>
    exact congrArg (fun hub : Hub σ => (⟨hub, s.threads⟩ : Machine σ))
      (s.hub.build_preceded journal handler)

theorem advance_preceded (i : Nat) :
    (s.preceded journal).advance i = (s.advance i).preceded journal := by
  rw [advance, apply_preceded, apply_preceded]
  rfl

theorem work_preceded (fuel i : Nat) :
    (s.preceded journal).work fuel i = (s.work fuel i).preceded journal := by
  induction fuel generalizing s with
  | zero => rfl
  | succ fuel ih =>
    simp only [work, progress_preceded, advance_preceded]
    cases s.progress i with
    | ran => exact ih _
    | _ => rfl

theorem finish_preceded (waits fuel i : Nat) :
    (s.preceded journal).finish waits fuel i = (s.finish waits fuel i).preceded journal := by
  induction waits generalizing s with
  | zero => rfl
  | succ waits ih =>
    simp only [finish, work_preceded, progress_preceded]
    rcases (s.work fuel i).progress i with _ | (_ | deadline) | _
    · rfl
    · rfl
    · exact ih ((s.work fuel i).apply (.elapse (deadline - (s.work fuel i).hub.clock)))
    · rfl

theorem call_preceded (a : Activity) :
    (s.preceded journal).call a = ((s.call a).1.preceded journal, (s.call a).2) := by
  have hfinish : finish patience patience s.threads.length ((s.preceded journal).apply (.start a))
      = (finish patience patience s.threads.length (s.apply (.start a))).preceded journal := by
    rw [apply_preceded, finish_preceded]
  simp only [call, threads_preceded, hfinish]
  generalize finish patience patience s.threads.length (s.apply (.start a)) = t
  rfl

theorem handle_preceded (h : HandlerId) (m : Message) :
    (s.preceded journal).handle h m = ((s.handle h m).1.preceded journal, (s.handle h m).2) := by
  unfold handle
  rw [call_preceded]
  rcases s.call (.handle h m) with ⟨s', _ | reply⟩
  · rfl
  · cases reply <;> rfl

end Machine

/-! ## Lines of input -/

namespace Intake

variable (s : Machine σ) (journal : Log.Journal)

theorem note_preceded (records : Log.Journal) :
    note (s.preceded journal) records = (note s records).preceded journal := by
  simp [note, Machine.preceded, Hub.preceded]

theorem submit_preceded (h : HandlerId) (r : Record) :
    submit (s.preceded journal) h r
      = ((submit s h r).1.preceded journal, (submit s h r).2) := by
  simp only [submit, note_preceded]
  generalize note s r.warnings = s'
  exact Machine.handle_preceded { s' with hub := s'.hub.draw.1 } journal h
    (r.draft.finish s'.hub.draw.2)

theorem feed_preceded (h : HandlerId) (line : List Char) :
    feed (s.preceded journal) h line
      = ((feed s h line).1.preceded journal, (feed s h line).2) := by
  unfold feed
  split_ifs
  · rfl
  · rcases Record.parse (String.ofList line) with f | r
    · rfl
    · simp only [submit_preceded]

end Intake

end Collate
