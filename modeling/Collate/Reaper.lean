import Collate.Shutdown
import Collate.Work.Machine

/-!
# The reaper

The reaper passes over a depot at every tick of an interval and stops when a shutdown is requested,
after one last pass if it is to make one. It counts the groups that its passes expired; a pass that
fails or panics counts none and is reported.
-/

namespace Collate

structure ReaperPlan where
  depot : DepotId
  timeoutMs : Nat
  intervalMs : Nat
  expireOnStop : Bool
  deriving DecidableEq, Inhabited

namespace Reaper

variable {σ : Type}

def defaultIntervalMs : Nat := 1000

/-- The pause between ticks; a clock cannot tick without one. -/
def periodMs (p : ReaperPlan) : Nat := max p.intervalMs 1

def logged (s : Machine σ) (r : Log.Record) : Machine σ := { s with hub := s.hub.log r }

/-- Writes down how many groups a pass expired, if any. -/
def announce (s : Machine σ) (result : Attempt (Except StoreError Nat)) : Machine σ :=
  match result with
  | .returned (.ok n) =>
    if 0 < n then logged s ⟨.info, .reaper, s!"Reaper expired {n} message group(s)"⟩ else s
  | _ => s

/-- A single pass, whose result is the caller's to deal with. -/
def runOnce (s : Machine σ) (p : ReaperPlan) : Machine σ × Attempt (Except StoreError Nat) :=
  let (s, result) := s.expire p.depot (p.timeoutMs * nanosPerMilli)
  (announce s result, result)

/-- How many groups a pass counts for; one that failed counts for none and is reported. -/
def count (s : Machine σ) (result : Attempt (Except StoreError Nat)) : Machine σ × Nat :=
  match result with
  | .returned (.ok n) => (s, n)
  | .returned (.error e) =>
    (logged s ⟨.error, .reaper, s!"Message group expiry failed: {e.message}"⟩, 0)
  | .panicked => (logged s ⟨.error, .reaper, "Message group expiry task failed: panicked"⟩, 0)

/-- A pass, and how many groups it expired. -/
def pass (s : Machine σ) (p : ReaperPlan) : Machine σ × Nat :=
  let (s, result) := runOnce s p
  count s result

inductive Phase where
  | checking
  | waiting
  | stopping
  | over
  deriving DecidableEq, Inhabited

structure Run where
  plan : ReaperPlan
  receiver : Nat
  total : Nat
  phase : Phase

/-- What a waiting reaper goes on with. -/
inductive Choice where
  | signal
  | tick
  deriving DecidableEq

open Shutdown (Coordinator)

def begin (c : Coordinator) (p : ReaperPlan) : Coordinator × Run :=
  let (c, receiver) := c.subscribe
  (c, ⟨p, receiver, 0, .checking⟩)

/-- One step: the reaper looks at the flag, then waits for a signal or a tick. -/
def step (c : Coordinator) (s : Machine σ) (r : Run) (choice : Choice) :
    Coordinator × Machine σ × Run :=
  match r.phase with
  | .checking => (c, s, { r with phase := if c.requested then .stopping else .waiting })
  | .waiting =>
    match choice with
    | .signal =>
      if c.isPending r.receiver then
        ((c.receive r.receiver).1, s, { r with phase := .stopping })
      else (c, s, r)
    | .tick =>
      let (s, n) := pass s r.plan
      (c, s, { r with total := r.total + n, phase := .checking })
  | .stopping =>
    if r.plan.expireOnStop then
      let (s, n) := pass s r.plan
      (c, s, { r with total := r.total + n, phase := .over })
    else (c, s, { r with phase := .over })
  | .over => (c, s, r)

/-- A tick of the clock, met by a reaper that looked at the flag before. -/
def tick (c : Coordinator) (s : Machine σ) (r : Run) : Coordinator × Machine σ × Run :=
  let (c, s, r) := step c s r .tick
  if r.phase = .waiting then step c s r .tick else (c, s, r)

/-- Ticks go by until the depot is empty, at most `fuel` of them. -/
def tickUntilEmpty : Nat → Coordinator → Machine σ → Run → Coordinator × Machine σ × Run
  | 0, c, s, r => (c, s, r)
  | fuel + 1, c, s, r =>
    if (s.hub.depot r.plan.depot).store.groupCount = 0 then (c, s, r)
    else
      let s := { s with hub := s.hub.elapse (periodMs r.plan * nanosPerMilli) }
      let (c, s, r) := tick c s r
      tickUntilEmpty fuel c s r

/-- Requests the shutdown and waits for the reaper. -/
def stop (c : Coordinator) (s : Machine σ) (r : Run) : Coordinator × Machine σ × Run :=
  let c := c.trigger
  let (c, s, r) := step c s r .signal
  let (c, s, r) := step c s r .signal
  step c s r .signal

end Reaper

end Collate
