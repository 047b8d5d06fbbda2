import Collate.Work.Thread

/-!
# Machines

A hub and the threads that work on it. Whatever happens is a list of events: an activity starts, a
thread does one step, time goes by, a handler is built. Threads may take turns in any way, so the
interleavings of a set of activities are the lists of events that start them. Carrying an activity
out at once (`Machine.call`) is one such list: its thread does all the steps, and where it waits for
a key, time goes by up to its deadline.
-/

namespace Collate

structure Machine (σ : Type) where
  hub : Hub σ
  threads : List (Thread σ)

inductive Event (σ : Type) where
  | start (a : Activity)
  | step (i : Nat)
  | elapse (nanos : Nat)
  | build (handler : Handler σ)

namespace Machine

variable {σ : Type}

def initial (outside : σ) (idOf : Nat → MessageId) : Machine σ := ⟨.initial outside idOf, []⟩

/-- What thread `i` can do now. -/
def progress (s : Machine σ) (i : Nat) : Progress σ :=
  match s.threads[i]? with
  | none => .over
  | some t => t.step s.hub

def apply (s : Machine σ) : Event σ → Machine σ
  | .start a => { s with threads := s.threads ++ [.start a] }
  | .step i =>
    match s.progress i with
    | .ran hub t => ⟨hub, s.threads.set i t⟩
    | _ => s
  | .elapse nanos => { s with hub := s.hub.elapse nanos }
  | .build handler => { s with hub := (s.hub.build handler).1 }

def run (s : Machine σ) (events : List (Event σ)) : Machine σ := events.foldl apply s

/-- A moment passes and thread `i` does a step. -/
def advance (s : Machine σ) (i : Nat) : Machine σ := (s.apply (.elapse 1)).apply (.step i)

/-- Thread `i` works alone until it is blocked or over, or has done `fuel` steps. -/
def work : Nat → Nat → Machine σ → Machine σ
  | 0, _, s => s
  | fuel + 1, i, s =>
    match s.progress i with
    | .ran .. => work fuel i (s.advance i)
    | _ => s

/-- Thread `i` works alone, and time goes by while it waits for a key. -/
def finish : Nat → Nat → Nat → Machine σ → Machine σ
  | 0, _, _, s => s
  | waits + 1, fuel, i, s =>
    let s := s.work fuel i
    match s.progress i with
    | .blocked (some deadline) =>
      finish waits fuel i (s.apply (.elapse (deadline - s.hub.clock)))
    | _ => s

def reply? (s : Machine σ) (i : Nat) : Option Reply := (s.threads[i]?).bind Thread.reply

/-- More steps and waits than any activity is expected to take. -/
def patience : Nat := 10000000

/-- Carries an activity out at once. There is no reply if it waits for ever. -/
def call (s : Machine σ) (a : Activity) : Machine σ × Option Reply :=
  let i := s.threads.length
  let t := finish patience patience i (s.apply (.start a))
  ({ t with threads := t.threads.take i }, t.reply? i)

/-- Handles a message at once. -/
def handle (s : Machine σ) (h : HandlerId) (m : Message) :
    Machine σ × Attempt (Except HandlerError Handled) :=
  match s.call (.handle h m) with
  | (s, some (.handled r)) => (s, r)
  | (s, _) => (s, .panicked)

/-- Expires the groups of a depot that are idle for `timeout` nanoseconds. -/
def expire (s : Machine σ) (d : DepotId) (timeout : Nat) :
    Machine σ × Attempt (Except StoreError Nat) :=
  match s.call (.expire d timeout) with
  | (s, some (.passed r)) => (s, r)
  | (s, _) => (s, .panicked)

/-- Carries out a script of the outside that no activity is waiting for. -/
def perform {α : Type} (s : Machine σ) : Script σ α → Machine σ × Attempt α
  | .done a => (s, .returned a)
  | .panic => (s, .panicked)
  | .act change next =>
    perform { s with hub := { s.hub with outside := change s.hub.outside } } (next s.hub.outside)
  | .log r next => perform { s with hub := s.hub.log r } next
  | .fresh next => perform { s with hub := s.hub.draw.1 } (next s.hub.draw.2)
  | .handle h m next =>
    match s.handle h m with
    | (s, .returned r) => perform s (next r)
    | (s, .panicked) => (s, .panicked)
  | .expire d timeout next =>
    match s.expire d timeout with
    | (s, .returned r) => perform s (next r)
    | (s, .panicked) => (s, .panicked)
  | .add d key m next =>
    match (s.hub.depot d).add key m s.hub.clock with
    | .ok (depot, g) => perform { s with hub := s.hub.setDepot d depot } (next (.ok g))
    | .error e => perform s (next (.error e))
  | .remove d key next =>
    match (s.hub.depot d).remove key with
    | .ok (depot, g) => perform { s with hub := s.hub.setDepot d depot } (next (.ok g))
    | .error e => perform s (next (.error e))

end Machine

end Collate
