import Collate.Work.Call

/-!
# Handling a message

The key is asked for, waited for and taken; the message is added; and if the group is complete then,
it is processed and removed, whatever the processor says. The lock entry goes with the group: it is
retired when the group was removed, and after a failed addition when there is no group to guard.
-/

namespace Collate.Handling

variable {σ : Type}

/-- The result of a message that completed its group. -/
def completed (key : Key) (size : Nat) : Except ProcessingError Unit → Except HandlerError Handled
  | .ok () => .ok (.released key size)
  | .error source => .error (.groupProcessing key source)

/-- What waiting in vain is called. -/
def timedOut (h : Handler σ) (key : Key) : HandlerError :=
  .lockTimeout key (h.settings.lockTimeoutMs.getD 0)

def arrive (hub : Hub σ) (handler : Handler σ) (h : HandlerId) (m : Message) : Turn σ :=
  let hub := hub.refer h
  match handler.correlation m with
  | .panicked => .goes hub (.handling h (.leaving .panicked))
  | .returned none => .goes hub (.handling h (.leaving (.returned (.error (.correlation m.id)))))
  | .returned (some key) =>
    .goes hub (.handling h (.locking key m (handler.deadline hub.clock)))

/-- Takes the key if it is free, gives up after the deadline, and waits otherwise. -/
def lock (hub : Hub σ) (handler : Handler σ) (h : HandlerId) (key : Key) (m : Message)
    (deadline : Option Instant) : Turn σ :=
  let depot := hub.depot handler.depot
  match depot.locks.acquire? key (some h) with
  | some locks =>
    .goes (hub.setDepot handler.depot { depot with locks := locks }) (.handling h (.adding key m))
  | none =>
    if deadline.any (· ≤ hub.clock) then
      .goes hub (.handling h (.leaving (.returned (.error (timedOut handler key)))))
    else .waits deadline

def add (hub : Hub σ) (handler : Handler σ) (h : HandlerId) (key : Key) (m : Message) : Turn σ :=
  match (hub.depot handler.depot).add key m hub.clock with
  | .ok (depot, g) => .goes (hub.setDepot handler.depot depot) (.handling h (.deciding key g))
  | .error e => .goes hub (.handling h (.reviewing key e))

def review (hub : Hub σ) (handler : Handler σ) (h : HandlerId) (key : Key) (e : StoreError) :
    Turn σ :=
  let unguarded :=
    match (hub.depot handler.depot).get key hub.clock with
    | .ok g => g.isEmpty
    | .error _ => true
  .goes hub (.handling h (.releasing key unguarded (.returned (.error (.store e)))))

def decide (hub : Hub σ) (handler : Handler σ) (h : HandlerId) (key : Key) (g : Group) : Turn σ :=
  match handler.release g with
  | .panicked => .goes hub (.handling h (.releasing key false .panicked))
  | .returned false =>
    .goes hub (.handling h (.releasing key false (.returned (.ok (.pending key g.size)))))
  | .returned true => .goes hub (.handling h (.processing key g (handler.process g)))

def process (hub : Hub σ) (h : HandlerId) (key : Key) (g : Group)
    (work : Script σ (Except ProcessingError Unit)) : Turn σ :=
  match work.step hub with
  | .goes hub work => .goes hub (.handling h (.processing key g work))
  | .calls inner => .calls hub (.handling h (.processing key g work)) inner
  | .gives result => .goes hub (.handling h (.removing key g result))
  | .panics => .goes hub (.handling h (.releasing key false .panicked))

def remove (hub : Hub σ) (handler : Handler σ) (h : HandlerId) (key : Key) (g : Group)
    (result : Except ProcessingError Unit) : Turn σ :=
  match (hub.depot handler.depot).remove key with
  | .ok (depot, _) => .goes (hub.setDepot handler.depot depot)
      (.handling h (.releasing key true (.returned (completed key g.size result))))
  | .error e => .goes hub (.handling h (.releasing key true (.returned (.error (.store e)))))

/-- Drops the guard. -/
def release (hub : Hub σ) (handler : Handler σ) (h : HandlerId) (key : Key) (retire : Bool)
    (result : Attempt (Except HandlerError Handled)) : Turn σ :=
  .goes (hub.setDepot handler.depot ((hub.depot handler.depot).release key retire))
    (.handling h (.leaving result))

/-- Drops the reference; the last one takes the handler along. -/
def leave (hub : Hub σ) (h : HandlerId) (result : Attempt (Except HandlerError Handled)) : Turn σ :=
  let hub := hub.unrefer h
  if hub.isLive h then .ends hub (.handled result) else .goes hub (.handling h (.disowning result))

def step (hub : Hub σ) (h : HandlerId) (p : Handling σ) : Turn σ :=
  match hub.member? h with
  | none => .ends hub (.handled .panicked)
  | some member =>
    let handler := member.handler
    match p with
    | .arriving m => arrive hub handler h m
    | .locking key m deadline => lock hub handler h key m deadline
    | .adding key m => add hub handler h key m
    | .reviewing key e => review hub handler h key e
    | .deciding key g => decide hub handler h key g
    | .processing key g work => process hub h key g work
    | .removing key g result => remove hub handler h key g result
    | .releasing key retire result => release hub handler h key retire result
    | .leaving result => leave hub h result
    | .disowning result => .ends (hub.disown h) (.handled result)

/-- The handling behind a call, once the reply is there. -/
def resume (r : Reply) : Handling σ → Handling σ
  | .processing key g work => .processing key g (work.resume r)
  | p => p

end Collate.Handling
