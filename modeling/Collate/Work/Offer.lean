import Collate.Work.Call

/-!
# Offering a stale group

A handler that is still there takes the key of a group of its own, reads the group again, and leaves
it alone if it went or changed since it was selected. Otherwise it discards or completes the group
and removes it; no failure on the way keeps the group or its lock entry.
-/

namespace Collate.Offer

variable {σ : Type}

def meet (hub : Hub σ) (h : HandlerId) (stale : Group) : Turn σ :=
  if hub.isLive h then .goes (hub.refer h) (.offer h stale .seizing)
  else .ends hub (.offered (.returned .detached))

def seize (hub : Hub σ) (handler : Handler σ) (h : HandlerId) (stale : Group) : Turn σ :=
  let depot := hub.depot handler.depot
  match depot.locks.tryAcquireOwned? stale.key h with
  | some locks =>
    .goes (hub.setDepot handler.depot { depot with locks := locks }) (.offer h stale .rereading)
  | none => .goes hub (.offer h stale (.leaving (.returned .skipped)))

/-- Acts on a group that is what was selected. -/
def act (hub : Hub σ) (handler : Handler σ) (h : HandlerId) (stale g : Group) : Turn σ :=
  match handler.settings.expiryAction with
  | .forceComplete => .goes hub (.offer h stale (.completing g (handler.process g)))
  | .discard =>
    match handler.discard with
    | some _ => .goes hub (.offer h stale (.discarding g g.messages))
    | none =>
      .goes (hub.log ⟨.info, .handler,
          s!"Dropping {g.size} message(s) of expired group '{g.key}'"⟩)
        (.offer h stale (.removing g))

def reread (hub : Hub σ) (handler : Handler σ) (h : HandlerId) (stale : Group) : Turn σ :=
  match (hub.depot handler.depot).get stale.key hub.clock with
  | .error e =>
    .goes (hub.log ⟨.warn, .handler,
        s!"Could not re-read expiring group '{stale.key}': {e.message}"⟩)
      (.offer h stale (.releasing false (.returned .skipped)))
  | .ok g =>
    if g.isEmpty then .goes hub (.offer h stale (.releasing true (.returned .skipped)))
    else if g.lastModified ≠ stale.lastModified then
      .goes hub (.offer h stale (.releasing false (.returned .skipped)))
    else act hub handler h stale g

def discardNext (hub : Hub σ) (handler : Handler σ) (h : HandlerId) (stale g : Group) :
    List Message → Turn σ
  | [] => .goes hub (.offer h stale (.removing g))
  | m :: left =>
    match handler.discard with
    | none => .goes hub (.offer h stale (.removing g))
    | some channel => .goes hub (.offer h stale (.sending g m left (channel.send m)))

/-- The warning about a message that could not be discarded. -/
def undiscarded (g : Group) (m : Message) (e : ChannelError) : Log.Record :=
  ⟨.warn, .handler, s!"Failed to discard message {m.id.text} of group '{g.key}': " ++
    (Failure.channel e).chain⟩

def send (hub : Hub σ) (h : HandlerId) (stale g : Group) (m : Message) (left : List Message)
    (work : Script σ (Except ChannelError Unit)) : Turn σ :=
  match work.step hub with
  | .goes hub work => .goes hub (.offer h stale (.sending g m left work))
  | .calls inner => .calls hub (.offer h stale (.sending g m left work)) inner
  | .gives (.ok ()) => .goes hub (.offer h stale (.discarding g left))
  | .gives (.error e) => .goes (hub.log (undiscarded g m e)) (.offer h stale (.discarding g left))
  | .panics => .goes hub (.offer h stale (.releasing false .panicked))

/-- The record of a completion that failed. -/
def uncompleted (g : Group) (e : ProcessingError) : Log.Record :=
  ⟨.error, .handler, s!"Forced completion of group '{g.key}' failed: " ++
    (Failure.processing e).chain⟩

def complete (hub : Hub σ) (h : HandlerId) (stale g : Group)
    (work : Script σ (Except ProcessingError Unit)) : Turn σ :=
  match work.step hub with
  | .goes hub work => .goes hub (.offer h stale (.completing g work))
  | .calls inner => .calls hub (.offer h stale (.completing g work)) inner
  | .gives (.ok ()) => .goes hub (.offer h stale (.removing g))
  | .gives (.error e) => .goes (hub.log (uncompleted g e)) (.offer h stale (.removing g))
  | .panics => .goes hub (.offer h stale (.releasing false .panicked))

def remove (hub : Hub σ) (handler : Handler σ) (h : HandlerId) (stale : Group) : Turn σ :=
  let done : Offer σ := .releasing true (.returned .expired)
  match (hub.depot handler.depot).remove stale.key with
  | .ok (depot, _) => .goes (hub.setDepot handler.depot depot) (.offer h stale done)
  | .error e =>
    .goes (hub.log ⟨.error, .handler,
        s!"Could not remove expired group '{stale.key}': {e.message}"⟩)
      (.offer h stale done)

def release (hub : Hub σ) (handler : Handler σ) (h : HandlerId) (stale : Group) (retire : Bool)
    (outcome : Attempt ExpiryOutcome) : Turn σ :=
  .goes (hub.setDepot handler.depot ((hub.depot handler.depot).release stale.key retire))
    (.offer h stale (.leaving outcome))

def leave (hub : Hub σ) (h : HandlerId) (stale : Group) (outcome : Attempt ExpiryOutcome) :
    Turn σ :=
  let hub := hub.unrefer h
  if hub.isLive h then .ends hub (.offered outcome)
  else .goes hub (.offer h stale (.disowning outcome))

def step (hub : Hub σ) (h : HandlerId) (stale : Group) (p : Offer σ) : Turn σ :=
  match hub.member? h with
  | none => .ends hub (.offered (.returned .detached))
  | some member =>
    let handler := member.handler
    match p with
    | .meeting => meet hub h stale
    | .seizing => seize hub handler h stale
    | .rereading => reread hub handler h stale
    | .discarding g left => discardNext hub handler h stale g left
    | .sending g m left work => send hub h stale g m left work
    | .completing g work => complete hub h stale g work
    | .removing _ => remove hub handler h stale
    | .releasing retire outcome => release hub handler h stale retire outcome
    | .leaving outcome => leave hub h stale outcome
    | .disowning outcome => .ends (hub.disown h) (.offered outcome)

/-- The offer behind a call, once the reply is there. -/
def resume (r : Reply) : Offer σ → Offer σ
  | .sending g m left work => .sending g m left (work.resume r)
  | .completing g work => .completing g (work.resume r)
  | p => p

end Collate.Offer
