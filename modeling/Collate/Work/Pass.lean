import Collate.Work.Call

/-!
# A pass of expiry

The groups of a depot that are idle long enough are selected first, then offered one by one to all
participants that were registered then. A group that some participant expired counts; one that no
participant answers for, since all of them are gone or there were none, is removed by the pass
itself, if its key is free and nothing was added since. At the end the participants that were gone
are taken off the register.
-/

namespace Collate.Pass

variable {σ : Type}

def select (hub : Hub σ) (d : DepotId) (timeout : Nat) : Turn σ :=
  let depot := hub.depot d
  match depot.outages.expire with
  | some reason => .ends hub (.passed (.returned (.error (.synchronisation reason))))
  | none =>
    match hub.arrange (depot.store.stale timeout hub.clock) with
    | [] => .ends hub (.passed (.returned (.ok 0)))
    | stale => .goes hub (.pass d timeout (.consulting stale))

def consult (hub : Hub σ) (d : DepotId) (timeout : Nat) (stale : List Group) : Turn σ :=
  .goes hub (.pass d timeout (.next ⟨(hub.depot d).participants, stale, [], 0⟩))

def takeNext (hub : Hub σ) (d : DepotId) (timeout : Nat) (t : Tally) : Turn σ :=
  match t.rest with
  | [] => .goes hub (.pass d timeout (.pruning t))
  | g :: rest =>
    .goes hub (.pass d timeout (.offering { t with rest := rest } g t.participants ⟨false, false⟩))

/-- One group counted, if it is gone. -/
def counted (t : Tally) (gone : Bool) : Tally :=
  { t with expired := t.expired + if gone then 1 else 0 }

/-- What a participant said, added to the rest; a participant that is gone is noted once. -/
def hear (t : Tally) (said : Responses) (who : Participant) : ExpiryOutcome → Tally × Responses
  | .expired => (t, ⟨true, true⟩)
  | .skipped => (t, { said with attached := true })
  | .detached => (if who ∈ t.detached then t else { t with detached := t.detached ++ [who] }, said)

def heard (t : Tally) (g : Group) (who : Participant) (left : List Participant) (said : Responses)
    (outcome : ExpiryOutcome) : Pass σ :=
  .offering (hear t said who outcome).1 g left (hear t said who outcome).2

def offer (hub : Hub σ) (d : DepotId) (timeout : Nat) (t : Tally) (g : Group)
    (left : List Participant) (said : Responses) : Turn σ :=
  match left with
  | [] =>
    if said.attached then .goes hub (.pass d timeout (.next (counted t said.expired)))
    else .goes hub (.pass d timeout (.claiming t g))
  | .handler h :: left =>
    .calls hub (.pass d timeout (.waiting t g (.handler h) left said)) (.offer h g .meeting)
  | .hook id :: left =>
    let work : Script σ ExpiryOutcome :=
      match hub.hooks[id]? with
      | some hook => hook g
      | none => .done .detached
    .goes hub (.pass d timeout (.hooked t g (.hook id) left said work))

def runHook (hub : Hub σ) (d : DepotId) (timeout : Nat) (t : Tally) (g : Group)
    (who : Participant) (left : List Participant) (said : Responses)
    (work : Script σ ExpiryOutcome) : Turn σ :=
  match work.step hub with
  | .goes hub work => .goes hub (.pass d timeout (.hooked t g who left said work))
  | .calls inner => .calls hub (.pass d timeout (.hooked t g who left said work)) inner
  | .gives outcome => .goes hub (.pass d timeout (heard t g who left said outcome))
  | .panics => .goes hub (.pass d timeout .failing)

/-- Takes the key of a group that nobody answers for, whoever owns it. -/
def claim (hub : Hub σ) (d : DepotId) (timeout : Nat) (t : Tally) (g : Group) : Turn σ :=
  let depot := hub.depot d
  match depot.locks.tryAcquire? g.key with
  | some locks =>
    .goes (hub.setDepot d { depot with locks := locks }) (.pass d timeout (.comparing t g))
  | none => .goes hub (.pass d timeout (.next t))

def compare (hub : Hub σ) (d : DepotId) (timeout : Nat) (t : Tally) (g : Group) : Turn σ :=
  let depot := hub.depot d
  let (store, removed) := depot.store.removeUnchanged g
  .goes (hub.setDepot d { depot with store := store })
    (.pass d timeout (.freeing t g (!store.contains g.key) removed))

def free (hub : Hub σ) (d : DepotId) (timeout : Nat) (t : Tally) (g : Group)
    (retire removed : Bool) : Turn σ :=
  .goes (hub.setDepot d ((hub.depot d).release g.key retire))
    (.pass d timeout (.next (counted t removed)))

def prune (hub : Hub σ) (d : DepotId) (t : Tally) : Turn σ :=
  .ends (hub.setDepot d ((hub.depot d).prune t.detached)) (.passed (.returned (.ok t.expired)))

def step (hub : Hub σ) (d : DepotId) (timeout : Nat) : Pass σ → Turn σ
  | .selecting => select hub d timeout
  | .consulting stale => consult hub d timeout stale
  | .next t => takeNext hub d timeout t
  | .offering t g left said => offer hub d timeout t g left said
  | .waiting .. => .waits none
  | .hooked t g who left said work => runHook hub d timeout t g who left said work
  | .claiming t g => claim hub d timeout t g
  | .comparing t g => compare hub d timeout t g
  | .freeing t g retire removed => free hub d timeout t g retire removed
  | .pruning t => prune hub d t
  | .failing => .ends hub (.passed .panicked)

/-- The pass behind a call, once the reply is there. -/
def resume (r : Reply) : Pass σ → Pass σ
  | .waiting t g who left said =>
    match r with
    | .offered (.returned outcome) => heard t g who left said outcome
    | _ => .failing
  | .hooked t g who left said work => .hooked t g who left said (work.resume r)
  | p => p

end Collate.Pass
