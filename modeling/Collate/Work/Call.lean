import Collate.Work.Frame

/-!
# Scripts at work

One action of a script. An action on the outside, the journal, the id supply or a depot is done at
once; a call into a handler or a pass of expiry becomes a frame of its own, and its reply is what
the script goes on with. A panic of the call is a panic of the script.
-/

namespace Collate

/-- What an action of a script comes to. -/
inductive ScriptTurn (σ α : Type) where
  | goes (hub : Hub σ) (s : Script σ α)
  | calls (inner : Frame σ)
  | gives (a : α)
  | panics

namespace Script

variable {σ α : Type}

def step (hub : Hub σ) : Script σ α → ScriptTurn σ α
  | .done a => .gives a
  | .panic => .panics
  | .act change next => .goes { hub with outside := change hub.outside } (next hub.outside)
  | .log r next => .goes (hub.log r) next
  | .fresh next => .goes hub.draw.1 (next hub.draw.2)
  | .handle h m _ => .calls (Activity.handle h m).frame
  | .expire d timeout _ => .calls (Activity.expire d timeout).frame
  | .add d key m next =>
    match (hub.depot d).add key m hub.clock with
    | .ok (depot, g) => .goes (hub.setDepot d depot) (next (.ok g))
    | .error e => .goes hub (next (.error e))
  | .remove d key next =>
    match (hub.depot d).remove key with
    | .ok (depot, g) => .goes (hub.setDepot d depot) (next (.ok g))
    | .error e => .goes hub (next (.error e))

/-- The script behind a call, once the reply is there. -/
def resume (r : Reply) : Script σ α → Script σ α
  | .handle _ _ next =>
    match r with
    | .handled (.returned result) => next result
    | _ => .panic
  | .expire _ _ next =>
    match r with
    | .passed (.returned result) => next result
    | _ => .panic
  | _ => .panic

end Script

end Collate
