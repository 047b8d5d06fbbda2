import Collate.Handler

/-!
# The hub

All that activities share: the depots, the handlers and how often each is referred to, the hooks,
the clock, the supply of message ids, the outside, and the journal. The order in which the stale
groups of a depot are taken is left open, so the hub brings one along.
-/

namespace Collate

/-- A handler and the number of references to it; without any it is gone. -/
structure Member (σ : Type) where
  handler : Handler σ
  references : Nat

structure Hub (σ : Type) where
  depots : List Depot
  members : List (Member σ)
  hooks : List (Group → Script σ ExpiryOutcome)
  clock : Instant
  idsDrawn : Nat
  idOf : Nat → MessageId
  arrange : List Group → List Group
  outside : σ
  journal : Log.Journal

namespace Hub

variable {σ : Type}

def initial (outside : σ) (idOf : Nat → MessageId) : Hub σ where
  depots := []
  members := []
  hooks := []
  clock := 0
  idsDrawn := 0
  idOf := idOf
  arrange := id
  outside := outside
  journal := []

def log (hub : Hub σ) (r : Log.Record) : Hub σ := { hub with journal := hub.journal ++ [r] }

/-- Lets time go by. -/
def elapse (hub : Hub σ) (nanos : Nat) : Hub σ := { hub with clock := hub.clock + nanos }

def depot (hub : Hub σ) (d : DepotId) : Depot := (hub.depots[d]?).getD (.empty none)

def setDepot (hub : Hub σ) (d : DepotId) (depot : Depot) : Hub σ :=
  { hub with depots := hub.depots.set d depot }

def member? (hub : Hub σ) (h : HandlerId) : Option (Member σ) := hub.members[h]?

def isLive (hub : Hub σ) (h : HandlerId) : Bool := (hub.member? h).any fun m => 0 < m.references

/-- One more reference to a handler. -/
def refer (hub : Hub σ) (h : HandlerId) : Hub σ :=
  { hub with members := hub.members.modify h fun m => { m with references := m.references + 1 } }

/-- One reference less. -/
def unrefer (hub : Hub σ) (h : HandlerId) : Hub σ :=
  { hub with members := hub.members.modify h fun m => { m with references := m.references - 1 } }

/-- Takes the name of a handler off the locks of its depot. -/
def disown (hub : Hub σ) (h : HandlerId) : Hub σ :=
  match hub.member? h with
  | none => hub
  | some m => hub.setDepot m.handler.depot ((hub.depot m.handler.depot).disown h)

def openDepot (hub : Hub σ) (capacity : Option Nat) : Hub σ × DepotId :=
  ({ hub with depots := hub.depots ++ [.empty capacity] }, hub.depots.length)

def addHook (hub : Hub σ) (hook : Group → Script σ ExpiryOutcome) : Hub σ × Nat :=
  ({ hub with hooks := hub.hooks ++ [hook] }, hub.hooks.length)

def register (hub : Hub σ) (d : DepotId) (p : Participant) : Except StoreError (Hub σ) :=
  ((hub.depot d).register p).map fun depot => hub.setDepot d depot

/-- Makes a handler, which joins expiry in its depot; one that cannot join is gone at once. -/
def build (hub : Hub σ) (handler : Handler σ) : Hub σ × Except HandlerError HandlerId :=
  let h := hub.members.length
  let joined : Hub σ := { hub with members := hub.members ++ [⟨handler, 1⟩] }
  match joined.register handler.depot (.handler h) with
  | .ok hub => (hub, .ok h)
  | .error e => (joined.unrefer h, .error (.store e))

def draw (hub : Hub σ) : Hub σ × MessageId :=
  ({ hub with idsDrawn := hub.idsDrawn + 1 }, hub.idOf hub.idsDrawn)

end Hub

end Collate
