import Collate.KeyLocks
import Collate.Store

/-!
# Depots

A store as it is shared: with the locks of its keys and the participants in expiry, in the order in
which they joined. An operation of a depot can be out of service; it then fails with the reason and
changes nothing. An operation is in service or not as a whole; locks that give up in the middle of
one are left out.
-/

namespace Collate

abbrev HandlerId := Nat

/-- Who takes part in expiry: a handler, or a hook of the outside. -/
inductive Participant where
  | handler (h : HandlerId)
  | hook (id : Nat)
  deriving DecidableEq, Inhabited

/-- What a participant did with a group that it was offered. -/
inductive ExpiryOutcome where
  /-- The group was completed or discarded. -/
  | expired
  /-- The group is busy, changed, or somebody else's. -/
  | skipped
  /-- The participant is gone. -/
  | detached
  deriving DecidableEq, Inhabited

/-- The operations out of service, each with a reason. -/
structure Outages where
  get : Option String
  add : Option String
  remove : Option String
  register : Option String
  expire : Option String
  deriving Inhabited

structure Depot where
  store : Store
  locks : KeyLocks
  participants : List Participant
  outages : Outages
  deriving Inhabited

namespace Depot

def empty (capacity : Option Nat) : Depot :=
  ⟨.empty capacity, .empty, [], ⟨none, none, none, none, none⟩⟩

def get (d : Depot) (key : Key) (now : Instant) : Except StoreError Group :=
  match d.outages.get with
  | some reason => .error (.synchronisation reason)
  | none => .ok (d.store.get key now)

def add (d : Depot) (key : Key) (m : Message) (now : Instant) : Except StoreError (Depot × Group) :=
  match d.outages.add with
  | some reason => .error (.synchronisation reason)
  | none => (d.store.add key m now).map fun (s, g) => ({ d with store := s }, g)

def remove (d : Depot) (key : Key) : Except StoreError (Depot × Option Group) :=
  match d.outages.remove with
  | some reason => .error (.synchronisation reason)
  | none => .ok ({ d with store := (d.store.remove key).1 }, (d.store.remove key).2)

def register (d : Depot) (p : Participant) : Except StoreError Depot :=
  match d.outages.register with
  | some reason => .error (.synchronisation reason)
  | none => .ok { d with participants := d.participants ++ [p] }

/-- Takes every registration of the given participants off. -/
def prune (d : Depot) (gone : List Participant) : Depot :=
  { d with participants := d.participants.filter fun p => p ∉ gone }

def release (d : Depot) (key : Key) (retire : Bool) : Depot :=
  { d with locks := d.locks.release key retire }

def disown (d : Depot) (owner : Owner) : Depot :=
  { d with locks := d.locks.disown owner }

end Depot

end Collate
