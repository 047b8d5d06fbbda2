import Collate.Failure
import Collate.Group

/-!
# Stores

A store keeps one group per key and has room for a number of messages in all, if it is bounded. A
key comes into the store with its first message and goes with its group, so no stored group is
empty. An addition beyond the bound fails and changes nothing.
-/

namespace Collate

structure Store where
  capacity : Option Nat
  /-- The groups, each under the text of its key. -/
  groups : Dictionary Group
  deriving Inhabited

namespace Store

def empty (capacity : Option Nat) : Store := ⟨capacity, .empty⟩

def find? (s : Store) (key : Key) : Option Group := s.groups.get? key.text

def contains (s : Store) (key : Key) : Bool := (s.find? key).isSome

/-- The group of a key, or an empty one. -/
def get (s : Store) (key : Key) (now : Instant) : Group :=
  (s.find? key).getD (.empty key now)

def groupCount (s : Store) : Nat := s.groups.size

def messageCount (s : Store) : Nat := (s.groups.values.map Group.size).foldr (· + ·) 0

/-- The store with a message added, and its group as it is then. -/
def add (s : Store) (key : Key) (m : Message) (now : Instant) : Except StoreError (Store × Group) :=
  match s.capacity with
  | some c =>
    if c ≤ s.messageCount then .error (.capacityExceeded c)
    else
      let g := (s.get key now).add m now
      .ok ({ s with groups := s.groups.insert key.text g }, g)
  | none =>
    let g := (s.get key now).add m now
    .ok ({ s with groups := s.groups.insert key.text g }, g)

/-- The store without the group of a key, and that group. -/
def remove (s : Store) (key : Key) : Store × Option Group :=
  ({ s with groups := s.groups.erase key.text }, s.find? key)

/-- The groups to which nothing was added for at least `timeout` nanoseconds. -/
def stale (s : Store) (timeout : Nat) (now : Instant) : List Group :=
  s.groups.values.filter fun g => g.isIdleFor timeout now

/-- Whether the stored group is the one of a snapshot: nothing was added since. -/
def isUnchanged (s : Store) (g : Group) : Bool :=
  (s.find? g.key).any fun current => current.lastModified == g.lastModified

/-- Removes the group of a snapshot if nothing was added since, and says whether it did. -/
def removeUnchanged (s : Store) (g : Group) : Store × Bool :=
  if s.isUnchanged g then ((s.remove g.key).1, true) else (s, false)

end Store

end Collate
