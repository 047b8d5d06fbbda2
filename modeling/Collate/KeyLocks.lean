import Collate.Dictionary
import Collate.Message.Key

/-!
# Key locks

One entry per key with a group gathering or completing. An entry is held by at most one guard at a
time and remembers its owner, the handler that started the group. A guard that is given back keeps
the entry, one that is retired removes it. A key without an entry is free, so whoever takes it makes
a fresh entry.
-/

namespace Collate

/-- Names a handler on the locks it made. -/
abbrev Owner := Nat

structure LockEntry where
  held : Bool
  owner : Option Owner
  deriving DecidableEq, Inhabited

structure KeyLocks where
  entries : Dictionary LockEntry
  deriving Inhabited

namespace KeyLocks

def empty : KeyLocks := ⟨.empty⟩

def find? (l : KeyLocks) (key : Key) : Option LockEntry := l.entries.get? key.text

def isHeld (l : KeyLocks) (key : Key) : Bool := (l.find? key).any LockEntry.held

def size (l : KeyLocks) : Nat := l.entries.size

def set (l : KeyLocks) (key : Key) (e : LockEntry) : KeyLocks := ⟨l.entries.insert key.text e⟩

/-- Takes a key for an owner, who also claims an entry without one; none while the key is held. -/
def acquire? (l : KeyLocks) (key : Key) (owner : Option Owner) : Option KeyLocks :=
  match l.find? key with
  | none => some (l.set key ⟨true, owner⟩)
  | some e => if e.held then none else some (l.set key ⟨true, e.owner.or owner⟩)

/-- Takes a key that nobody holds, whoever owns it, and leaves its owner. -/
def tryAcquire? (l : KeyLocks) (key : Key) : Option KeyLocks :=
  match l.find? key with
  | none => some (l.set key ⟨true, none⟩)
  | some e => if e.held then none else some (l.set key ⟨true, e.owner⟩)

/-- Takes a key that nobody holds and that no other owner has. -/
def tryAcquireOwned? (l : KeyLocks) (key : Key) (owner : Owner) : Option KeyLocks :=
  match l.find? key with
  | none => some (l.set key ⟨true, some owner⟩)
  | some e =>
    if e.held ∨ e.owner.any (· != owner) then none else some (l.set key ⟨true, e.owner⟩)

/-- Drops the guard of a key. -/
def release (l : KeyLocks) (key : Key) (retire : Bool) : KeyLocks :=
  if retire then ⟨l.entries.erase key.text⟩
  else
    match l.find? key with
    | some e => l.set key { e with held := false }
    | none => l

/-- Takes an owner's name off all its entries. -/
def disown (l : KeyLocks) (owner : Owner) : KeyLocks :=
  ⟨l.entries.mapValues fun e => if e.owner = some owner then { e with owner := none } else e⟩

end KeyLocks

end Collate
