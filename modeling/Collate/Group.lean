import Collate.Message.Basic

/-!
# Groups

The messages gathered under one key, in order of arrival, and the time of the last arrival. A group
is a snapshot: what a store does later does not change it.
-/

namespace Collate

/-- Nanoseconds on a clock that never goes back. -/
abbrev Instant := Nat

def nanosPerMilli : Nat := 1000000

structure Group where
  key : Key
  messages : List Message
  lastModified : Instant
  deriving Inhabited

namespace Group

/-- The placeholder for a key without messages. -/
def empty (key : Key) (now : Instant) : Group := ⟨key, [], now⟩

def size (g : Group) : Nat := g.messages.length

def isEmpty (g : Group) : Bool := g.messages.isEmpty

def add (g : Group) (m : Message) (now : Instant) : Group :=
  { g with messages := g.messages ++ [m], lastModified := now }

/-- Whether nothing arrived for at least `timeout` nanoseconds. -/
def isIdleFor (g : Group) (timeout : Nat) (now : Instant) : Bool :=
  timeout ≤ now - g.lastModified

/-- The size declared by the first message that declares one. -/
def sequenceSize? (g : Group) : Option Nat :=
  (g.messages.map fun m => m.content.sequenceSize).find? (0 < ·)

@[simp] theorem messages_add (g : Group) (m : Message) (now : Instant) :
    (g.add m now).messages = g.messages ++ [m] := rfl

@[simp] theorem size_add (g : Group) (m : Message) (now : Instant) :
    (g.add m now).size = g.size + 1 := by
  simp [size]

end Group

end Collate
