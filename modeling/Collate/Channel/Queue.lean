import Collate.Script

/-!
# Queues

A queue is a channel that keeps messages until they are received, first in, first out, up to its
capacity. It counts the messages it accepted, modulo `2 ^ 64`.
-/

namespace Collate

structure Queue where
  name : String
  capacity : Nat
  waiting : List Message
  sent : Nat
  deriving Inhabited

namespace Queue

def defaultCapacity : Nat := 10000

/-- The count of accepted messages starts again after this many. -/
def counterSize : Nat := 18446744073709551616

def empty (name : String) (capacity : Nat) : Queue := ⟨name, capacity, [], 0⟩

def size (q : Queue) : Nat := q.waiting.length

def send (q : Queue) (m : Message) : Queue × Except ChannelError Unit :=
  if q.capacity ≤ q.size then (q, .error (.full q.name q.capacity))
  else ({ q with waiting := q.waiting ++ [m], sent := (q.sent + 1) % counterSize }, .ok ())

def receive (q : Queue) : Queue × Option Message :=
  ({ q with waiting := q.waiting.drop 1 }, q.waiting.head?)

def receiveBatch (q : Queue) (max : Nat) : Queue × List Message :=
  ({ q with waiting := q.waiting.drop max }, q.waiting.take max)

def clear (q : Queue) : Queue × List Message := ({ q with waiting := [] }, q.waiting)

def channel {σ : Type} (part : Part σ Queue) : Channel σ :=
  ⟨fun m => part.use fun q => q.send m⟩

end Queue

end Collate
