/-!
# Shutdown

A request to stop travels two ways: a flag that stays up, and a signal to every receiver that was
there before. Signals wait in a ring of eight; a receiver that is farther behind first learns how
many it lost and goes on with the oldest kept. Raising the flag and sending the signal are two
steps.
-/

namespace Collate.Shutdown

def ringSize : Nat := 8

structure Coordinator where
  requested : Bool
  /-- How many signals were sent. -/
  sent : Nat
  /-- For each receiver, how many signals it is past. -/
  receivers : List Nat
  deriving DecidableEq, Inhabited

/-- What a receiver finds when it looks. -/
inductive Notice where
  | signal
  | lagged (lost : Nat)
  | empty
  deriving DecidableEq, Inhabited

namespace Coordinator

def initial : Coordinator := ⟨false, 0, []⟩

/-- A new receiver, which sees only signals from now on. -/
def subscribe (c : Coordinator) : Coordinator × Nat :=
  ({ c with receivers := c.receivers ++ [c.sent] }, c.receivers.length)

def raise (c : Coordinator) : Coordinator := { c with requested := true }

def signal (c : Coordinator) : Coordinator := { c with sent := c.sent + 1 }

/-- A whole request: the flag first, then the signal. -/
def trigger (c : Coordinator) : Coordinator := c.raise.signal

def notice (c : Coordinator) (past : Nat) : Notice × Nat :=
  if past + ringSize < c.sent then (.lagged (c.sent - ringSize - past), c.sent - ringSize)
  else if past < c.sent then (.signal, past + 1)
  else (.empty, past)

/-- What a receiver finds, and the coordinator after it looked. -/
def receive (c : Coordinator) (receiver : Nat) : Coordinator × Notice :=
  let past := (c.receivers[receiver]?).getD c.sent
  ({ c with receivers := c.receivers.set receiver (c.notice past).2 }, (c.notice past).1)

/-- Whether a receiver would find something. -/
def isPending (c : Coordinator) (receiver : Nat) : Bool :=
  (c.receive receiver).2 != .empty

end Coordinator

end Collate.Shutdown
