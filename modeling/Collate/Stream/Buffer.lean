/-!
# Buffered writing

Bytes go to a sink through a buffer. A piece that fits into the free space is kept; one that does
not makes the buffer go out first, and one at least as long as the buffer goes out directly. A sink
may take a part of what it is offered, nothing, or fail; bytes it did not take stay in the buffer,
so what the sink took and what is held make up what was accepted, in order.
-/

namespace Collate

/-- What a sink did with the bytes offered. -/
inductive Taken where
  | accepted (n : Nat)
  | failed (reason : String)
  | panicked
  deriving DecidableEq, Inhabited

/-- A place that takes bytes, with a state. -/
structure Sink (ω : Type) where
  write : ω → List UInt8 → ω × Taken
  flush : ω → ω × Option String

/-- How writing went. -/
inductive Flow where
  | done
  | failed (reason : String)
  | panicked
  deriving DecidableEq, Inhabited

structure Buffer (ω : Type) where
  capacity : Nat
  held : List UInt8
  target : ω

namespace Buffer

variable {ω : Type}

def defaultCapacity : Nat := 8 * 1024

/-- Offers bytes to the sink until it took them all; returns those it did not take. A sink that
takes nothing fails with the given reason. The first argument bounds the offers. -/
def push (sink : Sink ω) (idle : String) : Nat → ω → List UInt8 → ω × List UInt8 × Flow
  | _, w, [] => (w, [], .done)
  | 0, w, bs => (w, bs, .done)
  | fuel + 1, w, b :: bs =>
    match sink.write w (b :: bs) with
    | (w, .accepted 0) => (w, b :: bs, .failed idle)
    | (w, .accepted (n + 1)) => push sink idle fuel w (bs.drop n)
    | (w, .failed reason) => (w, b :: bs, .failed reason)
    | (w, .panicked) => (w, b :: bs, .panicked)

/-- Lets the held bytes out. -/
def drain (sink : Sink ω) (b : Buffer ω) : Buffer ω × Flow :=
  let (w, left, flow) := push sink "failed to write the buffered data" b.held.length b.target b.held
  ({ b with target := w, held := left }, flow)

/-- Writes bytes past an empty buffer. -/
def direct (sink : Sink ω) (b : Buffer ω) (piece : List UInt8) : Buffer ω × Flow :=
  let (w, _, flow) := push sink "failed to write whole buffer" piece.length b.target piece
  ({ b with target := w }, flow)

def room (b : Buffer ω) : Nat := b.capacity - b.held.length

def keep (b : Buffer ω) (piece : List UInt8) : Buffer ω := { b with held := b.held ++ piece }

def place (sink : Sink ω) (b : Buffer ω) (piece : List UInt8) : Buffer ω × Flow :=
  if b.capacity ≤ piece.length then b.direct sink piece else (b.keep piece, .done)

def write (sink : Sink ω) (b : Buffer ω) (piece : List UInt8) : Buffer ω × Flow :=
  if piece.length < b.room then (b.keep piece, .done)
  else if b.room < piece.length then
    match b.drain sink with
    | (b, .done) => b.place sink piece
    | (b, flow) => (b, flow)
  else b.place sink piece

/-- Writes pieces until one fails. -/
def writeAll (sink : Sink ω) (b : Buffer ω) : List (List UInt8) → Buffer ω × Flow
  | [] => (b, .done)
  | piece :: pieces =>
    match b.write sink piece with
    | (b, .done) => b.writeAll sink pieces
    | (b, flow) => (b, flow)

/-- Lets the held bytes out and flushes the sink. -/
def flush (sink : Sink ω) (b : Buffer ω) : Buffer ω × Flow :=
  match b.drain sink with
  | (b, .done) =>
    let (w, reason?) := sink.flush b.target
    ({ b with target := w }, match reason? with
      | none => .done
      | some reason => .failed reason)
  | (b, flow) => (b, flow)

end Buffer

end Collate
