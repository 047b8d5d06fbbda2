import Collate.Report
import Collate.Script
import Collate.Stream.Buffer

/-!
# Character streams

A consumer writes the payload of each message to a stream, a newline after it if asked to, and
flushes. A null payload is left out with a warning. A write that panics poisons the consumer: it
refuses every payload from then on.
-/

namespace Collate

structure Consumer (ω : Type) where
  name : String
  appendsNewline : Bool
  buffer : Buffer ω
  isPoisoned : Bool

namespace Consumer

variable {ω : Type}

def standardOutput : String := "stdout"

def standardError : String := "stderr"

/-- A consumer with a buffer of the given size; zero asks for the usual size. -/
def named (name : String) (target : ω) (size : Nat) : Consumer ω where
  name := name
  appendsNewline := false
  buffer := ⟨if size = 0 then Buffer.defaultCapacity else size, [], target⟩
  isPoisoned := false

def ofSize (target : ω) (size : Nat) : Consumer ω := named "stream" target size

def setNewline (c : Consumer ω) (on : Bool) : Consumer ω := { c with appendsNewline := on }

def newline : List UInt8 := [10]

/-- The pieces in which a payload goes out. -/
def pieces (c : Consumer ω) (p : Payload) : List (List UInt8) :=
  p.pieces.map Utf8.bytes ++ if c.appendsNewline then [newline] else []

def skipped (c : Consumer ω) (m : Message) : Log.Record :=
  ⟨.warn, .stream, s!"{c.name} received null payload (message {m.id.text}); nothing written"⟩

/-- Writes all pieces and flushes, if nothing fails on the way. -/
def emit (sink : Sink ω) (b : Buffer ω) (pieces : List (List UInt8)) : Buffer ω × Flow :=
  match b.writeAll sink pieces with
  | (b, .done) => b.flush sink
  | (b, flow) => (b, flow)

def outcome : Flow → Attempt (Except StreamError Unit)
  | .done => .returned (.ok ())
  | .failed reason => .returned (.error (.io reason))
  | .panicked => .panicked

/-- Writes a message; what has to be said about it comes last. -/
def onMessage (sink : Sink ω) (c : Consumer ω) (m : Message) :
    Consumer ω × Attempt (Except StreamError Unit) × Log.Journal :=
  if m.payload.isNull then (c, .returned (.ok ()), [c.skipped m])
  else if c.isPoisoned then
    (c, .returned (.error (.synchronisation (Report.poisoned "mutex" c.name))), [])
  else
    let (buffer, flow) := emit sink c.buffer (c.pieces m.payload)
    ({ c with buffer := buffer, isPoisoned := flow matches .panicked }, outcome flow, [])

/-- Lets the held bytes out when the consumer is taken apart. If that fails, they are offered once
more, and the first failure is what the caller is told. -/
def close (sink : Sink ω) (c : Consumer ω) : Consumer ω × Attempt (Except StreamError Unit) :=
  if c.isPoisoned then
    (c, .returned (.error (.synchronisation s!"{c.name} writer poisoned")))
  else
    match c.buffer.drain sink with
    | (buffer, .failed reason) =>
      let (buffer, again) := buffer.drain sink
      ({ c with buffer := buffer },
        outcome (if again = .panicked then .panicked else .failed reason))
    | (buffer, flow) => ({ c with buffer := buffer }, outcome flow)

/-- A failure to write as a failure to deliver. -/
def delivered (name : String) (r : Except StreamError Unit) : Except ChannelError Unit :=
  r.mapError fun e => .delivery name (.stream e)

def channel {σ : Type} (sink : Sink ω) (part : Part σ (Consumer ω)) : Channel σ :=
  ⟨fun m => (part.use fun c => let (c', r, said) := c.onMessage sink m; (c', r, said, c.name)).bind
    fun (r, said, name) => .logAll said
      (match r with
        | .returned r => .done (delivered name r)
        | .panicked => .panic)⟩

end Consumer

end Collate
