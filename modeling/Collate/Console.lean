import Collate.Log.Line
import Collate.Stream.Consumer

/-!
# The console

What a session writes: released groups to standard output, discarded messages to standard error, and
log lines to standard error as well, or to a file. Lines and discarded messages come out in the
order in which they were made.
-/

namespace Collate

/-- A text that takes everything. -/
def Sink.text : Sink (List UInt8) where
  write w bs := (w ++ bs, .accepted bs.length)
  flush w := (w, none)

structure Console where
  output : Consumer (List UInt8)
  discards : Consumer (List UInt8)
  /-- What was logged, where that goes to a file. -/
  file : Option (List UInt8)
  limit : Option Log.Level
  style : Log.Style

namespace Console

/-- The consumers of a session; each discarded message has a line of its own. -/
def make (file : Bool) (limit : Option Log.Level) (style : Log.Style) (newline : Bool)
    (bufferSize : Nat) : Console where
  output := (Consumer.ofSize [] bufferSize).setNewline newline
  discards := (Consumer.named Consumer.standardError [] 0).setNewline true
  file := if file then some [] else none
  limit := limit
  style := style

def outText (c : Console) : List UInt8 := c.output.buffer.target

def errText (c : Console) : List UInt8 := c.discards.buffer.target

def writeError (c : Console) (bs : List UInt8) : Console :=
  { c with discards := { c.discards with
    buffer := { c.discards.buffer with target := c.discards.buffer.target ++ bs } } }

/-- Forgets what was written so far. -/
def clear (c : Console) : Console :=
  { c with
    output := { c.output with buffer := { c.output.buffer with target := [] } }
    discards := { c.discards with buffer := { c.discards.buffer with target := [] } }
    file := c.file.map fun _ => [] }

def print (c : Console) (r : Log.Record) : Console :=
  if Log.isLetThrough c.limit r then
    let line := Utf8.bytes (c.style.render r ++ "\n")
    match c.file with
    | some text => { c with file := some (text ++ line) }
    | none => c.writeError line
  else c

def printAll (c : Console) (journal : Log.Journal) : Console := journal.foldl print c

/-- Writes a discarded message; what has to be said about it is printed at once. -/
def discard (c : Console) (m : Message) : Console × Attempt (Except StreamError Unit) :=
  let (consumer, r, said) := c.discards.onMessage Sink.text m
  ({ c with discards := consumer }.printAll said, r)

def outputPart : Part Console (Consumer (List UInt8)) where
  read c := c.output
  write consumer c := { c with output := consumer }

def whole : Part Console Console := ⟨id, fun c _ => c⟩

def outputChannel : Channel Console := Consumer.channel Sink.text outputPart

def discardChannel : Channel Console :=
  ⟨fun m => (whole.use fun c => c.discard m).bind fun
    | .returned r => .done (Consumer.delivered Consumer.standardError r)
    | .panicked => .panic⟩

end Console

end Collate
