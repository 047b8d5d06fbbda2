import Collate.Message.Draft
import Collate.Script

/-!
# Processors

What is done with a complete group. Aggregation sends one message: the payloads of the members by
sequence number, those of one number in order of arrival, under the group's key, with the custom
headers on which all members agree. Passing through sends the members one by one and stops at the
first failure.
-/

namespace Collate

abbrev Processor (σ : Type) := Group → Channel σ → Script σ (Except ProcessingError Unit)

namespace Processor

/-- By sequence number; the order of arrival decides between equal numbers. -/
def inSequence (messages : List Message) : List Message :=
  messages.mergeSort fun a b => a.content.sequenceNumber ≤ b.content.sequenceNumber

/-- The custom headers of the first message that all others have with the same value. -/
def sharedHeaders : List Message → Dictionary String
  | [] => .empty
  | first :: others => first.content.custom.filter fun name value =>
    others.all fun m => m.content.custom.get? name == some value

/-- The aggregate of a group. -/
def aggregateOf (g : Group) : Draft :=
  let ordered := inSequence g.messages
  ((Draft.ofPayload (.list (ordered.map Message.payload))).correlate g.key).setHeaders
    (sharedHeaders ordered).rows

variable {σ : Type}

def sendAs (result : Except ChannelError Unit) : Except ProcessingError Unit :=
  result.mapError .channel

def aggregate : Processor σ := fun g output =>
  if g.isEmpty then
    .done (.error (.aggregation s!"group '{g.key}' has no messages"))
  else
    .fresh fun id => (output.send ((aggregateOf g).finish id)).map sendAs

def sendEach (output : Channel σ) : List Message → Script σ (Except ProcessingError Unit)
  | [] => .done (.ok ())
  | m :: rest => (output.send m).bind fun
    | .ok () => sendEach output rest
    | .error e => .done (.error (.channel e))

def passThrough : Processor σ := fun g output => sendEach output g.messages

end Processor

end Collate
