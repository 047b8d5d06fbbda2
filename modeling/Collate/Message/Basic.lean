import Collate.Message.Key
import Collate.Message.Payload

/-!
# Messages

A message has an identity, a payload and headers. Three headers are fields of their own, the
correlation id and the place in a sequence; all others are custom. By name a sequence field of zero
reads as absent.
-/

namespace Collate

/-- The identity of a message, chosen by whoever makes it. -/
structure MessageId where
  text : String
  deriving DecidableEq, Inhabited

namespace Header

def correlationId : String := "correlationId"

def sequenceNumber : String := "sequenceNumber"

def sequenceSize : String := "sequenceSize"

/-- The names whose headers are fields of their own. -/
def wellKnown : List String := [correlationId, sequenceNumber, sequenceSize]

end Header

/-- Headers and payload, without an identity. -/
structure Content where
  payload : Payload
  correlationId : Option Key
  sequenceNumber : Nat
  sequenceSize : Nat
  custom : Dictionary String
  deriving Inhabited

namespace Content

/-- A count of zero says nothing. -/
def positive (n : Nat) : Option String :=
  if 0 < n then some (toString n) else none

def header? (c : Content) (name : String) : Option String :=
  if name = Header.correlationId then c.correlationId.map Key.text
  else if name = Header.sequenceNumber then positive c.sequenceNumber
  else if name = Header.sequenceSize then positive c.sequenceSize
  else c.custom.get? name

end Content

structure Message where
  id : MessageId
  content : Content
  deriving Inhabited

namespace Message

def payload (m : Message) : Payload := m.content.payload

def header? (m : Message) (name : String) : Option String := m.content.header? name

end Message

end Collate
