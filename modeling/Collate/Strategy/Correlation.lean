import Collate.Message.Basic

/-!
# Correlation

The key of a message, if it has one: by default its correlation id, or the value of another header.
An empty value is no key.
-/

namespace Collate.Correlation

def byHeader (name : String) (m : Message) : Option Key :=
  ((m.header? name).filter fun value => !value.isEmpty).map Key.mk

def defaultHeader : String := Header.correlationId

end Collate.Correlation
