import Collate.Log
import Collate.Message.Basic
import Collate.Text.Blank
import Collate.Text.Numeral

/-!
# Drafts

A draft is the content of a message that is still being written. Its setters return the changed
draft. A header set by name reaches the three fields as well: an empty correlation id clears it, and
a sequence value that is no numeral of 32 bits, blanks around it aside, is left out with a warning.
-/

namespace Collate

abbrev Draft := Content

namespace Draft

def ofPayload (p : Payload) : Draft := ⟨p, none, 0, 0, .empty⟩

def ofMessage (m : Message) : Draft := m.content

def withPayload (d : Draft) (p : Payload) : Draft := { d with payload := p }

def correlate (d : Draft) (key : Key) : Draft := { d with correlationId := some key }

def uncorrelate (d : Draft) : Draft := { d with correlationId := none }

def number (d : Draft) (n : Nat) : Draft := { d with sequenceNumber := n }

def size (d : Draft) (n : Nat) : Draft := { d with sequenceSize := n }

def sequenceValue? (text : String) : Option Nat :=
  Numeral.parse? Numeral.maxU32 (Text.trim text.toList)

def setHeader (d : Draft) (name value : String) : Draft :=
  if name = Header.correlationId then
    { d with correlationId := if value.isEmpty then none else some ⟨value⟩ }
  else if name = Header.sequenceNumber then
    match sequenceValue? value with
    | some n => d.number n
    | none => d
  else if name = Header.sequenceSize then
    match sequenceValue? value with
    | some n => d.size n
    | none => d
  else
    { d with custom := d.custom.insert name value }

def setHeaders (d : Draft) (entries : List (String × String)) : Draft :=
  entries.foldl (fun d e => d.setHeader e.1 e.2) d

/-- The warning about a header that was left out. -/
def warning? (name value : String) : Option Log.Record :=
  if (name = Header.sequenceNumber ∨ name = Header.sequenceSize)
      ∧ (sequenceValue? value).isNone then
    some ⟨.warn, .draft, s!"Ignoring header {name}: '{value}' is not a sequence value"⟩
  else none

def warnings (entries : List (String × String)) : Log.Journal :=
  entries.filterMap fun e => warning? e.1 e.2

/-- The finished message. -/
def finish (d : Draft) (id : MessageId) : Message := ⟨id, d⟩

end Draft

end Collate
