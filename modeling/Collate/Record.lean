import Collate.Json.Reader
import Collate.Json.Text
import Collate.Message.Draft

/-!
# Records

A line of input is a JSON object with five fields, each of which may be left out. It describes a
message: what it says outright goes before what its headers say under the same name, and a
correlation id of any kind of value stands for its text.
-/

namespace Collate

structure Record where
  correlationId : Option Json.Value
  sequenceNumber : Nat
  sequenceSize : Nat
  payload : Json.Value
  headers : Dictionary String
  deriving Inhabited

namespace Record

open Json (Reader)

def blank : Record := ⟨none, 0, 0, .null, .empty⟩

def slots : List (Reader.Slot Record) :=
  [⟨"correlation_id", fun depth r =>
      (Reader.optional (Reader.value depth)).map fun v => { r with correlationId := v }⟩,
    ⟨"sequence_number", fun _ r =>
      (Reader.natural Numeral.maxU32).map fun n => { r with sequenceNumber := n }⟩,
    ⟨"sequence_size", fun _ r =>
      (Reader.natural Numeral.maxU32).map fun n => { r with sequenceSize := n }⟩,
    ⟨"payload", fun depth r => (Reader.value depth).map fun v => { r with payload := v }⟩,
    ⟨"headers", fun depth r => (Reader.texts depth).map fun hs => { r with headers := hs }⟩]

def parse (line : String) : Except Json.Fault Record :=
  (Reader.structured slots Json.maxDepth blank).all line

/-- The key that a value stands for. -/
def key? : Json.Value → Option Key
  | .null => none
  | .string s => some ⟨s⟩
  | v => some ⟨v.text⟩

def draft (r : Record) : Draft :=
  let d := (Draft.ofPayload (.ofJson r.payload)).setHeaders r.headers.rows
  let d := if 0 < r.sequenceNumber then d.number r.sequenceNumber else d
  let d := if 0 < r.sequenceSize then d.size r.sequenceSize else d
  match r.correlationId.bind key? with
  | some key => d.correlate key
  | none => d

/-- What has to be said about a record while its message is made. -/
def warnings (r : Record) : Log.Journal := Draft.warnings r.headers.rows

end Record

end Collate
