/-!
# UTF-8

Bytes are read one at a time. A reading is a list of units: a character, or a sequence of one to
three bytes that begins no character or breaks off before its end. `decode?` accepts bytes whose
units are all characters; `decodeLossy` writes U+FFFD for each of the others.
-/

namespace Collate.Utf8

/-- The encoding of a text: the sequences of its characters, one after another. -/
def encode (cs : List Char) : List UInt8 :=
  cs.flatMap String.utf8EncodeChar

def bytes (s : String) : List UInt8 := encode s.toList

/-- Where a reading stands: between characters, or inside one with `left` bytes to come, the next
of them between `low` and `high`, and `value` read so far. -/
inductive State where
  | between
  | inside (left value : Nat) (low high : UInt8)
  deriving DecidableEq

/-- The unit that a byte completes between characters, and the state after it. -/
def lead (b : UInt8) : List (Option Char) × State :=
  if b < 0x80 then ([some (Char.ofNat b.toNat)], .between)
  else if b < 0xC2 then ([none], .between)
  else if b < 0xE0 then ([], .inside 1 (b.toNat - 0xC0) 0x80 0xBF)
  else if b = 0xE0 then ([], .inside 2 0 0xA0 0xBF)
  else if b = 0xED then ([], .inside 2 0xD 0x80 0x9F)
  else if b < 0xF0 then ([], .inside 2 (b.toNat - 0xE0) 0x80 0xBF)
  else if b = 0xF0 then ([], .inside 3 0 0x90 0xBF)
  else if b < 0xF4 then ([], .inside 3 (b.toNat - 0xF0) 0x80 0xBF)
  else if b = 0xF4 then ([], .inside 3 4 0x80 0x8F)
  else ([none], .between)

/-- A byte that cannot continue the character begun breaks it off and is read afresh. -/
def feed : State → UInt8 → List (Option Char) × State
  | .between, b => lead b
  | .inside left value low high, b =>
    if low ≤ b ∧ b ≤ high then
      let value := value * 0x40 + (b.toNat - 0x80)
      if left ≤ 1 then ([some (Char.ofNat value)], .between)
      else ([], .inside (left - 1) value 0x80 0xBF)
    else
      (none :: (lead b).1, (lead b).2)

def unitsFrom : State → List UInt8 → List (Option Char)
  | .between, [] => []
  | .inside .., [] => [none]
  | state, b :: rest => (feed state b).1 ++ unitsFrom (feed state b).2 rest

def units (bs : List UInt8) : List (Option Char) := unitsFrom .between bs

def decode? (bs : List UInt8) : Option (List Char) := (units bs).mapM id

/-- What is said of bytes that are no text. -/
def refusal : String := "stream did not contain valid UTF-8"

def replacement : Char := '\uFFFD'

def decodeLossy (bs : List UInt8) : List Char := (units bs).map (·.getD replacement)

end Collate.Utf8
