import Collate.Json.Text
import Collate.Text.Utf8

/-!
# Payloads

What a message carries. Every payload has a text, built from the pieces in which it is written to a
stream, and a size that counts the bytes carried and not the brackets, commas and nulls of the text.
-/

namespace Collate

inductive Payload where
  | null
  | text (s : String)
  | chars (cs : List Char)
  | bytes (bs : List UInt8)
  | value (v : Json.Value)
  | list (items : List Payload)
  deriving Inhabited

namespace Payload

def isNull : Payload → Bool
  | .null => true
  | _ => false

/-- Strings become text and null stays null; any other value is carried as it is. -/
def ofJson : Json.Value → Payload
  | .null => .null
  | .string s => .text s
  | v => .value v

mutual

def pieces : Payload → List String
  | .null => ["null"]
  | .text s => [s]
  | .chars cs => cs.map Char.toString
  | .bytes bs => [String.ofList (Utf8.decodeLossy bs)]
  | .value v => v.pieces
  | .list items => "[" :: (itemPieces true items ++ ["]"])
termination_by structural p => p

def itemPieces : Bool → List Payload → List String
  | _, [] => []
  | first, p :: rest => (if first then [] else [", "]) ++ pieces p ++ itemPieces false rest
termination_by structural _ ps => ps

end

def display (p : Payload) : String := String.join p.pieces

mutual

def byteLength : Payload → Nat
  | .null => 0
  | .text s => s.utf8ByteSize
  | .chars cs => (cs.map Char.utf8Size).foldr (· + ·) 0
  | .bytes bs => bs.length
  | .value v => v.text.utf8ByteSize
  | .list items => byteLengths items
termination_by structural p => p

def byteLengths : List Payload → Nat
  | [] => 0
  | p :: rest => byteLength p + byteLengths rest
termination_by structural ps => ps

end

mutual

/-- Payloads of one form with the same content; numbers are compared as numbers. -/
def same : Payload → Payload → Bool
  | .null, .null => true
  | .text a, .text b => a == b
  | .chars a, .chars b => a == b
  | .bytes a, .bytes b => a == b
  | .value a, .value b => a.same b
  | .list a, .list b => sameItems a b
  | _, _ => false
termination_by structural p => p

def sameItems : List Payload → List Payload → Bool
  | [], [] => true
  | a :: as, b :: bs => same a b && sameItems as bs
  | _, _ => false
termination_by structural ps => ps

end

end Payload

end Collate
