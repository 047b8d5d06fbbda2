import Collate.Json.Value
import Collate.Double.Shortest

/-!
# The compact text of a JSON value

A value is written without spaces, as a list of pieces: one for each bracket, comma and colon, for
each number and name, and within a string one for each escape and each run of plain characters
between them. `Value.text` is their concatenation.
-/

namespace Collate.Json

def digits (n : Nat) : String := String.ofList (Nat.toDigits 10 n)

def zeros (n : Nat) : String := String.ofList (List.replicate n '0')

namespace Double

/-- A decimal is positional up to sixteen digits before the point and four zeros after it. -/
def decimalText (d : Collate.Double.Decimal) : String :=
  let ds := Nat.toDigits 10 d.digits
  let point : Int := ds.length + d.exponent
  if 0 ≤ d.exponent ∧ point ≤ 16 then
    String.ofList ds ++ zeros d.exponent.toNat ++ ".0"
  else if 0 < point ∧ point ≤ 16 then
    String.ofList (ds.take point.toNat) ++ "." ++ String.ofList (ds.drop point.toNat)
  else if -5 < point ∧ point ≤ 0 then
    "0." ++ zeros (-point).toNat ++ String.ofList ds
  else
    let tail := if ds.length = 1 then "" else "." ++ String.ofList (ds.drop 1)
    let sign := if 0 < point then "+" else "-"
    String.ofList (ds.take 1) ++ tail ++ "e" ++ sign ++ digits (point - 1).natAbs

def text (d : Collate.Double) : String :=
  (if d.negative then "-" else "") ++ if d.isZero then "0.0" else decimalText d.shortest

end Double

def Number.text : Number → String
  | .natural n => digits n
  | .negative n => "-" ++ digits n
  | .double d => Double.text d

def hexDigit (n : Nat) : Char :=
  if n < 10 then Char.ofNat ('0'.toNat + n) else Char.ofNat ('a'.toNat + (n - 10))

/-- What a character is written as, where it may not stand for itself. -/
def escape? (c : Char) : Option String :=
  if c = '"' then some "\\\""
  else if c = '\\' then some "\\\\"
  else if c = '\x08' then some "\\b"
  else if c = '\x0c' then some "\\f"
  else if c = '\n' then some "\\n"
  else if c = '\r' then some "\\r"
  else if c = '\t' then some "\\t"
  else if c.toNat < 0x20 then
    some ("\\u00" ++ String.ofList [hexDigit (c.toNat / 16), hexDigit (c.toNat % 16)])
  else none

/-- The run of plain characters `run` (last one first) as a piece, unless it is empty. -/
def flushRun (run : List Char) (rest : List String) : List String :=
  if run.isEmpty then rest else String.ofList run.reverse :: rest

def stringBody : List Char → List Char → List String
  | run, [] => flushRun run []
  | run, c :: cs =>
    match escape? c with
    | some e => flushRun run (e :: stringBody [] cs)
    | none => stringBody (c :: run) cs

def stringPieces (s : String) : List String :=
  "\"" :: (stringBody [] s.toList ++ ["\""])

namespace Value

mutual

def pieces : Value → List String
  | .null => ["null"]
  | .bool b => [if b then "true" else "false"]
  | .number n => [n.text]
  | .string s => stringPieces s
  | .array items => "[" :: (itemPieces true items ++ ["]"])
  | .object fields => "\x7b" :: (fieldPieces true fields ++ ["\x7d"])
termination_by structural v => v

def itemPieces : Bool → List Value → List String
  | _, [] => []
  | first, v :: rest => (if first then [] else [","]) ++ pieces v ++ itemPieces false rest
termination_by structural _ v => v

def fieldPieces : Bool → List (String × Value) → List String
  | _, [] => []
  | first, (name, v) :: rest =>
    (if first then [] else [","]) ++ stringPieces name ++ ":" :: pieces v
      ++ fieldPieces false rest
termination_by structural _ v => v

end

def text (v : Value) : String := String.join v.pieces

end Value

end Collate.Json
