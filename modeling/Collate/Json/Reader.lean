import Collate.Json.Value
import Collate.Text.Numeral

/-!
# Reading JSON

A reader takes what it wants from the front of a text and returns the rest, or fails with the kind
of the first fault met from left to right: the text is not JSON, it ends too early, or it is JSON so
far and not what was asked for. A reader asks for its shape while it reads, so a wrong field is met
before a missing bracket behind it. Containers nest to a given depth. A structure is read from an
object with known names, each at most once, or from an array of the same values in their order.
-/

namespace Collate.Json

inductive Fault where
  /-- The text is not JSON. -/
  | malformed
  /-- The text ends early. -/
  | ended
  /-- The text is JSON so far, but not what was asked for. -/
  | mismatch
  deriving DecidableEq, Inhabited

abbrev Reader (α : Type) := List Char → Except Fault (α × List Char)

namespace Reader

variable {α β σ : Type}

def give (a : α) : Reader α := fun cs => .ok (a, cs)

def fail (f : Fault) : Reader α := fun _ => .error f

def andThen (r : Reader α) (next : α → Reader β) : Reader β := fun cs =>
  match r cs with
  | .error f => .error f
  | .ok (a, rest) => next a rest

def map (f : α → β) (r : Reader α) : Reader β := r.andThen fun a => give (f a)

def isSpace (c : Char) : Bool := c == ' ' || c == '\n' || c == '\t' || c == '\r'

def skip (cs : List Char) : List Char := cs.dropWhile isSpace

def isDigit (c : Char) : Bool := '0' ≤ c && c ≤ '9'

def word : List Char → Reader Unit
  | [], cs => .ok ((), cs)
  | _ :: _, [] => .error .ended
  | w :: ws, c :: cs => if w = c then word ws cs else .error .malformed

section Strings

inductive Place where
  | plain
  | escape
  | hex (left value : Nat) (high : Option Nat)
  | slashAfter (high : Nat)
  | letterAfter (high : Nat)

def hexValue? (c : Char) : Option Nat :=
  if '0' ≤ c ∧ c ≤ '9' then some (c.toNat - '0'.toNat)
  else if 'a' ≤ c ∧ c ≤ 'f' then some (c.toNat - 'a'.toNat + 10)
  else if 'A' ≤ c ∧ c ≤ 'F' then some (c.toNat - 'A'.toNat + 10)
  else none

def simpleEscape? : Char → Option Char
  | '"' => some '"'
  | '\\' => some '\\'
  | '/' => some '/'
  | 'b' => some '\x08'
  | 'f' => some '\x0c'
  | 'n' => some '\n'
  | 'r' => some '\r'
  | 't' => some '\t'
  | _ => none

/-- Whether four bytes are left for the digits of an escape. -/
def fourBytesLeft (cs : List Char) : Bool :=
  4 ≤ ((cs.take 4).map Char.utf8Size).foldr (· + ·) 0

def isHigh (n : Nat) : Bool := 0xD800 ≤ n && n ≤ 0xDBFF

def isLow (n : Nat) : Bool := 0xDC00 ≤ n && n ≤ 0xDFFF

def joinSurrogates (high low : Nat) : Char :=
  Char.ofNat ((high - 0xD800) * 0x400 + (low - 0xDC00) + 0x10000)

/-- The text up to the closing quote; `done` holds the characters before, the last one first. -/
def stringBody : Place → List Char → Reader String
  | .plain, _, [] => .error .ended
  | .plain, done, c :: cs =>
    if c = '"' then .ok (String.ofList done.reverse, cs)
    else if c = '\\' then stringBody .escape done cs
    else if c.toNat < 0x20 then .error .malformed
    else stringBody .plain (c :: done) cs
  | .escape, _, [] => .error .ended
  | .escape, done, c :: cs =>
    if c = 'u' then
      if fourBytesLeft cs then stringBody (.hex 4 0 none) done cs else .error .ended
    else
      match simpleEscape? c with
      | some e => stringBody .plain (e :: done) cs
      | none => .error .malformed
  | .hex .., _, [] => .error .ended
  | .hex left value high, done, c :: cs =>
    match hexValue? c with
    | none => .error .malformed
    | some d =>
      let value := value * 16 + d
      if 1 < left then stringBody (.hex (left - 1) value high) done cs
      else
        match high with
        | some h =>
          if isLow value then stringBody .plain (joinSurrogates h value :: done) cs
          else .error .malformed
        | none =>
          if isLow value then .error .malformed
          else if isHigh value then stringBody (.slashAfter value) done cs
          else stringBody .plain (Char.ofNat value :: done) cs
  | .slashAfter _, _, [] => .error .ended
  | .slashAfter h, done, c :: cs =>
    if c = '\\' then stringBody (.letterAfter h) done cs else .error .malformed
  | .letterAfter _, _, [] => .error .ended
  | .letterAfter h, done, c :: cs =>
    if c = 'u' then
      if fourBytesLeft cs then stringBody (.hex 4 0 (some h)) done cs else .error .ended
    else .error .malformed

/-- The rest of a string whose opening quote was taken. -/
def afterQuote : Reader String := stringBody .plain []

end Strings

section Numbers

def digitValue (c : Char) : Nat := c.toNat - '0'.toNat

/-- Appends digits to a number as long as it stays within 64 bits, and returns those left over. -/
def appendDigits : Nat → List Char → Nat × List Char
  | n, [] => (n, [])
  | n, c :: cs =>
    if n * 10 + digitValue c ≤ Numeral.maxU64 then appendDigits (n * 10 + digitValue c) cs
    else (n, c :: cs)

def sized (positive : Bool) (d : Double) : Number :=
  .double (if positive then d else d.neg)

def real (positive : Bool) (significand : Nat) (exponent : Int) : Reader Number := fun cs =>
  match Double.ofDecimal significand exponent with
  | some d => .ok (sized positive d, cs)
  | none => .error .malformed

def largestExponent : Nat := 2147483647

def exponentDigits (positive : Bool) (significand : Nat) (exponent : Int) (up : Bool) :
    Reader Number
  | [] => .error .ended
  | c :: cs =>
    if isDigit c then
      let ds := (c :: cs).takeWhile isDigit
      let rest := (c :: cs).dropWhile isDigit
      let n := ds.foldl (fun n d => n * 10 + digitValue d) 0
      if n ≤ largestExponent then
        real positive significand (if up then exponent + n else exponent - n) rest
      else if significand ≠ 0 ∧ up then .error .malformed
      else .ok (sized positive Double.zero, rest)
    else .error .malformed

def exponentPart (positive : Bool) (significand : Nat) (exponent : Int) : Reader Number
  | '+' :: cs => exponentDigits positive significand exponent true cs
  | '-' :: cs => exponentDigits positive significand exponent false cs
  | cs => exponentDigits positive significand exponent true cs

def fractionPart (positive : Bool) (significand : Nat) (exponent : Int) : Reader Number := fun cs =>
  let ds := cs.takeWhile isDigit
  let rest := cs.dropWhile isDigit
  if ds.isEmpty then
    if rest.isEmpty then .error .ended else .error .malformed
  else
    let (n, left) := appendDigits significand ds
    let exponent := exponent - ((ds.length - left.length : Nat) : Int)
    match rest with
    | 'e' :: rest | 'E' :: rest => exponentPart positive n exponent rest
    | rest => real positive n exponent rest

def integer (positive : Bool) (n : Nat) : Number :=
  if positive then .natural n
  else if 0 < n ∧ n ≤ Numeral.maxI64 + 1 then .negative n
  else .double (Double.ofNat n).neg

/-- A number whose sign was taken. -/
def number (positive : Bool) : Reader Number
  | [] => .error .ended
  | c :: cs =>
    if ¬ isDigit c then .error .malformed
    else if c = '0' ∧ (cs.head?.any isDigit) then .error .malformed
    else
      let ds := if c = '0' then ['0'] else (c :: cs).takeWhile isDigit
      let rest := if c = '0' then cs else (c :: cs).dropWhile isDigit
      let (n, left) := appendDigits 0 ds
      match rest with
      | '.' :: rest => fractionPart positive n left.length rest
      | 'e' :: rest | 'E' :: rest => exponentPart positive n left.length rest
      | rest =>
        if left.isEmpty then .ok (integer positive n, rest) else real positive n left.length rest

end Numbers

section Values

/-- Whether another element follows in an array, whose bracket was taken. -/
def moreElements (first : Bool) : Reader Bool := fun cs =>
  match skip cs with
  | [] => .error .ended
  | ']' :: rest => .ok (false, ']' :: rest)
  | c :: rest =>
    if first then .ok (true, c :: rest)
    else if c = ',' then
      match skip rest with
      | [] => .error .ended
      | ']' :: _ => .error .malformed
      | rest => .ok (true, rest)
    else .error .malformed

/-- Whether another name follows in an object; its opening quote is left in place. -/
def moreNames (first : Bool) : Reader Bool := fun cs =>
  match skip cs with
  | [] => .error .ended
  | '\x7d' :: rest => .ok (false, '\x7d' :: rest)
  | c :: rest =>
    if first then
      if c = '"' then .ok (true, c :: rest) else .error .malformed
    else if c = ',' then
      match skip rest with
      | [] => .error .ended
      | '"' :: rest => .ok (true, '"' :: rest)
      | _ => .error .malformed
    else .error .malformed

def closeArray : Reader Unit := fun cs =>
  match skip cs with
  | [] => .error .ended
  | ']' :: rest => .ok ((), rest)
  | _ => .error .malformed

def closeObject : Reader Unit := fun cs =>
  match skip cs with
  | [] => .error .ended
  | '\x7d' :: rest => .ok ((), rest)
  | _ => .error .malformed

def colon : Reader Unit := fun cs =>
  match skip cs with
  | [] => .error .ended
  | ':' :: rest => .ok ((), rest)
  | _ => .error .malformed

/-- The name at an opening quote. -/
def name : Reader String := fun cs =>
  match skip cs with
  | [] => .error .ended
  | '"' :: rest => afterQuote rest
  | _ => .error .malformed

mutual

/-- Any value, nesting at most `depth` containers; `fuel` bounds the calls. -/
def valueWith : Nat → Nat → Reader Value
  | 0, _, _ => .error .malformed
  | fuel + 1, depth, cs =>
    match skip cs with
    | [] => .error .ended
    | 'n' :: rest => (word ['u', 'l', 'l']).map (fun _ => Value.null) rest
    | 't' :: rest => (word ['r', 'u', 'e']).map (fun _ => Value.bool true) rest
    | 'f' :: rest => (word ['a', 'l', 's', 'e']).map (fun _ => Value.bool false) rest
    | '"' :: rest => afterQuote.map Value.string rest
    | '-' :: rest => (number false).map Value.number rest
    | '[' :: rest =>
      if depth = 0 then .error .malformed
      else (itemsWith fuel (depth - 1) true []).map Value.array rest
    | '\x7b' :: rest =>
      if depth = 0 then .error .malformed
      else (fieldsWith fuel (depth - 1) true []).map Value.object rest
    | c :: rest =>
      if isDigit c then (number true).map Value.number (c :: rest) else .error .malformed

def itemsWith : Nat → Nat → Bool → List Value → Reader (List Value)
  | 0, _, _, _, _ => .error .malformed
  | fuel + 1, depth, first, done, cs =>
    match moreElements first cs with
    | .error f => .error f
    | .ok (false, rest) => closeArray.map (fun _ => done.reverse) rest
    | .ok (true, rest) =>
      match valueWith fuel depth rest with
      | .error f => .error f
      | .ok (v, rest) => itemsWith fuel depth false (v :: done) rest

def fieldsWith : Nat → Nat → Bool → List (String × Value) → Reader (List (String × Value))
  | 0, _, _, _, _ => .error .malformed
  | fuel + 1, depth, first, done, cs =>
    match moreNames first cs with
    | .error f => .error f
    | .ok (false, rest) => closeObject.map (fun _ => done) rest
    | .ok (true, rest) =>
      match name rest with
      | .error f => .error f
      | .ok (n, rest) =>
      match (colon.andThen fun _ => valueWith fuel depth) rest with
      | .error f => .error f
      | .ok (v, rest) => fieldsWith fuel depth false (Rows.insert n v done) rest

end

/-- Enough calls for any text of this length. -/
def enough (cs : List Char) : Nat := 2 * cs.length + 2

def value (depth : Nat) : Reader Value := fun cs => valueWith (enough cs) depth cs

/-- Fails on a value of another kind than the one asked for: a scalar is read first. -/
def refuse : Reader α := fun cs =>
  match skip cs with
  | [] => .error .ended
  | '[' :: _ => .error .mismatch
  | '\x7b' :: _ => .error .mismatch
  | c :: rest =>
    match valueWith 1 0 (c :: rest) with
    | .error f => .error f
    | .ok _ => .error .mismatch

end Values

section Shapes

def string : Reader String := fun cs =>
  match skip cs with
  | '"' :: rest => afterQuote rest
  | cs => refuse cs

def natural (limit : Nat) : Reader Nat := fun cs =>
  let found : Except Fault (Number × List Char) → Except Fault (Nat × List Char)
    | .error f => .error f
    | .ok (.natural n, rest) => if n ≤ limit then .ok (n, rest) else .error .mismatch
    | .ok _ => .error .mismatch
  match skip cs with
  | '-' :: rest => found (number false rest)
  | c :: rest => if isDigit c then found (number true (c :: rest)) else refuse (c :: rest)
  | [] => .error .ended

def optional (r : Reader α) : Reader (Option α) := fun cs =>
  match skip cs with
  | 'n' :: rest => (word ['u', 'l', 'l']).map (fun _ => none) rest
  | cs => r.map some cs

def nothing : Reader Unit := fun cs =>
  match skip cs with
  | 'n' :: rest => word ['u', 'l', 'l'] rest
  | cs => refuse cs

/-- A variant, written as its name or as an object of its name and null. -/
def variant (depth : Nat) (known : String → Option α) : Reader α := fun cs =>
  let lookUp (n : String) : Reader α :=
    match known n with
    | some a => give a
    | none => fail .mismatch
  match skip cs with
  | [] => .error .ended
  | '"' :: rest => afterQuote.andThen lookUp rest
  | '\x7b' :: rest =>
    if depth = 0 then .error .malformed
    else
      (name.andThen fun n => (lookUp n).andThen fun a => colon.andThen fun _ =>
        nothing.andThen fun _ => closeObject.map fun _ => a) rest
  | _ => .error .malformed

def textsWith : Nat → Bool → Dictionary String → Reader (Dictionary String)
  | 0, _, _, _ => .error .malformed
  | fuel + 1, first, done, cs =>
    match moreNames first cs with
    | .error f => .error f
    | .ok (false, rest) => closeObject.map (fun _ => done) rest
    | .ok (true, rest) =>
      match name.andThen (fun n => colon.andThen fun _ => string.map fun s => (n, s)) rest with
      | .error f => .error f
      | .ok ((n, s), rest) => textsWith fuel false (done.insert n s) rest

/-- An object whose values are all strings. -/
def texts (depth : Nat) : Reader (Dictionary String) := fun cs =>
  match skip cs with
  | '\x7b' :: rest =>
    if depth = 0 then .error .malformed else textsWith (enough rest) true .empty rest
  | cs => refuse cs

/-- A named part of a structure: reading its value puts it into the structure read so far. -/
structure Slot (σ : Type) where
  name : String
  read : Nat → σ → Reader σ

def namedWith (slots : List (Slot σ)) (depth : Nat) : Nat → Bool → List String → σ → Reader σ
  | 0, _, _, _, _ => .error .malformed
  | fuel + 1, first, seen, s, cs =>
    match moreNames first cs with
    | .error f => .error f
    | .ok (false, rest) => closeObject.map (fun _ => s) rest
    | .ok (true, rest) =>
      match name rest with
      | .error f => .error f
      | .ok (n, rest) =>
        match slots.find? fun slot => slot.name == n with
        | none => .error .mismatch
        | some slot =>
          if n ∈ seen then .error .mismatch
          else
            match (colon.andThen fun _ => slot.read depth s) rest with
            | .error f => .error f
            | .ok (s, rest) => namedWith slots depth fuel false (n :: seen) s rest

def positional (depth : Nat) : List (Slot σ) → Bool → σ → Reader σ
  | [], _, s => closeArray.map fun _ => s
  | slot :: slots, first, s => (moreElements first).andThen fun more =>
    if more then (slot.read depth s).andThen fun s => positional depth slots false s
    else closeArray.map fun _ => s

/-- A structure whose parts are optional. -/
def structured (slots : List (Slot σ)) (depth : Nat) (start : σ) : Reader σ := fun cs =>
  match skip cs with
  | [] => .error .ended
  | '[' :: rest =>
    if depth = 0 then .error .malformed else positional (depth - 1) slots true start rest
  | '\x7b' :: rest =>
    if depth = 0 then .error .malformed
    else namedWith slots (depth - 1) (enough rest) true [] start rest
  | cs => refuse cs

end Shapes

/-- Reads a whole text, with nothing but blanks behind the value. -/
def all (r : Reader α) (text : String) : Except Fault α :=
  match r text.toList with
  | .error f => .error f
  | .ok (a, rest) => if (skip rest).isEmpty then .ok a else .error .malformed

end Reader

/-- How many containers may be open at once. -/
def maxDepth : Nat := 127

def parse (text : String) : Except Fault Value := (Reader.value maxDepth).all text

end Collate.Json
