import Collate.Toml.Scalar

/-!
# Quoted text

Text in double quotes has escapes and text in single quotes has none. Between single quote marks it
stays on a line. Between triple ones it may take several: a line end right after the opening marks
is dropped, every other one stands as it is written, and up to two quote marks may stand before the
closing ones. There, in double quotes, a backslash at the end of a line drops all blanks and line
ends up to the next character.
-/

namespace Collate.Toml.Quoted

open Scalar (isBlank)

/-- Characters that may not stand for themselves: all controls but the tab. -/
def isControl (c : Char) : Bool := (c.toNat < 0x20 && c != '\t') || c.toNat == 0x7F

inductive Place where
  | plain
  | escape
  /-- `left` digits of a code point to come. -/
  | code (left value : Nat)
  /-- After a backslash and blanks, before the end of the line. -/
  | lineEnd
  /-- Among the blanks and line ends that a backslash drops. -/
  | dropped

def simpleEscape? : Char → Option Char
  | 'b' => some '\x08'
  | 't' => some '\t'
  | 'n' => some '\n'
  | 'f' => some '\x0c'
  | 'r' => some '\r'
  | 'e' => some '\x1b'
  | '"' => some '"'
  | '\\' => some '\\'
  | _ => none

def codeLength? : Char → Option Nat
  | 'x' => some 2
  | 'u' => some 4
  | 'U' => some 8
  | _ => none

def scalar? (n : Nat) : Option Char :=
  if n < 0xD800 ∨ (0xE000 ≤ n ∧ n ≤ 0x10FFFF) then some (Char.ofNat n) else none

/-- Closing marks of text over several lines: the two that may come first belong to the text. -/
def closeTriple (mark : Char) (done cs : List Char) : String × List Char :=
  match cs with
  | a :: b :: rest =>
    if a = mark ∧ b = mark then (String.ofList (mark :: mark :: done).reverse, rest)
    else if a = mark then (String.ofList (mark :: done).reverse, b :: rest)
    else (String.ofList done.reverse, a :: b :: rest)
  | [a] =>
    if a = mark then (String.ofList (mark :: done).reverse, [])
    else (String.ofList done.reverse, [a])
  | [] => (String.ofList done.reverse, [])

/-- The rest of text in double quotes; `done` holds the characters before, the last one first. -/
def double (several : Bool) : Place → List Char → List Char → Option (String × List Char)
  | _, _, [] => none
  | .plain, done, c :: cs => plain several done c cs
  | .escape, done, c :: cs =>
    match simpleEscape? c, codeLength? c with
    | some e, _ => double several .plain (e :: done) cs
    | none, some n => double several (.code n 0) done cs
    | none, none =>
      if !several then none
      else if c = '\n' then double several .dropped done cs
      else if isBlank c then double several .lineEnd done cs
      else if c = '\r' ∧ cs.head? = some '\n' then double several .lineEnd done cs
      else none
  | .code left value, done, c :: cs =>
    match Scalar.digit? 16 c with
    | none => none
    | some d =>
      if 1 < left then double several (.code (left - 1) (value * 16 + d)) done cs
      else
        match scalar? (value * 16 + d) with
        | some e => double several .plain (e :: done) cs
        | none => none
  | .lineEnd, done, c :: cs =>
    if c = '\n' then double several .dropped done cs
    else if isBlank c then double several .lineEnd done cs
    else if c = '\r' ∧ cs.head? = some '\n' then double several .lineEnd done cs
    else none
  | .dropped, done, c :: cs =>
    if c = '\n' ∨ isBlank c then double several .dropped done cs
    else if c = '\r' ∧ cs.head? = some '\n' then double several .dropped done cs
    else plain several done c cs
where
  /-- One character of the text itself. -/
  plain (several : Bool) (done : List Char) (c : Char) (cs : List Char) :
      Option (String × List Char) :=
    if c = '\\' then double several .escape done cs
    else if c = '"' then
      if !several then some (String.ofList done.reverse, cs)
      else
        match cs with
        | '"' :: '"' :: rest => some (closeTriple '"' done rest)
        | cs => double several .plain (c :: done) cs
    else if several && c == '\n' then double several .plain (c :: done) cs
    else if several && c == '\r' && cs.head? == some '\n' then
      double several .plain (c :: done) cs
    else if isControl c then none
    else double several .plain (c :: done) cs

/-- The rest of text in single quotes. -/
def single (several : Bool) : List Char → List Char → Option (String × List Char)
  | _, [] => none
  | done, c :: cs =>
    if c = '\'' then
      if !several then some (String.ofList done.reverse, cs)
      else
        match cs with
        | '\'' :: '\'' :: rest => some (closeTriple '\'' done rest)
        | cs => single several (c :: done) cs
    else if several && c == '\n' then single several (c :: done) cs
    else if several && c == '\r' && cs.head? == some '\n' then single several (c :: done) cs
    else if isControl c then none
    else single several (c :: done) cs

/-- Drops a line end at the front. -/
def afterLineEnd : List Char → List Char
  | '\n' :: rest => rest
  | '\r' :: '\n' :: rest => rest
  | cs => cs

/-- Quoted text at the front, on one line. -/
def line? : List Char → Option (String × List Char)
  | '"' :: rest => double false .plain [] rest
  | '\'' :: rest => single false [] rest
  | _ => none

/-- Quoted text at the front, of either kind. -/
def text? : List Char → Option (String × List Char)
  | '"' :: '"' :: '"' :: rest => double true .plain [] (afterLineEnd rest)
  | '\'' :: '\'' :: '\'' :: rest => single true [] (afterLineEnd rest)
  | cs => line? cs

end Collate.Toml.Quoted
