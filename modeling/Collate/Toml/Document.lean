import Collate.Toml.Quoted

/-!
# TOML documents

A document is read line by line: a header says which table the lines below it belong to, and each of
those puts a value under a key. In arrays and braces a value may take several lines. Values nest up
to a fixed depth, and keys have no more names than that. Any fault makes the whole document
unreadable.
-/

namespace Collate.Toml

open Scalar (isBlank)
open Quoted (isControl)

namespace Reader

def skip (cs : List Char) : List Char := cs.dropWhile isBlank

def afterComment : List Char → Option (List Char)
  | [] => some []
  | '\n' :: rest => some ('\n' :: rest)
  | '\r' :: '\n' :: rest => some ('\r' :: '\n' :: rest)
  | c :: rest => if isControl c then none else afterComment rest

/-- Skips blanks, comments and line ends. -/
def skipLines : Bool → List Char → Option (List Char)
  | _, [] => some []
  | _, '\n' :: rest => skipLines false rest
  | _, '\r' :: '\n' :: rest => skipLines false rest
  | true, c :: rest => if isControl c then none else skipLines true rest
  | false, c :: rest =>
    if isBlank c then skipLines false rest
    else if c = '#' then skipLines true rest
    else some (c :: rest)

/-- The end of a line, which may have a comment before it. -/
def lineEnd (cs : List Char) : Option (List Char) :=
  let rest := match skip cs with
    | '#' :: rest => afterComment rest
    | rest => some rest
  match rest with
  | some [] => some []
  | some ('\n' :: rest) => some rest
  | some ('\r' :: '\n' :: rest) => some rest
  | _ => none

def isBare (c : Char) : Bool := c.isAlphanum || c == '_' || c == '-'

def name? (cs : List Char) : Option (String × List Char) :=
  let word := cs.takeWhile isBare
  if word.isEmpty then Quoted.line? cs else some (String.ofList word, cs.dropWhile isBare)

/-- Names with points between them, `limit` of them at most. -/
def names? : Nat → List Char → Option (List String × List Char)
  | 0, _ => none
  | limit + 1, cs =>
    match name? (skip cs) with
    | none => none
    | some (name, rest) =>
      match skip rest with
      | '.' :: rest => (names? limit rest).map fun (names, rest) => (name :: names, rest)
      | rest => some ([name], rest)

/-- How deep values may nest, and how many names a key may have. -/
def maxDepth : Nat := 80

/-- The names of a key. -/
def path? (cs : List Char) : Option (List String × List Char) := names? maxDepth cs

/-- What may stand around the sign between a key and its value: in braces also line ends and
comments. -/
def gap (isBraced : Bool) (cs : List Char) : Option (List Char) :=
  if isBraced then skipLines false cs else some (skip cs)

mutual

/-- A value at the front; `fuel` bounds the calls. -/
def value? : Nat → Nat → List Char → Option (Value × List Char)
  | 0, _, _ => none
  | fuel + 1, depth, cs =>
    match cs with
    | '[' :: rest =>
      if depth = 0 then none
      else ((skipLines false rest).bind (items? fuel (depth - 1) [])).map fun (vs, rest) =>
        (.array vs, rest)
    | '\x7b' :: rest =>
      if depth = 0 then none
      else ((skipLines false rest).bind (braces? fuel (depth - 1) .root)).map fun (t, rest) =>
        (.table .braces t.rows, rest)
    | '"' :: _ => (Quoted.text? cs).map fun (s, rest) => (.string s, rest)
    | '\'' :: _ => (Quoted.text? cs).map fun (s, rest) => (.string s, rest)
    | _ =>
      let (word, rest) := Scalar.split [] cs
      (Scalar.value? word).map fun v => (v, rest)

/-- The items of an array up to its bracket; a comma may follow the last one. -/
def items? : Nat → Nat → List Value → List Char → Option (List Value × List Char)
  | 0, _, _, _ => none
  | fuel + 1, depth, done, cs =>
    match cs with
    | ']' :: rest => some (done.reverse, rest)
    | cs =>
      match value? fuel depth cs with
      | none => none
      | some (v, rest) =>
        match skipLines false rest with
        | some (',' :: rest) => (skipLines false rest).bind (items? fuel depth (v :: done))
        | some (']' :: rest) => some ((v :: done).reverse, rest)
        | _ => none

/-- The pairs of a table in braces up to its brace; a comma may follow the last one. -/
def braces? : Nat → Nat → Table → List Char → Option (Table × List Char)
  | 0, _, _, _ => none
  | fuel + 1, depth, t, cs =>
    match cs with
    | '\x7d' :: rest => some (t, rest)
    | cs =>
      match pair? fuel depth true cs with
      | none => none
      | some (path, v, rest) =>
        match t.put path v, skipLines false rest with
        | some t, some (',' :: rest) => (skipLines false rest).bind (braces? fuel depth t)
        | some t, some ('\x7d' :: rest) => some (t, rest)
        | _, _ => none

/-- A dotted key and its value. -/
def pair? : Nat → Nat → (isBraced : Bool) → List Char → Option (List String × Value × List Char)
  | 0, _, _, _ => none
  | fuel + 1, depth, isBraced, cs =>
    match path? cs with
    | none => none
    | some (path, rest) =>
      match gap isBraced rest with
      | some ('=' :: rest) =>
        ((gap isBraced rest).bind (value? fuel depth)).map fun (v, rest) => (path, v, rest)
      | _ => none

end

/-- A header of one table or, with `list`, of one more table of a list: its path, and what follows
the closing brackets. -/
def header? (list : Bool) (cs : List Char) : Option (List String × List Char) :=
  match path? cs with
  | some (path, ']' :: rest) =>
    if !list then some (path, rest)
    else
      match rest with
      | ']' :: rest => some (path, rest)
      | _ => none
  | _ => none

/-- The table of a document after a header. -/
def openAt (list : Bool) (path : List String) (t : Table) : Option Table :=
  let last := path.getLastD ""
  t.change .header (if list then Table.openItem last else Table.openTable last) path.dropLast

/-- The lines of a document, below the header `path`. -/
def lines? : Nat → List String → Table → List Char → Option Table
  | 0, _, _, _ => none
  | fuel + 1, path, t, cs =>
    match skipLines false cs with
    | none => none
    | some [] => some t
    | some ('[' :: rest) =>
      let list := rest.head? == some '['
      match header? list (if list then rest.drop 1 else rest) with
      | none => none
      | some (path, rest) =>
        match openAt list path t, lineEnd rest with
        | some t, some rest => lines? fuel path t rest
        | _, _ => none
    | some rest =>
      match pair? (2 * rest.length + 2) maxDepth false rest with
      | none => none
      | some (keys, v, rest) =>
        match t.change .header (Table.put keys v) path, lineEnd rest with
        | some t, some rest => lines? fuel path t rest
        | _, _ => none

end Reader

/-- Reads a document; a byte order mark at its front is passed over. -/
def parse? (text : String) : Option Table :=
  let cs := match text.toList with
    | '\uFEFF' :: rest => rest
    | cs => cs
  Reader.lines? (cs.length + 1) [] .root cs

end Collate.Toml
