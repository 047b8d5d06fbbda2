import Collate.Toml.Value

/-!
# Bare values

What may stand without quotes: the two truth values, integers in four bases, fractions, and points
in time. Underscores may separate digits, and a day must be one of its month. An integer is told by
its first characters: those after them are not looked at until its number is asked for.
-/

namespace Collate.Toml.Scalar

def isDigit (c : Char) : Bool := '0' ≤ c && c ≤ '9'

def digit? (base : Nat) (c : Char) : Option Nat :=
  let d :=
    if '0' ≤ c ∧ c ≤ '9' then c.toNat - '0'.toNat
    else if 'a' ≤ c ∧ c ≤ 'f' then c.toNat - 'a'.toNat + 10
    else if 'A' ≤ c ∧ c ≤ 'F' then c.toNat - 'A'.toNat + 10
    else base
  if d < base then some d else none

/-- The number behind digits; there is at least one. -/
def natural? (base : Nat) : List Char → Option Nat
  | [] => none
  | cs => cs.foldlM (fun n c => (digit? base c).map fun d => n * base + d) 0

def unsigned : List Char → Bool × List Char
  | '+' :: rest => (false, rest)
  | '-' :: rest => (true, rest)
  | cs => (false, cs)

def integer? (base : Nat) (cs : List Char) : Option Int :=
  let (negative, body) := unsigned cs
  (natural? base body).map fun n => if negative then -(n : Int) else n

section Underscores

/-- Whether each underscore has a digit on both sides; `before` says it of the character before. -/
def separates (isDigit : Char → Bool) : (before : Bool) → List Char → Bool
  | _, [] => true
  | _, ['_'] => false
  | before, '_' :: c :: rest => before && isDigit c && separates isDigit true rest
  | _, c :: rest => separates isDigit (isDigit c) rest

/-- Whether the underscores of a number separate its digits. The first character of the number, its
sign for one, may stand before an underscore whatever it is. -/
def isSpaced (isDigit : Char → Bool) : List Char → Bool
  | [] => true
  | c :: rest => c != '_' && separates isDigit true rest

def isHexDigit (c : Char) : Bool := (digit? 16 c).isSome

def integerValue? (base : Nat) (cs : List Char) : Option Value :=
  if isSpaced isHexDigit cs then some (.integer base (String.ofList (cs.filter (· != '_'))))
  else none

end Underscores

section Fractions

/-- What follows a run of digits and underscores. It holds a digit and, where it is the whole part
of a number, no zero in front of another digit. -/
def afterRun? (isWhole : Bool) (cs : List Char) : Option (List Char) :=
  let run := cs.takeWhile fun c => isDigit c || c == '_'
  let count := run.countP isDigit
  if count = 0 ∨ (isWhole ∧ 1 < count ∧ run.head? = some '0') then none
  else some (cs.drop run.length)

def afterPart? : List Char → Option (List Char)
  | '.' :: cs => afterRun? false cs
  | cs => some cs

def afterExponent? : List Char → Option (List Char)
  | 'e' :: cs => afterRun? false (unsigned cs).2
  | 'E' :: cs => afterRun? false (unsigned cs).2
  | cs => some cs

/-- A whole part, then perhaps digits after a point and perhaps an exponent. -/
def isFraction (cs : List Char) : Bool :=
  (((afterRun? true cs).bind afterPart?).bind afterExponent?).any List.isEmpty

end Fractions

section Moments

/-- A number of exactly `width` digits within bounds, and what follows it. -/
def field? (width low high : Nat) (cs : List Char) : Option (Nat × List Char) :=
  let ds := cs.take width
  let n := ds.foldl (fun n d => n * 10 + (d.toNat - '0'.toNat)) 0
  if ds.length = width ∧ ds.all isDigit ∧ low ≤ n ∧ n ≤ high then some (n, cs.drop width)
  else none

def isLeap (year : Nat) : Bool := (year % 4 == 0 && year % 100 != 0) || year % 400 == 0

def daysOf (year month : Nat) : Nat :=
  if month = 2 then (if isLeap year then 29 else 28)
  else if month ∈ [4, 6, 9, 11] then 30 else 31

/-- What follows a date. -/
def afterDate? (cs : List Char) : Option (List Char) :=
  match field? 4 0 9999 cs with
  | some (year, '-' :: cs) =>
    match field? 2 1 12 cs with
    | some (month, '-' :: cs) => (field? 2 1 (daysOf year month) cs).map (·.2)
    | _ => none
  | _ => none

/-- What follows the digits after a point; there is at least one. -/
def afterFraction? (cs : List Char) : Option (List Char) :=
  if (cs.head?.any isDigit) then some (cs.dropWhile isDigit) else none

/-- What follows a time of day; the seconds may be left out. -/
def afterTime? (cs : List Char) : Option (List Char) :=
  match field? 2 0 23 cs with
  | some (_, ':' :: cs) =>
    match field? 2 0 59 cs with
    | some (_, ':' :: cs) =>
      match field? 2 0 60 cs with
      | some (_, '.' :: cs) => afterFraction? cs
      | some (_, cs) => some cs
      | none => none
    | some (_, cs) => some cs
    | none => none
  | _ => none

def isOffset : List Char → Bool
  | ['Z'] => true
  | ['z'] => true
  | '+' :: cs => isClock cs
  | '-' :: cs => isClock cs
  | _ => false
where
  isClock (cs : List Char) : Bool :=
    match field? 2 0 23 cs with
    | some (_, ':' :: cs) => (field? 2 0 59 cs).any (·.2.isEmpty)
    | _ => false

/-- A date, a time of day, or a date with a time, which may have an offset. -/
def isMoment (cs : List Char) : Bool :=
  match afterDate? cs with
  | some [] => true
  | some (c :: cs) =>
    (c == 'T' || c == 't' || c == ' ')
      && (afterTime? cs).any fun rest => rest.isEmpty || isOffset rest
  | none => (afterTime? cs).any List.isEmpty

end Moments

/-- Whether an integer may be written so: with something in it, and no zero in front of more. -/
def isWhole : List Char → Bool
  | [] => false
  | '0' :: rest => rest.isEmpty
  | _ => true

/-- A decimal number or a point in time, told apart by what follows the first digits. -/
def decimal? (cs : List Char) : Option Value :=
  let body := (unsigned cs).2
  let integer? := if isWhole body then integerValue? 10 cs else none
  match body.dropWhile isDigit with
  | [] => integer?
  | c :: rest =>
    if c = '-' ∨ c = ':' then if isMoment cs then some (.moment (String.ofList cs)) else none
    else if rest.contains ' ' then none
    else if (c :: rest).any fun c => c == '.' || c == 'e' || c == 'E' then
      if isFraction body && isSpaced isDigit cs then some (.float (String.ofList cs)) else none
    else if c = '_' then integer?
    else none

/-- An integer whose base stands in front of it. -/
def based? (base : Nat) (cs : List Char) : Option Value :=
  if cs.all fun c => c == '_' || (digit? base c).isSome then integerValue? base cs else none

def value? : List Char → Option Value
  | ['t', 'r', 'u', 'e'] => some (.boolean true)
  | ['f', 'a', 'l', 's', 'e'] => some (.boolean false)
  | '0' :: 'x' :: rest => based? 16 rest
  | '0' :: 'o' :: rest => based? 8 rest
  | '0' :: 'b' :: rest => based? 2 rest
  | cs =>
    let body := (unsigned cs).2
    if body = ['i', 'n', 'f'] ∨ body = ['n', 'a', 'n'] then some (.float (String.ofList cs))
    else decimal? cs

def isBlank (c : Char) : Bool := c == ' ' || c == '\t'

/-- Whether a character may stand within a bare value. -/
def isPart (c : Char) : Bool :=
  !isBlank c && c ∉ ['=', ',', '[', ']', '\x7b', '\x7d', '#', '\r', '\n']

/-- Whether a bare value goes on at a character with `blanks` before it. -/
def continues (blanks : List Char) (c : Char) : Bool :=
  isPart c && (blanks.isEmpty || c ∉ ['"', '\'', '.'])

/-- Splits a bare value off; `blanks` are those just passed, which belong to it if it goes on. -/
def split (blanks : List Char) : List Char → List Char × List Char
  | [] => ([], blanks)
  | c :: cs =>
    if isBlank c then split (blanks ++ [c]) cs
    else if continues blanks c then
      let (word, rest) := split [] cs
      (blanks ++ c :: word, rest)
    else ([], blanks ++ c :: cs)

end Collate.Toml.Scalar
