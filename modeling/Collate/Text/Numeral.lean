/-!
# Decimal numerals of natural numbers

A numeral is one or more of the digits `0` to `9`, with an optional plus sign before them. Leading
zeros count for nothing, and a value beyond the given limit is no numeral.
-/

namespace Collate.Numeral

def digit? (c : Char) : Option Nat :=
  if '0' ≤ c ∧ c ≤ '9' then some (c.toNat - '0'.toNat) else none

def value? (limit : Nat) : Nat → List Char → Option Nat
  | acc, [] => some acc
  | acc, c :: rest =>
    match digit? c with
    | none => none
    | some d => if acc * 10 + d ≤ limit then value? limit (acc * 10 + d) rest else none

def parse? (limit : Nat) : List Char → Option Nat
  | [] => none
  | '+' :: [] => none
  | '+' :: c :: rest => value? limit 0 (c :: rest)
  | c :: rest => value? limit 0 (c :: rest)

def maxU32 : Nat := 4294967295

def maxU64 : Nat := 18446744073709551615

def maxI64 : Nat := 9223372036854775807

end Collate.Numeral
