/-!
# Binary64 numbers

A finite double is a sign, a significand below `2 ^ 53` and a power of two of at least `-1074`.
`Double.round` gives the double nearest to a fraction, the one with an even significand where two
are equally near, and none beyond the largest double. Products and quotients are exact fractions
rounded once.
-/

namespace Collate

structure Double where
  negative : Bool
  significand : Nat
  exponent : Int
  deriving DecidableEq, Inhabited

namespace Double

def minExponent : Int := -1074

def maxExponent : Int := 971

def zero : Double := ⟨false, 0, minExponent⟩

/-- `num * 2 ^ shift / den` as a fraction of naturals. -/
def scaled (num den : Nat) (shift : Int) : Nat × Nat :=
  if 0 ≤ shift then (num * Nat.pow 2 shift.toNat, den) else (num, den * Nat.pow 2 (-shift).toNat)

/-- The integer nearest to a fraction, an even one where two are equally near. -/
def nearest (num den : Nat) : Nat :=
  let q := num / den
  let r := num % den
  if den < 2 * r ∨ (2 * r = den ∧ q % 2 = 1) then q + 1 else q

/-- The power of two at which a positive fraction has 53 binary digits before the point. -/
def fit (num den : Nat) : Int :=
  let guess : Int := (Nat.log2 num : Int) - (Nat.log2 den : Int) - 52
  let (n, d) := scaled num den (-guess)
  if n / d < Nat.pow 2 52 then guess - 1 else guess

def round (num den : Nat) : Option Double :=
  if num = 0 then some zero
  else
    let e := max (fit num den) minExponent
    let (n, d) := scaled num den (-e)
    let s := nearest n d
    let (s, e) := if s = Nat.pow 2 53 then (Nat.pow 2 52, e + 1) else (s, e)
    if maxExponent < e then none else some ⟨false, s, e⟩

/-- The size of a double as a fraction. -/
def fraction (d : Double) : Nat × Nat :=
  scaled d.significand 1 d.exponent

def neg (d : Double) : Double := { d with negative := !d.negative }

def isZero (d : Double) : Bool := d.significand == 0

/-- Numerical equality: the two zeros are equal. -/
def same (a b : Double) : Bool :=
  (a.isZero && b.isZero) || a == b

def times (a b : Double) : Option Double :=
  round (a.fraction.1 * b.fraction.1) (a.fraction.2 * b.fraction.2)

def dividedBy (a b : Double) : Option Double :=
  round (a.fraction.1 * b.fraction.2) (a.fraction.2 * b.fraction.1)

def ofNat (n : Nat) : Double := (round n 1).getD zero

/-- The double nearest to a power of ten, for powers up to 308. -/
def tenTo (k : Nat) : Double := (round (Nat.pow 10 k) 1).getD zero

/-- Divides by `10 ^ 308` as often as needed to bring a negative power of ten into range. -/
def lower : Nat → Double → Int → Double × Int
  | 0, d, e => (d, e)
  | steps + 1, d, e =>
    if e < -308 ∧ ¬ d.isZero then lower steps ((d.dividedBy (tenTo 308)).getD zero) (e + 308)
    else (d, e)

/-- Reads `significand * 10 ^ exponent` in three roundings: the significand, the power of ten, and
their product or quotient. There is none where the product is too large. -/
def ofDecimal (significand : Nat) (exponent : Int) : Option Double :=
  let d := ofNat significand
  if 0 ≤ exponent then
    if exponent ≤ 308 then d.times (tenTo exponent.toNat)
    else if d.isZero then some d else none
  else
    let (d, e) := lower 4 d exponent
    if d.isZero then some d else d.dividedBy (tenTo (-e).toNat)

end Double

end Collate
