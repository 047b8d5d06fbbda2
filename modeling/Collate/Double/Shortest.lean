import Collate.Double

/-!
# The shortest decimal of a double

Of the decimals that round to a double, the shortest one: the fewest digits, and of two decimals
with as many the nearer, a tie going to the even one. A decimal of `n` digits rounds to the double
if one of the double's two neighbours among the decimals of `n` digits does, so only those are
tried.
-/

namespace Collate.Double

/-- A digit string and the power of ten of its last digit. -/
structure Decimal where
  digits : Nat
  exponent : Int
  deriving DecidableEq

/-- The numbers that round to a double, in quarters of its last binary place. -/
structure Interval where
  low : Nat
  middle : Nat
  high : Nat
  closed : Bool

def interval (d : Double) : Interval where
  low := if d.significand = Nat.pow 2 52 ∧ minExponent < d.exponent then 4 * d.significand - 1
    else 4 * d.significand - 2
  middle := 4 * d.significand
  high := 4 * d.significand + 2
  closed := d.significand % 2 == 0

def tenFraction (k : Int) : Nat × Nat :=
  if 0 ≤ k then (Nat.pow 10 k.toNat, 1) else (1, Nat.pow 10 (-k).toNat)

/-- Compares `c * 10 ^ k` with `quarters * 2 ^ (exponent - 2)`. -/
def compareQuarters (c : Nat) (k : Int) (quarters : Nat) (exponent : Int) : Ordering :=
  let (tn, td) := tenFraction k
  let (un, ud) := scaled 1 1 (exponent - 2)
  compare (c * tn * ud) (quarters * un * td)

def rounds (d : Double) (c : Nat) (k : Int) : Bool :=
  let i := d.interval
  let low := compareQuarters c k i.low d.exponent
  let high := compareQuarters c k i.high d.exponent
  (low == .gt || (i.closed && low == .eq)) && (high == .lt || (i.closed && high == .eq))

/-- The decimal just below or at the double on the grid of multiples of `10 ^ k`. -/
def floorAt (d : Double) (k : Int) : Nat :=
  let (tn, td) := tenFraction k
  let (n, m) := d.fraction
  (n * td) / (m * tn)

/-- Of `c * 10 ^ k` and its successor on the grid, the one nearer to the double. -/
def nearerUp (d : Double) (c : Nat) (k : Int) : Bool :=
  match compareQuarters (2 * c + 1) k (2 * d.interval.middle) d.exponent with
  | .lt => true
  | .eq => c % 2 == 1
  | .gt => false

def candidate? (d : Double) (k : Int) : Option Decimal :=
  let c := d.floorAt k
  match rounds d c k, rounds d (c + 1) k with
  | true, true => some ⟨if d.nearerUp c k then c + 1 else c, k⟩
  | true, false => some ⟨c, k⟩
  | false, true => some ⟨c + 1, k⟩
  | false, false => none

/-- How many digits a double has before its point; zero or less for a double below one. -/
def magnitude (d : Double) : Int :=
  let (n, m) := d.fraction
  let guess : Int := ((Nat.log2 n : Int) - (Nat.log2 m : Int)) * 30103 / 100000 - 1
  let reaches (p : Int) : Bool := let (tn, td) := tenFraction p; m * tn ≤ n * td
  let climb (p : Int) : Int := if reaches p then p + 1 else p
  climb (climb (climb (climb guess)))

def search (d : Double) : Nat → Int → Decimal
  | 0, k => ⟨d.floorAt k, k⟩
  | more + 1, k => (d.candidate? k).getD (search d more (k - 1))

def stripZeros : Nat → Decimal → Decimal
  | 0, x => x
  | n + 1, x =>
    if x.digits ≠ 0 ∧ x.digits % 10 = 0 then stripZeros n ⟨x.digits / 10, x.exponent + 1⟩ else x

def shortest (d : Double) : Decimal :=
  if d.isZero then ⟨0, 0⟩ else stripZeros 20 (search d 17 (d.magnitude - 1))

end Collate.Double
