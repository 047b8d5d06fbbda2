import Collate.Dictionary
import Collate.Double

/-!
# JSON values

Integers within 64 bits are kept as integers and every other number as a double. The fields of an
object are rows in the order of a dictionary: put in one after another, the last of a name wins.
-/

namespace Collate.Json

inductive Number where
  | natural (n : Nat)
  /-- The number `-n`, for a positive `n`. -/
  | negative (n : Nat)
  | double (d : Double)
  deriving DecidableEq, Inhabited

namespace Number

/-- Equal as numbers of one form; an integer never equals a double. -/
def same : Number → Number → Bool
  | .double a, .double b => a.same b
  | a, b => a == b

end Number

inductive Value where
  | null
  | bool (b : Bool)
  | number (n : Number)
  | string (s : String)
  | array (items : List Value)
  | object (fields : List (String × Value))
  deriving Inhabited

namespace Value

def obj (fields : List (String × Value)) : Value :=
  .object (fields.foldl (fun rows f => Rows.insert f.1 f.2 rows) [])

def nat (n : Nat) : Value := .number (.natural n)

def field? (v : Value) (name : String) : Option Value :=
  match v with
  | .object fields => Rows.get? fields name
  | _ => none

mutual

/-- Equality of values, in which the two zeros are equal. -/
def same : Value → Value → Bool
  | .null, .null => true
  | .bool a, .bool b => a == b
  | .number a, .number b => a.same b
  | .string a, .string b => a == b
  | .array a, .array b => sameItems a b
  | .object a, .object b => sameFields a b
  | _, _ => false
termination_by structural v => v

def sameItems : List Value → List Value → Bool
  | [], [] => true
  | a :: as, b :: bs => same a b && sameItems as bs
  | _, _ => false
termination_by structural v => v

def sameFields : List (String × Value) → List (String × Value) → Bool
  | [], [] => true
  | (n, a) :: as, (m, b) :: bs => n == m && same a b && sameFields as bs
  | _, _ => false
termination_by structural v => v

end

end Value

end Collate.Json
