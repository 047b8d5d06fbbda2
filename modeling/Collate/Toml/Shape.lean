import Collate.Toml.Document

/-!
# Shapes of TOML values

What a value is read as: a text, a truth value, a natural number, one of several names, or a
structure with known parts. A name may also be written as a table of that name and nothing in it. A
structure is read from a table without unknown names, or from an array of the parts in their order,
which may end early; what goes beyond the last part is passed over.
-/

namespace Collate.Toml.Shape

variable {α σ : Type}

def text? : Value → Option String
  | .string s => some s
  | _ => none

def boolean? : Value → Option Bool
  | .boolean b => some b
  | _ => none

def natural? (limit : Nat) : Value → Option Nat
  | .integer base written =>
    match Scalar.integer? base written.toList with
    | some (.ofNat n) => if n ≤ limit then some n else none
    | _ => none
  | _ => none

def isVoid : Value → Bool
  | .array [] => true
  | .table _ [] => true
  | _ => false

def variant? (known : String → Option α) : Value → Option α
  | .string s => known s
  | .table _ [(name, v)] => if isVoid v then known name else none
  | _ => none

/-- A named part of a structure: reading its value puts it into the structure read so far. -/
structure Slot (σ : Type) where
  name : String
  read? : Value → σ → Option σ

def slot (name : String) (read? : Value → Option α) (set : α → σ → σ) : Slot σ :=
  ⟨name, fun v s => (read? v).map fun a => set a s⟩

def named? (slots : List (Slot σ)) (rows : List (String × Value)) (start : σ) : Option σ :=
  rows.foldlM (fun s row => (slots.find? fun slot => slot.name == row.1).bind fun slot =>
    slot.read? row.2 s) start

def inOrder? : List (Slot σ) → List Value → σ → Option σ
  | slot :: slots, v :: vs, s => (slot.read? v s).bind (inOrder? slots vs)
  | _, _, s => some s

def structured? (slots : List (Slot σ)) (start : σ) : Value → Option σ
  | .table _ rows => named? slots rows start
  | .array vs => inOrder? slots vs start
  | .tables vs => inOrder? slots vs start
  | _ => none

end Collate.Toml.Shape
