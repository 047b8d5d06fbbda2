import Collate.Message.Basic

/-!
# Random identities

The identity made of 128 random bits: 32 digits in five fields, of which the first of the third
field tells how it was made, and that of the fourth begins with the bits one and zero.
-/

namespace Collate.MessageId

def hexDigits : Nat → Nat → List Char
  | 0, _ => []
  | width + 1, n => hexDigits width (n / 16) ++ [Json.hexDigit (n % 16)]

def ofBits (bits : Nat) : MessageId :=
  let field (width shift : Nat) : String := String.ofList (hexDigits width (bits >>> shift))
  let variant := String.ofList [Json.hexDigit (8 + (bits >>> 60) % 4)]
  ⟨field 8 96 ++ "-" ++ field 4 80 ++ "-4" ++ field 3 64 ++ "-" ++ variant ++ field 3 48 ++ "-"
    ++ field 12 0⟩

end Collate.MessageId
