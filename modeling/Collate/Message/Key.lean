/-!
# Correlation keys

Messages with the same key belong together. A key is a text; keys are ordered by their characters,
which is the order of their UTF-8 bytes.
-/

namespace Collate

structure Key where
  text : String
  deriving DecidableEq, Inhabited

namespace Key

def ofNat (n : Nat) : Key := ⟨toString n⟩

instance : ToString Key := ⟨Key.text⟩

instance : Ord Key := ⟨fun a b => compare a.text b.text⟩

end Key

end Collate
