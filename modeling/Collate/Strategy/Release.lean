import Collate.Group

/-!
# Release

When a group is complete: once it has as many messages as one of them declares, or once it has a
given number of messages.
-/

namespace Collate.Release

def bySequenceSize (g : Group) : Bool :=
  g.messages.any fun m => 0 < m.content.sequenceSize && m.content.sequenceSize ≤ g.size

/-- The number of messages asked for; at least one. -/
def threshold (n : Nat) : Nat := max n 1

def byCount (n : Nat) (g : Group) : Bool := threshold n ≤ g.size

end Collate.Release
