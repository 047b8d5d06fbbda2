import Collate.Strategy.Correlation
import Collate.Strategy.Processor
import Collate.Strategy.Release

/-!
# Handlers

A handler gathers messages of one depot. It asks its correlation strategy for the key of a message
and its release strategy whether a group is complete, hands complete groups to its processor, and
decides what becomes of its groups that expire. Strategies are code of the outside and may panic.
-/

namespace Collate

/-- What becomes of a group that expires. -/
inductive ExpiryAction where
  | discard
  | forceComplete
  deriving DecidableEq, Inhabited

namespace ExpiryAction

def name : ExpiryAction → String
  | .discard => "discard"
  | .forceComplete => "force-complete"

def ofName? (s : String) : Option ExpiryAction :=
  if s = "discard" then some .discard
  else if s = "force-complete" then some .forceComplete
  else none

theorem ofName?_name (a : ExpiryAction) : ofName? a.name = some a := by
  cases a <;> decide

end ExpiryAction

structure HandlerSettings where
  lockTimeoutMs : Option Nat
  expiryAction : ExpiryAction
  deriving DecidableEq, Inhabited

namespace HandlerSettings

def standard : HandlerSettings := ⟨none, .discard⟩

/-- In microseconds, the finest unit in which a lock timeout is shown. -/
def lockTimeoutMicros (s : HandlerSettings) : Option Nat := s.lockTimeoutMs.map (· * 1000)

end HandlerSettings

structure Handler (σ : Type) where
  depot : DepotId
  correlation : Message → Attempt (Option Key)
  release : Group → Attempt Bool
  processor : Processor σ
  output : Option (Channel σ)
  discard : Option (Channel σ)
  settings : HandlerSettings

namespace Handler

variable {σ : Type}

/-- A handler with the usual strategies and no channels. -/
def standard (depot : DepotId) (processor : Processor σ) : Handler σ where
  depot := depot
  correlation m := .returned (Correlation.byHeader Correlation.defaultHeader m)
  release g := .returned (Release.bySequenceSize g)
  processor := processor
  output := none
  discard := none
  settings := .standard

/-- What the processor does with a group; without an output channel there is nothing it could. -/
def process (h : Handler σ) (g : Group) : Script σ (Except ProcessingError Unit) :=
  match h.output with
  | none => .done (.error .noOutputChannel)
  | some output => h.processor g output

/-- The end of a wait for a key that begins now, if waiting has an end. -/
def deadline (h : Handler σ) (now : Instant) : Option Instant :=
  h.settings.lockTimeoutMs.map fun ms => now + ms * nanosPerMilli

end Handler

end Collate
