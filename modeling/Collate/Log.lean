/-!
# Log records

What the library has to say is returned as records: a level, the part of the program that speaks,
and a text. A journal is a list of records in the order in which they were made. Records that only
follow the course of a call, at debug and trace level, are left out everywhere.
-/

namespace Collate.Log

inductive Level where
  | error
  | warn
  | info
  | debug
  | trace
  deriving DecidableEq, Inhabited

namespace Level

/-- The least severe level has the highest rank. -/
def rank : Level → Nat
  | .error => 1
  | .warn => 2
  | .info => 3
  | .debug => 4
  | .trace => 5

def name : Level → String
  | .error => "ERROR"
  | .warn => "WARN"
  | .info => "INFO"
  | .debug => "DEBUG"
  | .trace => "TRACE"

end Level

/-- The part of the program that speaks. -/
inductive Origin where
  | startup
  | intake
  | report
  | signal
  | draft
  | stream
  | handler
  | reaper
  deriving DecidableEq, Inhabited

structure Record where
  level : Level
  origin : Origin
  text : String
  deriving DecidableEq, Inhabited

abbrev Journal := List Record

/-- Records at least as severe as a level. -/
def atLeast (level : Level) (journal : Journal) : Journal :=
  journal.filter fun r => r.level.rank ≤ level.rank

end Collate.Log
