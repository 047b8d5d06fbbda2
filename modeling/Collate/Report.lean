import Collate.Failure
import Collate.Log

/-!
# Reports

A failure that its operator can mend is reported in its own words, any other only by what was being
done. The detail follows at debug level: the failure's text, then the text of each of its sources.
What is said at trace level, the failure in the form of its data, is left out.
-/

namespace Collate

/-- Failures that know whether an operator can mend them. -/
class Reported (ε : Type) where
  failure : ε → Failure
  /-- Whether its text means something to the operator. -/
  isActionable : ε → Bool
  /-- What to tell the operator. -/
  userMessage? : ε → Option String

namespace HandlerError

def isActionable : HandlerError → Bool
  | .correlation _ => true
  | .lockTimeout .. => true
  | .store (.capacityExceeded _) => true
  | .store _ => false
  | .groupProcessing _ source => source matches .noOutputChannel

def userMessage? : HandlerError → Option String
  | .correlation id => some (HandlerError.correlation id).message
  | .lockTimeout key milliseconds => some (HandlerError.lockTimeout key milliseconds).message
  | .store (.capacityExceeded capacity) =>
    some ((StoreError.capacityExceeded capacity).message ++ " (raise [store] capacity)")
  | .groupProcessing key .noOutputChannel =>
    some s!"Group '{key}' was released but no output channel is configured"
  | _ => none

end HandlerError

namespace ConfigError

def isActionable (_ : ConfigError) : Bool := true

def userMessage? (e : ConfigError) : Option String := some (Failure.config e).chain

end ConfigError

namespace StartupError

def isActionable : StartupError → Bool
  | .config e => e.isActionable
  | .openInput .. => true
  | _ => false

def userMessage? : StartupError → Option String
  | .config e => e.userMessage?
  | .openInput path cause => some s!"Cannot open input {path}: {cause.text}"
  | _ => none

end StartupError

instance : Reported HandlerError := ⟨.handler, HandlerError.isActionable, HandlerError.userMessage?⟩

instance : Reported ConfigError := ⟨.config, ConfigError.isActionable, ConfigError.userMessage?⟩

instance : Reported StartupError := ⟨.startup, StartupError.isActionable, StartupError.userMessage?⟩

namespace Report

/-- The records of the sources of a failure, from the nearest to the farthest. -/
def causes (e : Failure) : Log.Journal :=
  match _h : e.source? with
  | none => []
  | some c => ⟨.debug, .report, "CAUSED BY: " ++ c.message⟩ :: causes c
termination_by e.depth
decreasing_by exact Failure.depth_source _h

def headline {ε : Type} [Reported ε] (e : ε) (context : String) : String :=
  match (Reported.userMessage? e).filter fun _ => Reported.isActionable e with
  | some message => context ++ ": " ++ message
  | none => context ++ " failed"

/-- What is logged about a failure met while doing `context`. -/
def records {ε : Type} [Reported ε] (e : ε) (context : String) : Log.Journal :=
  ⟨.error, .report, headline e context⟩
    :: ⟨.debug, .report, "DETAIL: " ++ (Reported.failure e).message⟩
    :: causes (Reported.failure e)

/-- The text about a lock whose holder gave up inside it. -/
def poisoned (kind guarded : String) : String :=
  s!"Internal synchronisation error ({kind} poisoned while guarding {guarded}). " ++
    "A thread panicked while holding the lock."

end Report

end Collate
