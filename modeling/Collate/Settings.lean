import Collate.Handler
import Collate.Json.Reader
import Collate.Json.Text

/-!
# Handler settings as JSON

The lock timeout in milliseconds, if there is one, and the name of the expiry action.
-/

namespace Collate.HandlerSettings

open Json (Reader)

def slots : List (Reader.Slot HandlerSettings) :=
  [⟨"lock_timeout_ms", fun _ s =>
      (Reader.optional (Reader.natural Numeral.maxU64)).map fun v => { s with lockTimeoutMs := v }⟩,
    ⟨"expiry_action", fun depth s =>
      (Reader.variant depth ExpiryAction.ofName?).map fun a => { s with expiryAction := a }⟩]

def parseJson (text : String) : Except Json.Fault HandlerSettings :=
  (Reader.structured slots Json.maxDepth .standard).all text

/-- The settings as text, the timeout first. -/
def jsonText (s : HandlerSettings) : String :=
  let timeout := match s.lockTimeoutMs with
    | none => "null"
    | some ms => Json.digits ms
  "\x7b\"lock_timeout_ms\":" ++ timeout ++ ",\"expiry_action\":\"" ++ s.expiryAction.name
    ++ "\"\x7d"

end Collate.HandlerSettings
