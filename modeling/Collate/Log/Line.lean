import Collate.Json.Text
import Collate.Log

/-!
# Log lines

A record is shown as a line: its time, a tag for its level and its text, and on request the place it
comes from, or all of these as a JSON object. Colours dim the time and the place and set off the tag
by its level.
-/

namespace Collate.Log

inductive Format where
  | text
  | ext
  | json
  deriving DecidableEq, Inhabited

namespace Format

def name : Format → String
  | .text => "text"
  | .ext => "ext"
  | .json => "json"

def ofName? (s : String) : Option Format :=
  if s = "text" then some .text
  else if s = "ext" then some .ext
  else if s = "json" then some .json
  else none

theorem ofName?_name (f : Format) : ofName? f.name = some f := by
  cases f <;> decide

end Format

/-- What a named level lets through: nothing, or all records at least as severe. -/
def limit? (name : String) : Option (Option Level) :=
  let lower := String.ofList (name.toList.map Char.toLower)
  if lower = "off" then some none
  else if lower = "error" then some (some .error)
  else if lower = "warn" then some (some .warn)
  else if lower = "info" then some (some .info)
  else if lower = "debug" then some (some .debug)
  else if lower = "trace" then some (some .trace)
  else none

def isLetThrough (limit : Option Level) (r : Record) : Bool :=
  limit.any fun level => r.level.rank ≤ level.rank

namespace Level

def tag : Level → String
  | .error => "ERR"
  | .warn => "WRN"
  | .info => "INF"
  | .debug => "DBG"
  | .trace => "TRC"

def colour : Level → String
  | .error => "1;31"
  | .warn => "33"
  | .info => "32"
  | .debug => "34"
  | .trace => "35"

end Level

namespace Origin

/-- The place shown for a part of the program. -/
def place : Origin → String
  | .startup => "app/startup.rs"
  | .intake => "app/input.rs"
  | .report => "core/error_handling.rs"
  | .signal => "core/shutdown.rs"
  | .draft => "message/builder.rs"
  | .stream => "stream/consumer.rs"
  | .handler => "aggregator/handler.rs"
  | .reaper => "store/reaper.rs"

end Origin

/-- How lines look: the format, whether in colour, and what stands for the time and, behind a place,
for its line number. -/
structure Style where
  format : Format
  isColoured : Bool
  time : String
  line : Option String

namespace Style

def paint (s : Style) (codes text : String) : String :=
  if s.isColoured then "\x1b[" ++ codes ++ "m" ++ text ++ "\x1b[0m" else text

def dim (s : Style) (text : String) : String := s.paint "2" text

def place (s : Style) (o : Origin) : String :=
  o.place ++ ((s.line.map fun n => ":" ++ n).getD "")

def head (s : Style) (r : Record) : String :=
  s.dim s.time ++ " " ++ s.paint r.level.colour r.level.tag ++ " " ++ r.text

def object (s : Style) (r : Record) : Json.Value :=
  .obj [("timestamp", .string s.time), ("level", .string r.level.tag), ("message", .string r.text),
    ("target", .string (s.place r.origin))]

def render (s : Style) (r : Record) : String :=
  match s.format with
  | .text => s.head r
  | .ext => s.head r ++ " (" ++ s.dim (s.place r.origin) ++ ")"
  | .json => (s.object r).text

end Style

end Collate.Log
