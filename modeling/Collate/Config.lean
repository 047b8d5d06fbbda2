import Collate.Arguments
import Collate.Failure
import Collate.Files
import Collate.Text.Utf8
import Collate.Toml.Shape

/-!
# Configuration

Every setting has a default, which a configuration file replaces and the command line replaces in
turn; what comes out is checked at the end, so a bad value that is replaced does no harm. The file
named on the command line has to be there, the usual one need not.
-/

namespace Collate

structure LogSettings where
  level : String
  format : Log.Format
  file : Option String
  color : Bool
  deriving DecidableEq, Inhabited

structure ReaperSettings where
  groupTimeoutMs : Nat
  intervalMs : Nat
  expireOnStop : Bool
  deriving DecidableEq, Inhabited

structure OutputSettings where
  appendNewline : Bool
  /-- In bytes; zero asks for the usual size. -/
  bufferSize : Nat
  deriving DecidableEq, Inhabited

structure Config where
  logging : LogSettings
  handler : HandlerSettings
  reaper : ReaperSettings
  capacity : Option Nat
  output : OutputSettings
  deriving DecidableEq, Inhabited

namespace Config

def standard : Config where
  logging := ⟨"info", .text, none, false⟩
  handler := .standard
  reaper := ⟨60000, 1000, true⟩
  capacity := none
  output := ⟨true, 0⟩

section Files

open Toml.Shape (Slot slot text? boolean? natural? variant? structured? named?)

def logSlots : List (Slot LogSettings) :=
  [slot "level" text? fun v s => { s with level := v },
    slot "format" (variant? Log.Format.ofName?) fun v s => { s with format := v },
    slot "file" text? fun v s => { s with file := some v },
    slot "color" boolean? fun v s => { s with color := v }]

def handlerSlots : List (Slot HandlerSettings) :=
  [slot "lock_timeout_ms" (natural? Numeral.maxU64) fun v s => { s with lockTimeoutMs := some v },
    slot "expiry_action" (variant? ExpiryAction.ofName?) fun v s => { s with expiryAction := v }]

def reaperSlots : List (Slot ReaperSettings) :=
  [slot "group_timeout_ms" (natural? Numeral.maxU64) fun v s => { s with groupTimeoutMs := v },
    slot "interval_ms" (natural? Numeral.maxU64) fun v s => { s with intervalMs := v },
    slot "expire_on_stop" boolean? fun v s => { s with expireOnStop := v }]

def storeSlots : List (Slot (Option Nat)) :=
  [slot "capacity" (natural? Numeral.maxU64) fun v _ => some v]

def outputSlots : List (Slot OutputSettings) :=
  [slot "append_newline" boolean? fun v s => { s with appendNewline := v },
    slot "buffer_size" (natural? Numeral.maxU64) fun v s => { s with bufferSize := v }]

def slots : List (Slot Config) :=
  [slot "logging" (structured? logSlots standard.logging) fun v c => { c with logging := v },
    slot "handler" (structured? handlerSlots standard.handler) fun v c => { c with handler := v },
    slot "reaper" (structured? reaperSlots standard.reaper) fun v c => { c with reaper := v },
    slot "store" (structured? storeSlots standard.capacity) fun v c => { c with capacity := v },
    slot "output" (structured? outputSlots standard.output) fun v c => { c with output := v }]

/-- Reads a configuration file, if it is one. -/
def parse? (text : String) : Option Config :=
  (Toml.parse? text).bind fun t => named? slots t.rows standard

/-- Reads a file of handler settings alone. -/
def parseHandler? (text : String) : Option HandlerSettings :=
  (Toml.parse? text).bind fun t => named? handlerSlots t.rows .standard

end Files

/-- What the command line says goes before what the configuration says. -/
def apply (c : Config) (a : Arguments) : Config where
  logging :=
    ⟨a.logLevel.getD c.logging.level, a.logFormat.getD c.logging.format,
      a.logFile.or c.logging.file, c.logging.color⟩
  handler :=
    ⟨a.lockTimeoutMs.or c.handler.lockTimeoutMs, a.expiryAction.getD c.handler.expiryAction⟩
  reaper :=
    ⟨a.groupTimeoutMs.getD c.reaper.groupTimeoutMs, a.reaperIntervalMs.getD c.reaper.intervalMs,
      c.reaper.expireOnStop⟩
  capacity := a.capacity.or c.capacity
  output := ⟨a.newline.getD c.output.appendNewline, c.output.bufferSize⟩

def validate (c : Config) : Except ConfigError Unit :=
  if (Log.limit? c.logging.level).isNone then
    .error (.validation "logging.level" s!"'{c.logging.level}' is not a log level")
  else if c.reaper.groupTimeoutMs = 0 then
    .error (.validation "reaper.group_timeout_ms" "must be greater than 0")
  else if c.reaper.intervalMs = 0 then
    .error (.validation "reaper.interval_ms" "must be greater than 0")
  else if c.capacity = some 0 then
    .error (.validation "store.capacity" "must be greater than 0 when set")
  else .ok ()

/-- Where the configuration file usually is: under the directory for configurations, or the one in a
home directory. -/
def usualPath (configs home : Option String) : Option String :=
  (configs.or (home.map (· ++ "/.config"))).map (· ++ "/Correlate/correlate.toml")

def decode (path : String) : Found → Except ConfigError Config
  | .nothing why => .error (.read path why.message)
  | .directory => .error (.read path Found.directoryRead)
  | .file bytes =>
    match Utf8.decode? bytes with
    | none => .error (.read path Utf8.refusal)
    | some cs =>
      match parse? (String.ofList cs) with
      | none => .error (.parse path "not a configuration")
      | some c => .ok c

/-- The configuration of the file named, else of the usual file if it is there, else the default. -/
def load (look : String → Found) (usual : Option String) (named : Option String) :
    Except ConfigError Config :=
  match named, usual with
  | some path, _ =>
    match look path with
    | .nothing _ => .error (.notFound path)
    | found => decode path found
  | none, some path =>
    match look path with
    | .nothing _ => .ok standard
    | found => decode path found
  | none, none => .ok standard

def resolve (look : String → Found) (usual : Option String) (a : Arguments) :
    Except ConfigError Config :=
  match load look usual a.configFile with
  | .error e => .error e
  | .ok c => (c.apply a).validate.map fun _ => c.apply a

/-- Where the log of a run goes, if that is a file. -/
def logPath? (look : String → Found) (usual : Option String) (a : Arguments) : Option String :=
  match resolve look usual a with
  | .error _ => none
  | .ok c => c.logging.file

end Config

end Collate
