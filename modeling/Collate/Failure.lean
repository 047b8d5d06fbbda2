import Collate.Message.Basic

/-!
# Failures

What can go wrong, as causes: each kind of failure has its own type, and one that wraps another
keeps it. A delivery can fail of anything, so channel, processing and handler failures are defined
together. What the system or other code reports is known by its texts alone (`Mishap`). `Failure` is
any of them; it has a text of its own, without those of its sources, and at most one source directly
below it.
-/

namespace Collate

/-- What the system or other code reports: its text, and those of its sources, the nearest first. -/
structure Mishap where
  text : String
  causes : List String
  deriving DecidableEq, Inhabited

/-- A mishap that nothing else caused. -/
instance : Coe String Mishap := ⟨fun text => ⟨text, []⟩⟩

inductive StoreError where
  | capacityExceeded (capacity : Nat)
  | synchronisation (message : String)
  deriving DecidableEq, Inhabited

inductive StreamError where
  | io (e : Mishap)
  | synchronisation (message : String)
  deriving DecidableEq, Inhabited

mutual

inductive ChannelError where
  | full (channel : String) (capacity : Nat)
  | rejected (reason : String)
  | delivery (channel : String) (source : DeliveryFault)
  | synchronisation (message : String)

/-- What a delivery failed of. -/
inductive DeliveryFault where
  | io (e : Mishap)
  | stream (e : StreamError)
  | channel (e : ChannelError)
  | handler (e : HandlerError)

inductive ProcessingError where
  | noOutputChannel
  | channel (e : ChannelError)
  | aggregation (reason : String)

inductive HandlerError where
  | correlation (id : MessageId)
  | lockTimeout (key : Key) (milliseconds : Nat)
  | store (e : StoreError)
  | groupProcessing (key : Key) (source : ProcessingError)

end

instance : Inhabited ChannelError := ⟨.rejected ""⟩
instance : Inhabited DeliveryFault := ⟨.io default⟩
instance : Inhabited ProcessingError := ⟨.noOutputChannel⟩
instance : Inhabited HandlerError := ⟨.correlation default⟩

inductive ConfigError where
  | notFound (path : String)
  | read (path : String) (cause : Mishap)
  | parse (path : String) (detail : Mishap)
  | validation (field : String) (reason : String)
  deriving DecidableEq, Inhabited

/-- Why a log file cannot be had. -/
inductive LogFault where
  /-- The path names no file. -/
  | badPath
  /-- The directories above it cannot be made. -/
  | unwritable (cause : Mishap)
  /-- Anything else the logger says. -/
  | other (e : Mishap)
  deriving DecidableEq, Inhabited

inductive StartupError where
  | config (e : ConfigError)
  | logging (e : LogFault)
  | handler (e : HandlerError)
  | openInput (path : String) (cause : Mishap)
  | readInput (cause : Mishap)
  deriving Inhabited

/-- Any failure. -/
inductive Failure where
  | io (e : Mishap)
  | store (e : StoreError)
  | stream (e : StreamError)
  | channel (e : ChannelError)
  | processing (e : ProcessingError)
  | handler (e : HandlerError)
  | config (e : ConfigError)
  | logFile (e : LogFault)
  /-- The logger could not be set up. -/
  | logging (e : LogFault)
  | startup (e : StartupError)
  deriving Inhabited

namespace StoreError

def message : StoreError → String
  | .capacityExceeded capacity => s!"Message store is full (capacity: {capacity} messages)"
  | .synchronisation message => s!"Store synchronisation failed: {message}"

end StoreError

namespace StreamError

def message : StreamError → String
  | .io _ => "Writing to the character stream failed"
  | .synchronisation message => s!"Stream synchronisation failed: {message}"

end StreamError

namespace ChannelError

def message : ChannelError → String
  | .full channel capacity => s!"Channel '{channel}' is full (capacity: {capacity})"
  | .rejected reason => s!"Message rejected: {reason}"
  | .delivery channel _ => s!"Delivery to channel '{channel}' failed"
  | .synchronisation message => s!"Channel synchronisation failed: {message}"

end ChannelError

namespace ProcessingError

def message : ProcessingError → String
  | .noOutputChannel => "No output channel configured"
  | .channel _ => "Sending to the output channel failed"
  | .aggregation reason => s!"Aggregation failed: {reason}"

end ProcessingError

namespace HandlerError

def message : HandlerError → String
  | .correlation id => s!"Message {id.text} has no correlation key"
  | .lockTimeout key milliseconds =>
    s!"Timed out after {milliseconds}ms waiting for the lock on group '{key}'"
  | .store _ => "Message store operation failed"
  | .groupProcessing key _ =>
    s!"Processing of message group '{key}' failed; the group was discarded"

end HandlerError

namespace ConfigError

def message : ConfigError → String
  | .notFound path => s!"The specified configuration file does not exist: {path}"
  | .read path _ => s!"Error reading configuration file {path}"
  | .parse path _ => s!"Error parsing configuration file {path}"
  | .validation field reason => s!"Invalid value for '{field}': {reason}"

end ConfigError

namespace LogFault

def message : LogFault → String
  | .badPath => "Invalid input for deriving FileSpec"
  | .unwritable _ =>
    "Log cannot be written, e.g. because the configured output directory is not accessible"
  | .other e => e.text

end LogFault

namespace StartupError

def message : StartupError → String
  | .config _ => "Configuration failed"
  | .logging _ => "Logging setup failed"
  | .handler _ => "Handler setup failed"
  | .openInput path _ => s!"Cannot open input {path}"
  | .readInput _ => "Reading input failed"

end StartupError

namespace DeliveryFault

def failure : DeliveryFault → Failure
  | .io e => .io e
  | .stream e => .stream e
  | .channel e => .channel e
  | .handler e => .handler e

end DeliveryFault

namespace Failure

def message : Failure → String
  | .io e => e.text
  | .store e => e.message
  | .stream e => e.message
  | .channel e => e.message
  | .processing e => e.message
  | .handler e => e.message
  | .config e => e.message
  | .logFile e => e.message
  | .logging e => "Logger configuration failed: " ++ e.message
  | .startup e => e.message

/-- The failure directly below. -/
def source? : Failure → Option Failure
  | .io ⟨_, text :: causes⟩ => some (.io ⟨text, causes⟩)
  | .stream (.io e) => some (.io e)
  | .channel (.delivery _ source) => some source.failure
  | .processing (.channel e) => some (.channel e)
  | .handler (.store e) => some (.store e)
  | .handler (.groupProcessing _ source) => some (.processing source)
  | .config (.read _ cause) => some (.io cause)
  | .config (.parse _ detail) => some (.io detail)
  | .startup (.config e) => some (.config e)
  | .logFile (.unwritable cause) => some (.io cause)
  | .logFile (.other ⟨_, text :: causes⟩) => some (.io ⟨text, causes⟩)
  | .logging e => some (.logFile e)
  | .startup (.logging e) => some (.logging e)
  | .startup (.handler e) => some (.handler e)
  | .startup (.openInput _ cause) => some (.io cause)
  | .startup (.readInput cause) => some (.io cause)
  | _ => none

def streamDepth : StreamError → Nat
  | .io e => e.causes.length + 1
  | .synchronisation _ => 0

mutual

def channelDepth : ChannelError → Nat
  | .delivery _ source => faultDepth source + 1
  | _ => 0

def faultDepth : DeliveryFault → Nat
  | .io e => e.causes.length
  | .stream e => streamDepth e
  | .channel e => channelDepth e
  | .handler e => handlerDepth e

def processingDepth : ProcessingError → Nat
  | .channel e => channelDepth e + 1
  | _ => 0

def handlerDepth : HandlerError → Nat
  | .store _ => 1
  | .groupProcessing _ source => processingDepth source + 1
  | _ => 0

end

def configDepth : ConfigError → Nat
  | .read _ cause => cause.causes.length + 1
  | .parse _ detail => detail.causes.length + 1
  | _ => 0

def logDepth : LogFault → Nat
  | .badPath => 0
  | .unwritable cause => cause.causes.length + 1
  | .other e => e.causes.length

def startupDepth : StartupError → Nat
  | .config e => configDepth e + 1
  | .logging e => logDepth e + 2
  | .handler e => handlerDepth e + 1
  | .openInput _ cause => cause.causes.length + 1
  | .readInput cause => cause.causes.length + 1

/-- No failure has more sources below it than its depth. -/
def depth : Failure → Nat
  | .io e => e.causes.length
  | .store _ => 0
  | .stream e => streamDepth e
  | .channel e => channelDepth e
  | .processing e => processingDepth e
  | .handler e => handlerDepth e
  | .config e => configDepth e
  | .logFile e => logDepth e
  | .logging e => logDepth e + 1
  | .startup e => startupDepth e

theorem depth_failure (source : DeliveryFault) : source.failure.depth = faultDepth source := by
  cases source <;> simp [DeliveryFault.failure, depth, faultDepth]

theorem depth_source {e c : Failure} (h : e.source? = some c) : c.depth < e.depth := by
  unfold source? at h
  split at h <;> cases h
  case h_3 channel source =>
    have := depth_failure source
    show source.failure.depth < faultDepth source + 1
    omega
  all_goals simp [depth, streamDepth, processingDepth, handlerDepth, configDepth, logDepth,
    startupDepth]

/-- A failure and all its sources on one line. -/
def chain (e : Failure) : String :=
  match _h : e.source? with
  | none => e.message
  | some c => e.message ++ ": " ++ chain c
termination_by e.depth
decreasing_by exact depth_source _h

end Failure

end Collate
