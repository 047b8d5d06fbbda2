import Collate.Handler
import Collate.Log.Line
import Collate.Text.Numeral

/-!
# Command lines

An option takes its value from the same word, behind an equals sign or, for the short form, right
behind the letter, or else from the next word. Its value is looked at only when the next option or
the end of the line comes, so an unknown word, or a switch with a value, is refused before a bad
value in front of it. No option may be given twice; of the two switches for newlines the last one
counts.
-/

namespace Collate

/-- Why a command line is not run. -/
inductive Refusal where
  /-- A value that is none of those allowed, or is missing. -/
  | invalidValue
  /-- A value that cannot be read. -/
  | unreadableValue
  | unknownWord
  /-- An option was given twice. -/
  | conflict
  /-- A switch was given a value. -/
  | surplusValue
  | help
  | version
  deriving DecidableEq, Inhabited

namespace Refusal

def message : Refusal → String
  | .invalidValue => "an option lacks its value or has one that is not allowed"
  | .unreadableValue => "a value cannot be read"
  | .unknownWord => "unexpected argument"
  | .conflict => "an option is given twice"
  | .surplusValue => "a switch takes no value"
  | .help => "help"
  | .version => "version"

end Refusal

structure Arguments where
  input : Option String
  configFile : Option String
  logLevel : Option String
  logFormat : Option Log.Format
  logFile : Option String
  groupTimeoutMs : Option Nat
  reaperIntervalMs : Option Nat
  expiryAction : Option ExpiryAction
  lockTimeoutMs : Option Nat
  capacity : Option Nat
  /-- Output ends in a newline. -/
  newlineOn : Bool
  /-- Output does not. -/
  newlineOff : Bool
  deriving DecidableEq, Inhabited

/-- The options that take a value. -/
inductive Setting where
  | input
  | configFile
  | logLevel
  | logFormat
  | logFile
  | groupTimeout
  | reaperInterval
  | expiryAction
  | lockTimeout
  | capacity
  deriving DecidableEq, Inhabited

/-- What a name on the command line stands for. -/
inductive Flag where
  | setting (o : Setting)
  | newline (on : Bool)
  | help
  | version
  deriving DecidableEq, Inhabited

namespace Flag

def ofName? : String → Option Flag
  | "input" => some (.setting .input)
  | "config-file" => some (.setting .configFile)
  | "log-level" => some (.setting .logLevel)
  | "log-format" => some (.setting .logFormat)
  | "log-file" => some (.setting .logFile)
  | "group-timeout-ms" => some (.setting .groupTimeout)
  | "reaper-interval-ms" => some (.setting .reaperInterval)
  | "expiry-action" => some (.setting .expiryAction)
  | "lock-timeout-ms" => some (.setting .lockTimeout)
  | "capacity" => some (.setting .capacity)
  | "newline" => some (.newline true)
  | "no-newline" => some (.newline false)
  | "help" => some .help
  | "version" => some .version
  | _ => none

def ofLetter? : Char → Option Flag
  | 'i' => some (.setting .input)
  | 'c' => some (.setting .configFile)
  | 'l' => some (.setting .logLevel)
  | 'o' => some (.setting .logFormat)
  | 'f' => some (.setting .logFile)
  | 't' => some (.setting .groupTimeout)
  | 'e' => some (.setting .expiryAction)
  | 'h' => some .help
  | 'V' => some .version
  | _ => none

end Flag

namespace Arguments

def none : Arguments where
  input := .none
  configFile := .none
  logLevel := .none
  logFormat := .none
  logFile := .none
  groupTimeoutMs := .none
  reaperIntervalMs := .none
  expiryAction := .none
  lockTimeoutMs := .none
  capacity := .none
  newlineOn := false
  newlineOff := false

/-- What is asked for about newlines, if anything is. -/
def newline (a : Arguments) : Option Bool :=
  if a.newlineOn then some true else if a.newlineOff then some false else .none

def levels : List String := ["trace", "debug", "info", "warn", "error", "off"]

def path (value : String) : Except Refusal String :=
  if value.isEmpty then .error .invalidValue else .ok value

def level (value : String) : Except Refusal String :=
  if value ∈ levels then .ok value else .error .invalidValue

def readable {α : Type} : Option α → Except Refusal α
  | some a => .ok a
  | .none => .error .unreadableValue

def number (value : String) : Except Refusal Nat :=
  readable (Numeral.parse? Numeral.maxU64 value.toList)

def version : String := "0.1.0"

def versionText : String := "correlate " ++ version ++ "\n"

/-- Sets what is not set yet. -/
def once {α : Type} (old : Option α) (new : Except Refusal α) (set : Option α → Arguments) :
    Except Refusal Arguments :=
  match old with
  | some _ => .error .conflict
  | .none => new.map fun a => set (some a)

def set (a : Arguments) (value : String) : Setting → Except Refusal Arguments
  | .input => once a.input (path value) fun v => { a with input := v }
  | .configFile => once a.configFile (path value) fun v => { a with configFile := v }
  | .logLevel => once a.logLevel (level value) fun v => { a with logLevel := v }
  | .logFormat =>
    once a.logFormat (readable (Log.Format.ofName? value)) fun v => { a with logFormat := v }
  | .logFile => once a.logFile (path value) fun v => { a with logFile := v }
  | .groupTimeout => once a.groupTimeoutMs (number value) fun v => { a with groupTimeoutMs := v }
  | .reaperInterval =>
    once a.reaperIntervalMs (number value) fun v => { a with reaperIntervalMs := v }
  | .expiryAction =>
    once a.expiryAction (readable (ExpiryAction.ofName? value)) fun v =>
      { a with expiryAction := v }
  | .lockTimeout => once a.lockTimeoutMs (number value) fun v => { a with lockTimeoutMs := v }
  | .capacity => once a.capacity (number value) fun v => { a with capacity := v }

/-- Each switch takes the other one back. -/
def switch (a : Arguments) (on : Bool) : Except Refusal Arguments :=
  if (if on then a.newlineOn else a.newlineOff) then .error .conflict
  else .ok { a with newlineOn := on, newlineOff := !on }

/-- An option that was named and not looked at yet. -/
inductive Pending where
  | nothing
  | named (o : Setting)
  | valued (o : Setting) (value : String)

structure Progress where
  arguments : Arguments
  pending : Pending

/-- Looks at the option that is pending. -/
def settle (p : Progress) : Except Refusal Arguments :=
  match p.pending with
  | .nothing => .ok p.arguments
  | .named _ => .error .invalidValue
  | .valued o value => p.arguments.set value o

/-- Takes a flag, with the value attached to it. -/
def take (p : Progress) : Flag → Option String → Except Refusal Progress
  | .setting o, some value =>
    (settle p).bind fun a => (a.set value o).map fun a => ⟨a, .nothing⟩
  | .setting o, .none => (settle p).map fun a => ⟨a, .named o⟩
  | _, some _ => .error .surplusValue
  | .newline on, .none => (settle p).bind fun a => (a.switch on).map fun a => ⟨a, .nothing⟩
  | .help, .none => (settle p).bind fun _ => .error .help
  | .version, .none => (settle p).bind fun _ => .error .version

/-- A word behind two dashes: a name, and a value behind the first equals sign. -/
def long (p : Progress) (word : List Char) : Except Refusal Progress :=
  match Flag.ofName? (String.ofList (word.takeWhile (· ≠ '='))) with
  | .none => .error .unknownWord
  | some flag =>
    match word.dropWhile (· ≠ '=') with
    | [] => take p flag .none
    | _ :: value => take p flag (some (String.ofList value))

/-- What stands behind a letter as its value. -/
def attached? : List Char → Option String
  | [] => .none
  | '=' :: value => some (String.ofList value)
  | value => some (String.ofList value)

/-- The letters behind a dash, up to the first that takes a value. -/
def letters (p : Progress) : List Char → Except Refusal Progress
  | [] => .ok p
  | c :: rest =>
    match Flag.ofLetter? c with
    | .none => .error .unknownWord
    | some (.setting o) => take p (.setting o) (attached? rest)
    | some flag => (take p flag .none).bind fun p => letters p rest

/-- A word that names nothing: the value of an option that lacks one, or out of place. -/
def plain (p : Progress) (word : String) : Except Refusal Progress :=
  match p.pending with
  | .named o => .ok { p with pending := .valued o word }
  | _ => .error .unknownWord

def readWord (p : Progress) (word : String) : Except Refusal Progress :=
  match word.toList with
  | '-' :: '-' :: rest => long p rest
  | '-' :: c :: rest => letters p (c :: rest)
  | _ => plain p word

def readWords (p : Progress) : List String → Except Refusal Arguments
  | [] => settle p
  | word :: words =>
    if word = "--" then if words.isEmpty then settle p else .error .unknownWord
    else (readWord p word).bind fun p => readWords p words

def parse (words : List String) : Except Refusal Arguments := readWords ⟨none, .nothing⟩ words

end Arguments

end Collate
