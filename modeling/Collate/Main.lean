import Collate.Log.Clock
import Collate.Message.Identity
import Collate.Session
import Collate.Usage
import Std.Time.DateTime.Timestamp

/-!
# The command line

Gathers what a session needs from around it, feeds it the lines of its input as they come and the
time that goes by, and writes out what it prints.
-/

open Collate

namespace Collate.Main

def absence : IO.Error → Absence
  | .inappropriateType .. => .notDirectory
  | .invalidArgument .. => .nameTooLong
  | _ => .missing

/-- What is found at a path; a directory opens but cannot be read. -/
def find (path : String) : IO Found := do
  match ← (IO.FS.Handle.mk path IO.FS.Mode.read).toBaseIO with
  | .error e => return .nothing (absence e)
  | .ok _ =>
    match ← (IO.FS.readBinFile path).toBaseIO with
    | .error _ => return .directory
    | .ok bytes => return .file bytes.toList

def survey (paths : List String) : IO (String → Found) := do
  let found ← paths.mapM fun path => do return (path, ← find path)
  return fun path => (found.lookup path).getD (.nothing .missing)

def nowMillis : IO Nat := do
  let now ← Std.Time.Timestamp.now
  return now.toMillisecondsSinceUnixEpoch.val.toNat

def parent (path : String) : String := "/".intercalate ((path.splitOn "/").dropLast)

/-- Makes the directories above a path, or says what is in the way. -/
def makeAbove (path : String) : IO (Option String) := do
  if (parent path).isEmpty then return none
  match ← (IO.FS.createDirAll (parent path)).toBaseIO with
  | .ok _ => return none
  | .error (.alreadyExists ..) => return some "File exists (os error 17)"
  | .error e => return some (absence e).message

/-- A log file, which is made when its first line is written. -/
structure LogFile where
  path : String
  handle : IO.Ref (Option IO.FS.Handle)

def LogFile.write (log : LogFile) (bytes : ByteArray) : IO Unit := do
  let handle ← match ← log.handle.get with
    | some handle => pure handle
    | none => IO.FS.Handle.mk log.path .write
  log.handle.set (some handle)
  handle.write bytes
  handle.flush

def bytesOf (bs : List UInt8) : ByteArray := ⟨bs.toArray⟩

/-- Writes out what a console holds. -/
def emit (log? : Option LogFile) (c : Console) : IO Console := do
  let out ← IO.getStdout
  let err ← IO.getStderr
  if !c.outText.isEmpty then
    out.write (bytesOf c.outText)
    out.flush
  if !c.errText.isEmpty then
    err.write (bytesOf c.errText)
    err.flush
  match log?, c.file with
  | some log, some (b :: bs) => log.write (bytesOf (b :: bs))
  | _, _ => pure ()
  return c.clear

/-- The bytes of the input up to the end of a line, after those of `line`, the last one first. -/
partial def readLine (input : IO.FS.Stream) (line : List UInt8) : IO (List UInt8) := do
  match (← input.read 1).toList with
  | [] => return line.reverse
  | b :: _ => if b = 10 then return (b :: line).reverse else readLine input (b :: line)

def nextLine (input : IO.FS.Stream) : IO Happening := do
  match splitLines [] (← readLine input []) with
  | [] => return .close
  | bytes :: _ => return .line bytes

def stamped (s : Session) : IO Session := do
  let time := Log.Clock.text (← nowMillis) s.console.style.format
  return s.setConsole { s.console with style := { s.console.style with time := time } }

/-- Serves lines and ticks until the session is over. -/
partial def serve (log? : Option LogFile) (input : IO.FS.Stream) (began : Nat)
    (coming : Task (Except IO.Error Happening)) (s : Session) : IO Session := do
  let s := (← stamped s).advanceTo ((← IO.monoMsNow) - began)
  let isThere ← IO.hasFinished coming
  let s := if isThere then s.happen (coming.get.toOption.getD .close) else s
  let s := s.setConsole (← emit log? s.console)
  if s.isOver then return s
  else if isThere then serve log? input began (← (nextLine input).asTask) s
  else
    IO.sleep 2
    serve log? input began coming s

def surroundings (a : Arguments) : IO Surroundings := do
  let usual := Config.usualPath (← IO.getEnv "XDG_CONFIG_HOME") (← IO.getEnv "HOME")
  let paths := [a.configFile, usual, a.input, a.logFile].filterMap id
  let look ← survey paths
  let log? := Config.logPath? look usual a
  let look ← survey (paths ++ log?.toList)
  let obstacle ← match log? with
    | some path => if Session.namesFile look path then makeAbove path else pure none
    | none => pure none
  let seed := (← IO.getRandomBytes 16).toList.foldl (fun n b => n * 256 + b.toNat) 0
  let now ← nowMillis
  return {
    look := look
    obstacle? := fun _ => obstacle
    usualConfig := usual
    idOf := fun n => MessageId.ofBits (seed + n * 0x9E3779B97F4A7C15F39CC0605CEDC835)
    version := Arguments.version
    coloursShown := (← IO.getEnv "CLICOLOR_FORCE").any (· ≠ "0") || (← (← IO.getStdout).isTty)
    time := Log.Clock.text now
    line := none }

def run (a : Arguments) : IO UInt32 := do
  let w ← surroundings a
  match Session.start w a with
  | .error ending =>
    let _ ← emit none ending.console
    return UInt32.ofNat ending.code
  | .ok (s, given) =>
    let log? ← (Config.logPath? w.look w.usualConfig a).mapM fun path => do
      return LogFile.mk path (← IO.mkRef none)
    let s := s.setConsole (← emit log? s.console)
    let s ← match given with
      | some bytes => pure (Session.play (Session.arriving bytes 0 ++ [(0, .close)]) s)
      | none =>
        let input ← IO.getStdin
        serve log? input (← IO.monoMsNow) (← (nextLine input).asTask) s
    let ending := (← stamped s).finish
    let _ ← emit log? ending.console
    return UInt32.ofNat ending.code

end Collate.Main

def main (words : List String) : IO UInt32 := do
  match Arguments.parse words with
  | .error .help =>
    let program := ((← IO.appPath).toString.splitOn "/").getLastD ""
    IO.print (Usage.text (← (← IO.getStdout).isTty) program)
    return 0
  | .error .version =>
    IO.print Arguments.versionText
    return 0
  | .error r =>
    IO.eprintln ("error: " ++ r.message)
    return 2
  | .ok a => Collate.Main.run a
