import Collate.Config
import Collate.Console
import Collate.Intake
import Collate.Reaper

/-!
# Sessions

One run of the program: it is configured, opens its log and its input, hands the lines of the input
to a handler while a reaper passes over the store, and ends with the input or at a signal. What
comes from outside is a happening at a time in milliseconds; the ticks of the reaper that are due
before it come first. The exit code says whether the run failed, or some line was not taken.
-/

namespace Collate

/-- What the program finds around it. -/
structure Surroundings where
  look : String → Found
  /-- What is in the way of the directories above a path. -/
  obstacle? : String → Option String
  /-- Where the configuration file usually is. -/
  usualConfig : Option String
  idOf : Nat → MessageId
  version : String
  /-- Whether colours are shown where the configuration asks for them. -/
  coloursShown : Bool
  time : Log.Format → String
  line : Option String

/-- How a run ended, and what it wrote last. -/
structure Ending where
  code : Nat
  console : Console

inductive Happening where
  | line (bytes : List UInt8)
  | signal
  /-- The input ends. -/
  | close

structure Session where
  machine : Machine Console
  coordinator : Shutdown.Coordinator
  intake : Intake.Run
  reaper : Reaper.Run
  /-- When the reaper ticks next, in milliseconds. -/
  nextTick : Nat

namespace Session

open Shutdown (Coordinator)

def styleOf (w : Surroundings) (c : LogSettings) : Log.Style :=
  ⟨c.format, c.color && w.coloursShown, w.time c.format, w.line⟩

def consoleOf (w : Surroundings) (c : Config) : Console :=
  .make c.logging.file.isSome ((Log.limit? c.logging.level).getD none) (styleOf w c.logging)
    c.output.appendNewline c.output.bufferSize

/-- A run that failed with something to report. -/
def failed (console : Console) (e : StartupError) : Ending :=
  ⟨1, console.printAll (Report.records e "correlate")⟩

/-- A run without a log, which says so on standard error. -/
def unlogged (console : Console) (e : LogFault) : Ending :=
  ⟨1, console.writeError (Utf8.bytes ("Error: " ++ (Failure.logging e).chain ++ "\n"))⟩

def starting (version : String) : Log.Record :=
  ⟨.info, .startup, "correlate " ++ version ++ " starting"⟩

/-- The handler of a session: aggregates to standard output, what expires to standard error. -/
def handlerOf (c : Config) (depot : DepotId) : Handler Console :=
  { Handler.standard depot Processor.aggregate with
    output := some Console.outputChannel
    discard := some Console.discardChannel
    settings := c.handler }

/-- A session whose input is open; `phase` is where its reading starts. -/
def opened (w : Surroundings) (c : Config) (console : Console) (phase : Intake.Phase) : Session :=
  let hub := Hub.initial console w.idOf
  let (hub, depot) := hub.openDepot c.capacity
  let (hub, built) := hub.build (handlerOf c depot)
  let handler := match built with
    | .ok h => h
    | .error _ => 0
  let plan : ReaperPlan :=
    ⟨depot, c.reaper.groupTimeoutMs, c.reaper.intervalMs, c.reaper.expireOnStop⟩
  let (coordinator, reaper) := Reaper.begin Coordinator.initial plan
  let (coordinator, intake) := Intake.begin coordinator handler []
  ⟨⟨hub, []⟩, coordinator, { intake with phase := phase }, reaper, Reaper.periodMs plan⟩

/-- Whether a path names a file: it ends in a name, and no directory has it. -/
def namesFile (look : String → Found) (path : String) : Bool :=
  (FileTree.names path).getLastD "" ∉ ["", ".", ".."] && look path ≠ .directory

/-- Opens the log. -/
def openLog (w : Surroundings) (c : Config) : Except Ending Console :=
  let console := consoleOf w c
  match c.logging.file with
  | none => .ok console
  | some path =>
    if !namesFile w.look path then .error (unlogged { console with file := none } .badPath)
    else
      match w.obstacle? path with
      | some cause => .error (unlogged { console with file := none } (.unwritable cause))
      | none => .ok console

/-- A session that waits for its first line, with all that a given input file holds. -/
def start (w : Surroundings) (a : Arguments) : Except Ending (Session × Option (List UInt8)) :=
  match Config.resolve w.look w.usualConfig a with
  | .error e => .error (failed (consoleOf w .standard) (.config e))
  | .ok c =>
    match openLog w c with
    | .error ending => .error ending
    | .ok console =>
      let console := console.print (starting w.version)
      match a.input with
      | none => .ok (opened w c console .checking, none)
      | some path =>
        match w.look path with
        | .nothing why => .error (failed console (.openInput path why.message))
        | .directory => .ok (opened w c console (.broken Found.directoryRead), some [])
        | .file bytes => .ok (opened w c console .checking, some bytes)

def console (s : Session) : Console := s.machine.hub.outside

def setConsole (s : Session) (c : Console) : Session :=
  { s with machine := { s.machine with hub := { s.machine.hub with outside := c } } }

/-- Prints what was logged since the last time. -/
def report (s : Session) : Session :=
  let c := s.console.printAll s.machine.hub.journal
  { s with machine := { s.machine with hub := { s.machine.hub with outside := c, journal := [] } } }

/-- Whether the input is not read any further. -/
def isOver (s : Session) : Bool := s.intake.phase.isFinal

def now (s : Session) : Nat := s.machine.hub.clock / nanosPerMilli

/-- Lets time go by up to a time in milliseconds. -/
def elapseTo (s : Session) (ms : Nat) : Session :=
  let nanos := ms * nanosPerMilli - s.machine.hub.clock
  { s with machine := { s.machine with hub := s.machine.hub.elapse nanos } }

/-- The next tick of the reaper. -/
def tick (s : Session) : Session :=
  let s := s.elapseTo s.nextTick
  let (c, m, r) := Reaper.tick s.coordinator s.machine s.reaper
  let next := s.nextTick + Reaper.periodMs s.reaper.plan
  { s with coordinator := c, machine := m, reaper := r, nextTick := next }.report

/-- All ticks up to a time, at most `fuel` of them. -/
def tickUpTo (ms : Nat) : Nat → Session → Session
  | 0, s => s
  | fuel + 1, s => if s.nextTick ≤ ms then tickUpTo ms fuel s.tick else s

def advanceTo (s : Session) (ms : Nat) : Session :=
  (tickUpTo ms (ms / Reaper.periodMs s.reaper.plan + 1) s).elapseTo ms

/-- One step of the intake. -/
def read (s : Session) (choice : Intake.Choice) : Session :=
  let (c, m, r) := Intake.step s.coordinator s.machine s.intake choice
  { s with coordinator := c, machine := m, intake := r }.report

def ready (s : Session) : Session := if s.intake.phase == .checking then s.read .line else s

def withLines (s : Session) (lines : List (List UInt8)) : Session :=
  { s with intake := { s.intake with lines := lines } }

def happen (s : Session) : Happening → Session
  | .line bytes => ((s.ready.withLines [bytes]).read .line).ready
  | .close => (s.ready.withLines []).read .line
  | .signal =>
    let signalled : Log.Record :=
      ⟨.info, .signal, "Shutdown signal received; finishing in-flight work"⟩
    let s := s.ready.setConsole (s.ready.console.print signalled)
    { s with coordinator := s.coordinator.trigger }.read .signal

def processed (s : Intake.Run) (expired : Nat) : Log.Record :=
  let m := s.summary
  ⟨.info, .startup, s!"Processed {m.lines} line(s): {m.accepted} accepted, " ++
    s!"{m.released} group(s) released, {expired} expired, {m.rejected} rejected, " ++
    s!"{m.malformed} malformed"⟩

/-- Stops the reaper and says how the run went. -/
def finish (s : Session) : Ending :=
  let (_, m, r) := Reaper.stop s.coordinator s.machine s.reaper
  let s := { s with machine := m, reaper := r }.report
  match s.intake.phase with
  | .broken cause => failed s.console (.readInput cause)
  | _ =>
    ⟨if s.intake.summary.isClean then 0 else 2,
      s.console.print (processed s.intake s.reaper.total)⟩

/-- Plays happenings at their times until the input is not read any further. -/
def play : List (Nat × Happening) → Session → Session
  | [], s => s
  | (ms, h) :: rest, s => if s.isOver then s else play rest ((s.advanceTo ms).happen h)

/-- The happenings of an input that is there at once and stays open until `last`: an unfinished
line counts as one when the input ends. -/
def arriving (input : List UInt8) (last : Nat) : List (Nat × Happening) :=
  let whole := input.reverse.dropWhile (· ≠ 10) |>.reverse
  let tail := input.reverse.takeWhile (· ≠ 10) |>.reverse
  (splitLines [] whole).map (fun l => (0, .line l))
    ++ (splitLines [] tail).map (fun l => (last, .line l))

/-- A whole run over a given input that ends after `last` milliseconds, or at the signal. -/
def run (w : Surroundings) (a : Arguments) (input : List UInt8) (last : Nat)
    (signal? : Option Nat) : Ending :=
  match start w a with
  | .error ending => ending
  | .ok (s, some bytes) => (play (arriving bytes 0 ++ [(0, .close)]) s).finish
  | .ok (s, none) =>
    let signal := signal?.toList.map fun ms => (ms, Happening.signal)
    (play ((arriving input last).filter (·.1 = 0) ++ signal
      ++ (arriving input last).filter (·.1 ≠ 0) ++ [(last, .close)]) s).finish

end Session

end Collate
