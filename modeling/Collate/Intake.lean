import Collate.Record
import Collate.Report
import Collate.Shutdown
import Collate.Work.Machine

/-!
# Intake

Lines of input are handed to a handler one after another, until the input ends or a shutdown is
requested. A blank line is passed over, a malformed one is skipped with a warning, and a message
that the handler refuses is reported; none of them ends the run. Bytes that are no text do.
-/

namespace Collate

/-- Splits input into lines. A line ends with a line feed, and a carriage return right before it
belongs to the end; the last line may go without. The lines seen last come first. -/
def splitLines : List UInt8 → List UInt8 → List (List UInt8)
  | [], [] => []
  | current, [] => [current.reverse]
  | current, b :: rest =>
    if b = 10 then
      (match current with
        | 13 :: line => line.reverse
        | line => line.reverse) :: splitLines [] rest
    else splitLines (b :: current) rest

structure Summary where
  lines : Nat
  accepted : Nat
  released : Nat
  malformed : Nat
  rejected : Nat
  deriving DecidableEq, Inhabited

namespace Summary

def zero : Summary := ⟨0, 0, 0, 0, 0⟩

/-- Whether every line that said something was taken. -/
def isClean (s : Summary) : Bool := s.rejected == 0 && s.malformed == 0

end Summary

namespace Intake

variable {σ : Type}

def faultText : Json.Fault → String
  | .malformed => "not a JSON text"
  | .ended => "the text ends early"
  | .mismatch => "not a record"

def skipped (n : Nat) (f : Json.Fault) : Log.Record :=
  ⟨.warn, .intake, s!"Skipping malformed line {n}: {faultText f}"⟩

def interrupted (n : Nat) : Log.Record :=
  ⟨.error, .intake, s!"Handling line {n} failed: panicked"⟩

/-- What became of a line. -/
inductive Fate where
  | blank
  | malformed (f : Json.Fault)
  | handled (r : Attempt (Except HandlerError Handled))
  deriving Inhabited

def note (s : Machine σ) (journal : Log.Journal) : Machine σ :=
  { s with hub := { s.hub with journal := s.hub.journal ++ journal } }

/-- Makes the message of a record and hands it over. -/
def submit (s : Machine σ) (h : HandlerId) (r : Record) :
    Machine σ × Attempt (Except HandlerError Handled) :=
  let s := note s r.warnings
  let (hub, id) := s.hub.draw
  { s with hub := hub }.handle h (r.draft.finish id)

def feed (s : Machine σ) (h : HandlerId) (line : List Char) : Machine σ × Fate :=
  if (Text.trim line).isEmpty then (s, .blank)
  else
    match Record.parse (String.ofList line) with
    | .error f => (s, .malformed f)
    | .ok r => let (s, result) := submit s h r; (s, .handled result)

/-- The counters after a line. -/
def count (summary : Summary) (fate : Fate) : Summary :=
  let summary := { summary with lines := summary.lines + 1 }
  match fate with
  | .blank => summary
  | .malformed _ => { summary with malformed := summary.malformed + 1 }
  | .handled (.returned (.ok (.pending ..))) => { summary with accepted := summary.accepted + 1 }
  | .handled (.returned (.ok (.released ..))) =>
    { summary with accepted := summary.accepted + 1, released := summary.released + 1 }
  | .handled _ => { summary with rejected := summary.rejected + 1 }

/-- What is logged about line `n`. -/
def records (n : Nat) : Fate → Log.Journal
  | .malformed f => [skipped n f]
  | .handled .panicked => [interrupted n]
  | .handled (.returned (.error e)) => Report.records e s!"Handling line {n}"
  | _ => []

def take (s : Machine σ) (h : HandlerId) (summary : Summary) (line : List Char) :
    Machine σ × Summary :=
  let (s, fate) := feed s h line
  (note s (records (summary.lines + 1) fate), count summary fate)

/-- Where a run stands. -/
inductive Phase where
  | checking
  | waiting
  | over
  /-- The input could not be read. -/
  | broken (cause : String)
  deriving DecidableEq, Inhabited

/-- Whether no step changes anything any more. -/
def Phase.isFinal : Phase → Bool
  | .over => true
  | .broken _ => true
  | _ => false

structure Run where
  handler : HandlerId
  receiver : Nat
  lines : List (List UInt8)
  summary : Summary
  phase : Phase

/-- What a waiting run goes on with. -/
inductive Choice where
  | signal
  | line
  deriving DecidableEq

open Shutdown (Coordinator)

def begin (c : Coordinator) (h : HandlerId) (input : List UInt8) : Coordinator × Run :=
  let (c, receiver) := c.subscribe
  (c, ⟨h, receiver, splitLines [] input, .zero, .checking⟩)

/-- Takes the next line of a waiting run. -/
def nextLine (s : Machine σ) (r : Run) : Machine σ × Run :=
  match r.lines with
  | [] => (s, { r with phase := .over })
  | line :: rest =>
    match Utf8.decode? line with
    | none => (s, { r with phase := .broken Utf8.refusal, lines := rest })
    | some cs =>
      let (s, summary) := take s r.handler r.summary cs
      (s, { r with lines := rest, summary := summary, phase := .checking })

/-- One step of a run: it looks at the flag, then waits for a signal or a line. -/
def step (c : Coordinator) (s : Machine σ) (r : Run) (choice : Choice) :
    Coordinator × Machine σ × Run :=
  match r.phase with
  | .checking => (c, s, { r with phase := if c.requested then .over else .waiting })
  | .waiting =>
    match choice with
    | .signal =>
      if c.isPending r.receiver then
        ((c.receive r.receiver).1, s, { r with phase := .over })
      else (c, s, r)
    | .line => let (s, r) := nextLine s r; (c, s, r)
  | _ => (c, s, r)

/-- Steps that go on with the next line, until the run is over. -/
def finish : Nat → Coordinator → Machine σ → Run → Coordinator × Machine σ × Run
  | 0, c, s, r => (c, s, r)
  | fuel + 1, c, s, r =>
    if r.phase.isFinal then (c, s, r)
    else
      let (c, s, r) := step c s r .line
      finish fuel c s r

/-- A whole run over some bytes, with nothing else going on. -/
def process (c : Coordinator) (s : Machine σ) (h : HandlerId) (input : List UInt8) :
    Coordinator × Machine σ × Run :=
  let (c, r) := begin c h input
  finish (2 * r.lines.length + 3) c s r

end Intake

end Collate
