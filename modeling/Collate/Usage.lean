import Collate.Arguments

/-!
# Help

The text that explains the command line: what the program does, its options with the texts about
them in one column, and what its input looks like.
-/

namespace Collate.Usage

/-- An option as the help text shows it. -/
structure Row where
  letter : Option Char
  name : String
  /-- What stands for its value. -/
  value : Option String
  about : String

def rows : List Row :=
  [⟨some 'i', "input", some "FILE", "Read messages from FILE instead of standard input"⟩,
    ⟨some 'c', "config-file", some "FILE", "Configuration file path"⟩,
    ⟨some 'l', "log-level", some "LEVEL",
      "Log level [possible values: " ++ ", ".intercalate Arguments.levels ++ "]"⟩,
    ⟨some 'o', "log-format", some "FORMAT", "Log output format"⟩,
    ⟨some 'f', "log-file", some "FILE", "Also write the log to FILE"⟩,
    ⟨some 't', "group-timeout-ms", some "MS", "Expire groups idle for this many milliseconds"⟩,
    ⟨none, "reaper-interval-ms", some "MS", "Pause between expiry passes"⟩,
    ⟨some 'e', "expiry-action", some "ACTION", "What to do with groups that expire incomplete"⟩,
    ⟨none, "lock-timeout-ms", some "MS", "Reject a message when its group stays busy this long"⟩,
    ⟨none, "capacity", some "COUNT", "Maximum number of messages held across all groups"⟩,
    ⟨none, "newline", none, "Write a newline after every output message (default)"⟩,
    ⟨none, "no-newline", none, "Write output messages back to back"⟩,
    ⟨some 'h', "help", none, "Print help"⟩,
    ⟨some 'V', "version", none, "Print version"⟩]

section Text

variable (isColoured : Bool)

def bold (s : String) : String := if isColoured then "\x1b[1m" ++ s ++ "\x1b[0m" else s

def heading (s : String) : String := if isColoured then "\x1b[1m\x1b[4m" ++ s ++ "\x1b[0m" else s

/-- The width of the column of names, with the gap behind it. -/
def columnWidth : Nat := 27

def Row.text (r : Row) : String :=
  let letter := match r.letter with
    | some c => bold isColoured ("-" ++ c.toString) ++ ", "
    | none => "    "
  let value := match r.value with
    | some v => " <" ++ v ++ ">"
    | none => ""
  let gap := "".pushn ' ' (columnWidth - ("--" ++ r.name ++ value).length)
  "  " ++ letter ++ bold isColoured ("--" ++ r.name) ++ value ++ gap ++ r.about ++ "\n"

/-- The help text of the program under the name it was called by. -/
def text (program : String) : String :=
  "Group related messages and release each group once it is complete\n\n" ++
  heading isColoured "Usage:" ++ " " ++ bold isColoured program ++ " [OPTIONS]\n\n" ++
  heading isColoured "Options:" ++ "\n" ++
  String.join (rows.map (Row.text isColoured)) ++
  "\nInput is newline-delimited JSON, one message per line:\n" ++
  "  \x7b\"correlation_id\": \"order-1\", \"sequence_number\": 1, \"sequence_size\": 2, " ++
  "\"payload\": \"...\"\x7d\n"

end Text

end Collate.Usage
