import Collate.Log.Line

/-!
# The time of a log line

The date and the time of day, in universal time, of a count of milliseconds since the year 1970.
Years are counted from March, so that a leap day is the last day of its year.
-/

namespace Collate.Log.Clock

structure Date where
  year : Nat
  month : Nat
  day : Nat
  deriving DecidableEq

/-- The date of a day, counted from the first of January 1970. -/
def dateOf (days : Nat) : Date :=
  let day := days + 719468
  let era := day / 146097
  let ofEra := day % 146097
  let yearOfEra := (ofEra - ofEra / 1460 + ofEra / 36524 - ofEra / 146096) / 365
  let ofYear := ofEra - (365 * yearOfEra + yearOfEra / 4 - yearOfEra / 100)
  let month := (5 * ofYear + 2) / 153
  let day := ofYear - (153 * month + 2) / 5 + 1
  let year := era * 400 + yearOfEra
  if 10 ≤ month then ⟨year + 1, month - 9, day⟩ else ⟨year, month + 3, day⟩

def padded (width n : Nat) : String :=
  let ds := Json.digits n
  Json.zeros (width - ds.length) ++ ds

def dateText (d : Date) : String :=
  padded 4 d.year ++ "-" ++ padded 2 d.month ++ "-" ++ padded 2 d.day

def timeText (millis : Nat) : String :=
  let seconds := millis / 1000
  padded 2 (seconds / 3600) ++ ":" ++ padded 2 (seconds / 60 % 60) ++ ":" ++ padded 2 (seconds % 60)
    ++ "." ++ padded 3 (millis % 1000)

def millisPerDay : Nat := 86400000

/-- As log lines of a format show it. -/
def text (millis : Nat) (format : Format) : String :=
  let date := dateText (dateOf (millis / millisPerDay))
  let time := timeText (millis % millisPerDay)
  match format with
  | .json => date ++ "T" ++ time ++ "Z"
  | _ => date ++ " " ++ time

end Collate.Log.Clock
