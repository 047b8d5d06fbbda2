import Collate.Dictionary

/-!
# TOML values and tables

A table remembers how it came about, since that decides who may still add to it: a table with a
header of its own, one that a longer header implies, one written by dotted keys, or one in braces. A
header may complete an implied table once; dotted keys add to tables made by dotted keys; a table in
braces is complete as it stands. Numbers and points in time are kept as they are written, and what
number an integer is shows only when somebody asks for it.
-/

namespace Collate.Toml

/-- How a table came about. -/
inductive Origin where
  | header
  | implied
  | dotted
  | braces
  deriving DecidableEq, Inhabited

inductive Value where
  | string (s : String)
  /-- Sign and digits, without the base in front and without underscores. -/
  | integer (base : Nat) (written : String)
  | boolean (b : Bool)
  | float (written : String)
  | moment (written : String)
  | array (items : List Value)
  | table (origin : Origin) (rows : List (String × Value))
  /-- The tables that share a header in double brackets. -/
  | tables (items : List Value)
  deriving Inhabited

/-- A table taken apart. -/
structure Table where
  origin : Origin
  rows : List (String × Value)
  deriving Inhabited

namespace Table

def root : Table := ⟨.header, []⟩

def value (t : Table) : Value := .table t.origin t.rows

def get? (t : Table) (name : String) : Option Value := Rows.get? t.rows name

def set (t : Table) (name : String) (v : Value) : Table :=
  { t with rows := Rows.insert name v t.rows }

/-- Who reaches into a table: a header, or dotted keys in front of a value. -/
inductive Reach where
  | header
  | keys
  deriving DecidableEq

/-- How a table comes about that is missing on the way. -/
def Reach.made : Reach → Origin
  | .header => .implied
  | .keys => .dotted

def Reach.passes : Reach → Origin → Bool
  | .header, o => o != .braces
  | .keys, o => o == .dotted || o == .implied

/-- Changes the table at the end of a path. The way may lead through the last table of a list. -/
def change (reach : Reach) (f : Table → Option Table) : List String → Table → Option Table
  | [], t => f t
  | name :: path, t =>
    match t.get? name with
    | none => (change reach f path ⟨reach.made, []⟩).map fun inner => t.set name inner.value
    | some (.table origin rows) =>
      if reach.passes origin then
        (change reach f path ⟨origin, rows⟩).map fun inner => t.set name inner.value
      else none
    | some (.tables items) =>
      match reach, items.getLast? with
      | .header, some (.table origin rows) =>
        (change reach f path ⟨origin, rows⟩).map fun inner =>
          t.set name (.tables (items.dropLast ++ [inner.value]))
      | _, _ => none
    | some _ => none

/-- Adds a value whose name is free. -/
def add (name : String) (v : Value) (t : Table) : Option Table :=
  match t.get? name with
  | none => some (t.set name v)
  | some _ => none

/-- Adds a value under dotted keys: the last one names it, the others lead to its table. -/
def put : List String → Value → Table → Option Table
  | [], _, _ => none
  | [name], v, t => t.add name v
  | name :: path, v, t =>
    change .keys (fun inner => if inner.origin = .dotted then inner.add (path.getLastD "") v
      else none) (name :: path.dropLast) t

/-- Gives a table its header. -/
def openTable (name : String) (t : Table) : Option Table :=
  match t.get? name with
  | none => some (t.set name (.table .header []))
  | some (.table .implied rows) => some (t.set name (.table .header rows))
  | some _ => none

/-- Starts one more table of a list. -/
def openItem (name : String) (t : Table) : Option Table :=
  match t.get? name with
  | none => some (t.set name (.tables [.table .header []]))
  | some (.tables items) => some (t.set name (.tables (items ++ [.table .header []])))
  | some _ => none

end Table

end Collate.Toml
