/-!
# Files

What stands at a path of a tree of directories and files. A path is followed name by name from the
root: an empty name or a point stays where it is, two points lead one level up, and all three can
only be asked of a directory. Directories that are missing above a new file are made on the way.
-/

namespace Collate

/-- Why nothing is found at a path. -/
inductive Absence where
  | missing
  /-- A file stands where the path goes on. -/
  | notDirectory
  | nameTooLong
  deriving DecidableEq, Inhabited

namespace Absence

def message : Absence → String
  | .missing => "No such file or directory (os error 2)"
  | .notDirectory => "Not a directory (os error 20)"
  | .nameTooLong => "File name too long (os error 36)"

end Absence

/-- What is found at a path. -/
inductive Found where
  | nothing (why : Absence)
  | directory
  | file (bytes : List UInt8)
  deriving DecidableEq, Inhabited

namespace Found

/-- What is said of a directory that is read as a file. -/
def directoryRead : String := "Is a directory (os error 21)"

end Found

/-- A tree of files; a directory is there if it is named or something lies below it. -/
structure FileTree where
  files : List (List String × List UInt8)
  directories : List (List String)
  deriving Inhabited

namespace FileTree

/-- The most bytes that a name may have. -/
def longestName : Nat := 255

/-- The most bytes that a path may have. -/
def longestPath : Nat := 4095

def isDirectory (t : FileTree) (place : List String) : Bool :=
  place.isEmpty || t.directories.any place.isPrefixOf
    || t.files.any fun file => place.isPrefixOf file.1 && place.length < file.1.length

def isFile (t : FileTree) (place : List String) : Bool := (t.files.lookup place).isSome

/-- The place that a name leads to from another. -/
def step (t : FileTree) (place : List String) (name : String) : Except Absence (List String) :=
  if !t.isDirectory place then .error (if t.isFile place then .notDirectory else .missing)
  else if name = "" ∨ name = "." then .ok place
  else if name = ".." then .ok place.dropLast
  else if longestName < name.utf8ByteSize then .error .nameTooLong
  else .ok (place ++ [name])

def names (path : String) : List String := path.splitOn "/"

def look (t : FileTree) (path : String) : Found :=
  if path.isEmpty then .nothing .missing
  else if longestPath < path.utf8ByteSize then .nothing .nameTooLong
  else
    match (names path).foldlM t.step [] with
    | .error why => .nothing why
    | .ok place =>
      match t.files.lookup place with
      | some bytes => .file bytes
      | none => if t.isDirectory place then .directory else .nothing .missing

/-- Makes directories one below the other and returns the last one, or says what is in the way. -/
def makeDirectories : FileTree → List String → List String → Except String (FileTree × List String)
  | t, place, [] => .ok (t, place)
  | t, place, name :: below =>
    match t.step place name with
    | .error why => .error why.message
    | .ok place =>
      if !t.isFile place then
        makeDirectories { t with directories := place :: t.directories } place below
      else if below.isEmpty then .error "File exists (os error 17)"
      else .error Absence.notDirectory.message

/-- Makes the directories above a path. -/
def makeAbove (t : FileTree) (path : String) : Except String (FileTree × List String) :=
  t.makeDirectories [] ((names path).dropLast.filter fun name => name ≠ "" ∧ name ≠ ".")

/-- What is in the way of the directories above a path. -/
def obstacle? (t : FileTree) (path : String) : Option String :=
  match t.makeAbove path with
  | .error text => some text
  | .ok _ => none

/-- Writes a file, and makes the directories above it. -/
def put (t : FileTree) (path : String) (bytes : List UInt8) : FileTree :=
  match t.makeAbove path with
  | .error _ => t
  | .ok (t, place) => { t with files := (place ++ [(names path).getLastD ""], bytes) :: t.files }

end FileTree

end Collate
