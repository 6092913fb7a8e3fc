import Lossless.Error
import Lossless.Files.Path

/-! What settings and commands ask of a file system, and file systems that are held in memory. -/

namespace Lossless

structure FileSystem (m : Type → Type) where
  /-- The parts of the absolute path, without `.` and `..`. -/
  resolve : String → m (Except FileFault (List String))
  isFile : String → m Bool
  isThere : String → m Bool
  read : String → m (Except FileFault String)

/-- Files and directories by the parts of their absolute paths. -/
structure FileTable where
  files : List (List String × String) := []
  directories : List (List String) := []
  /-- The directory that relative paths start from. -/
  here : List String := []

namespace FileTable

/-- Directories that were made, and those that lead to a file or to another directory. -/
def isDirectory (table : FileTable) (parts : List String) : Bool :=
  parts.isEmpty ||
    table.directories.any (parts.isPrefixOf ·) ||
    table.files.any fun (file, _) => parts.isPrefixOf file && parts != file

def content? (table : FileTable) (parts : List String) : Option String :=
  (table.files.filter (·.1 == parts)).getLast?.map (·.2)

/-- Follow parts from a place; only directories lead on. -/
def follow (table : FileTable) : List String → List String → Except FileFault (List String)
  | place, [] => .ok place
  | place, part :: rest =>
    if table.isDirectory place then
      if part = "." then table.follow place rest
      else if part = ".." then table.follow place.dropLast rest
      else table.follow (place ++ [part]) rest
    else if (table.content? place).isSome then .error .notADirectory
    else .error .missing

/-- A slash at the end asks for a directory. -/
def resolve (table : FileTable) (path : String) : Except FileFault (List String) := do
  if path = "" then throw .missing
  let start := if Path.isAbsolute path then [] else table.here
  let closing := if path.toList.getLast? == some '/' then ["."] else []
  let place ← table.follow start (Path.parts path ++ closing)
  if table.isDirectory place || (table.content? place).isSome then return place
  else throw .missing

def read (table : FileTable) (path : String) : Except FileFault String := do
  match table.content? (← table.resolve path) with
  | some text => return text
  | none => throw .isADirectory

def isFile (table : FileTable) (path : String) : Bool :=
  match table.resolve path with
  | .ok place => (table.content? place).isSome
  | .error _ => false

def isThere (table : FileTable) (path : String) : Bool :=
  match table.resolve path with
  | .ok _ => true
  | .error _ => false

def fileSystem (table : FileTable) : FileSystem Id where
  resolve := table.resolve
  isFile := table.isFile
  isThere := table.isThere
  read := table.read

end FileTable

end Lossless
