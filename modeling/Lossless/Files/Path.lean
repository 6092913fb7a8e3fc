/-! Paths as texts with slashes. -/

namespace Lossless.Path

/-- The parts between slashes; empty ones count for nothing. -/
def parts (path : String) : List String :=
  ((path.toList.splitOn '/').map String.ofList).filter (· != "")

def isAbsolute (path : String) : Bool :=
  path.toList.head? == some '/'

/-- A path seen from a directory. -/
def join (directory path : String) : String :=
  if isAbsolute path then path
  else if directory.toList.getLast? == some '/' then directory ++ path
  else directory ++ "/" ++ path

/-- The absolute path of parts. -/
def ofParts (parts : List String) : String :=
  "/" ++ "/".intercalate parts

/-- The last part, unless it leads upwards. -/
def fileName? (path : String) : Option String :=
  match (parts path).filter (· != ".") |>.getLast? with
  | some ".." => none
  | name => name

/-- What follows the last dot of the file name; a dot in front of a name starts no extension. -/
def extension? (path : String) : Option String :=
  match fileName? path with
  | none => none
  | some name =>
    match (name.toList.reverse.span (· != '.')) with
    | (_, []) | (_, [_]) => none
    | (reversed, _) => some (String.ofList reversed.reverse)

end Lossless.Path
