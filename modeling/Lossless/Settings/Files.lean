import Lossless.Files.Basic
import Lossless.Settings.Reader

/-! Settings from files: a file that is named, or the nearest one on the way up. -/

namespace Lossless.Settings

variable {m : Type → Type} [Monad m]

def fileNames : List String :=
  ["splice.toml", ".splice.toml", "splice.json"]

def firstFile (fs : FileSystem m) : List String → m (Option String)
  | [] => return none
  | path :: rest => do
    if ← fs.isFile path then return some path else firstFile fs rest

/-- The nearest settings file at a place or above it; the place is given upside down. -/
def discoverFrom (fs : FileSystem m) (place : List String) : m (Option String) := do
  match ← firstFile fs (fileNames.map fun name => Path.ofParts (name :: place).reverse) with
  | some path => return some path
  | none =>
    match place with
    | [] => return none
    | _ :: above => discoverFrom fs above

/-- The nearest settings file at a path or above it. -/
def discover (fs : FileSystem m) (start : String) : m (Except Error (Option String)) := do
  match ← fs.resolve start with
  | .ok place => return .ok (← discoverFrom fs place.reverse)
  | .error fault => return .error (.settings (.badStart fault))

/-- Settings in the form that the extension of a path names. -/
def ofText (path text : String) : Except Error Settings :=
  let settings := match Path.extension? path with
    | some "toml" => ofToml text
    | some "json" => ofJson text
    | _ => .error .unknownExtension
  settings.mapError fun fault => .settings (.inFile path fault)

def ofFile (fs : FileSystem m) (path : String) : m (Except Error Settings) := do
  match ← fs.read path with
  | .ok text => return ofText path text
  | .error fault => return .error (.file path fault)

/-- The settings of a named file, else of the nearest file, else the defaults. -/
def load (fs : FileSystem m) (named : Option String) (start : String) :
    m (Except Error Settings) := do
  match named with
  | some path =>
    if ← fs.isThere path then ofFile fs path
    else return .error (.settings (.fileMissing path))
  | none =>
    match ← discover fs start with
    | .ok (some path) => ofFile fs path
    | .ok none => return .ok {}
    | .error e => return .error e

end Lossless.Settings
