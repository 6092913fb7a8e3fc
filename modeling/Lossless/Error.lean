import Lossless.Grammar.Basic
import Lossless.Span

/-! Everything that can be refused or can fail, as causes, with one wording for each. -/

namespace Lossless

inductive BuildFault where
  | secondRoot (kind : Kind)
  | nothingOpen
  | tokenNotFound (text : String) (cursor : Nat)
  | commentNotFound (text : String) (cursor : Nat)
  | outsideNodes (span : Span)
  | badSpan (span : Span) (cursor length : Nat)
  | leftOpen (count : Nat)
  | noRoot
deriving DecidableEq, Repr

inductive ConversionFault where
  | malformed
  | badSpan (typeName : String) (span : Span) (length : Nat)
deriving DecidableEq, Repr

/-- What the file system answers instead of a file. -/
inductive FileFault where
  | missing
  | notADirectory
  | isADirectory
  | other (complaint : String)
deriving DecidableEq, Repr

inductive SettingsFault where
  | malformed
  | noCapacity
  | noWidth (language : Language)
  | unknownExtension
  | fileMissing (path : String)
  | badStart (fault : FileFault)
  | inFile (path : String) (fault : SettingsFault)
deriving DecidableEq, Repr

inductive Error where
  | lineUnavailable (line : Nat) (available : List Nat)
  | kindMismatch (container found : Kind)
  | emptyContainer (container : Kind)
  | notAnElement (container : Kind)
  | indexOutOfBounds (container : Kind) (index length : Nat)
  | notAList (kind : Kind)
  | notAnOptional (kind : Kind)
  | rootRemoval
  | build (fault : BuildFault)
  | conversion (fault : ConversionFault)
  | missingFrontend (language : Language)
  | settings (fault : SettingsFault)
  | file (path : String) (fault : FileFault)
  | detachedNode
  | missingChild
  | frontend (complaint : String)
deriving DecidableEq, Repr

namespace BuildFault

def message : BuildFault → String
  | secondRoot kind => "second root node " ++ kind.name
  | nothingOpen => "finish_node without an open node"
  | tokenNotFound text cursor =>
    "token '" ++ text ++ "' not found after offset " ++ toString cursor
  | commentNotFound text cursor =>
    "comment '" ++ text ++ "' not found after offset " ++ toString cursor
  | outsideNodes span => "token at " ++ span.render ++ " outside of any node"
  | badSpan span cursor length =>
    "range " ++ span.render ++ " is out of order or out of bounds (cursor " ++ toString cursor ++
      ", length " ++ toString length ++ ")"
  | leftOpen count => toString count ++ " node(s) left open"
  | noRoot => "no root node"

end BuildFault

namespace ConversionFault

def message : ConversionFault → String
  | malformed => "invalid parse tree"
  | badSpan typeName span length =>
    typeName ++ " node spans " ++ span.render ++ ", which is not a character range of a " ++
      toString length ++ "-byte source"

end ConversionFault

namespace FileFault

def message : FileFault → String
  | missing => "No such file or directory (os error 2)"
  | notADirectory => "Not a directory (os error 20)"
  | isADirectory => "Is a directory (os error 21)"
  | other complaint => complaint

end FileFault

namespace SettingsFault

def message : SettingsFault → String
  | malformed => "malformed settings"
  | noCapacity => "cache.maxEntries must be at least 1"
  | noWidth language => "indentation.defaultWidth." ++ language.name ++ " must be at least 1"
  | unknownExtension => "Unsupported file extension (expected .toml or .json)"
  | fileMissing path => "Config file not found: " ++ path
  | badStart fault => "Invalid path: " ++ fault.message
  | inFile path fault => "Failed to load config from '" ++ path ++ "': " ++ fault.message

end SettingsFault

inductive Error.Category where
  /-- The caller asked for an edit that the document does not offer. -/
  | contract
  | build
  | conversion
  | frontend
  | settings
  | file
  | internal
deriving DecidableEq, Repr

/-- A list of numbers as it stands in a message. -/
def renderNumbers (ns : List Nat) : String :=
  "[" ++ ", ".intercalate (ns.map toString) ++ "]"

namespace Error

def message : Error → String
  | lineUnavailable line available =>
    "Line " ++ toString line ++ " is not available for insertion (available: " ++
      renderNumbers available ++ ")"
  | kindMismatch container found => container.name ++ " cannot hold a " ++ found.name ++ " node"
  | emptyContainer container => container.name ++ " has no element to remove"
  | notAnElement container => "Node is not an element of " ++ container.name
  | indexOutOfBounds container index length =>
    "Index " ++ toString index ++ " is out of bounds for " ++ container.name ++ " with " ++
      toString length ++ " elements"
  | notAList kind => kind.name ++ " is not a list container"
  | notAnOptional kind => kind.name ++ " is not a optional container"
  | rootRemoval => "The root node cannot be removed"
  | build fault => "Build error: " ++ fault.message
  | conversion fault => "Conversion error: " ++ fault.message
  | missingFrontend language => "No parser frontend registered for " ++ language.name
  | settings fault => "Configuration error: " ++ fault.message
  | file path fault => "IO error for path '" ++ path ++ "': " ++ fault.message
  | detachedNode => "Internal error: cannot replace a detached node"
  | missingChild => "Internal error: node missing from its parent"
  | frontend complaint => "Internal error: " ++ complaint

def category : Error → Category
  | lineUnavailable .. | kindMismatch .. | emptyContainer .. | notAnElement ..
  | indexOutOfBounds .. | notAList .. | notAnOptional .. | rootRemoval => .contract
  | build .. => .build
  | conversion .. => .conversion
  | missingFrontend .. => .frontend
  | settings .. => .settings
  | file .. => .file
  | detachedNode | missingChild | frontend .. => .internal

/-- Another request may succeed. -/
def isRecoverable (e : Error) : Bool :=
  e.category == .contract

end Error

/-- A refused request counts as an absent answer; every other error stays. -/
def recoverable {α : Type} : Except Error α → Except Error (Option α)
  | .ok a => .ok (some a)
  | .error e => if e.isRecoverable then .ok none else .error e

end Lossless
