import Lossless.Command.Report
import Lossless.Command.Usage
import Lossless.Document.Record
import Lossless.Edit.Lines
import Lossless.Factory
import Lossless.Settings.Files

/-! Running requests: dump a document, check it, or list the lines that its lists offer. -/

namespace Lossless.Command

structure Outcome where
  exit : Nat := 0
  stdout : String := ""
  stderr : String := ""
deriving DecidableEq, Repr

inductive Failure where
  | error (error : Error)
  | unknownLanguage (path : String)
  | unreadable (path : String) (fault : FileFault)
  | badTree (path : String) (error : Error)
  | changed (before after : Nat)
  | gaveUp (fault : Fault) (report : String)
  | noNode (kind : Kind) (path : String)

namespace Failure

def message : Failure → String
  | error (.file path fault) => (Error.file path fault).message ++ ": " ++ fault.message
  | error e => e.message
  | unknownLanguage path =>
    "cannot infer the language of '" ++ path ++ "', pass --language"
  | unreadable path fault => "failed to read '" ++ path ++ "': " ++ fault.message
  | badTree path e => "in '" ++ path ++ "': " ++ e.message
  | changed before after =>
    "round trip changed the source (" ++ toString before ++ " bytes in, " ++ toString after ++
      " bytes out)"
  | gaveUp f _ =>
    "syntax error at line " ++ toString (f.line + 1) ++ ", column " ++ toString (f.column + 1)
  | noNode kind path => "no " ++ kind.name ++ " node in '" ++ path ++ "'"

def report : Failure → String
  | gaveUp _ report => report
  | _ => ""

def outcome (failure : Failure) : Outcome :=
  { exit := 1, stderr := failure.report ++ "error: " ++ failure.message ++ "\n" }

end Failure

def languageOfPath? (path : String) : Option Language :=
  match Path.extension? path with
  | some "py" | some "pyi" => some .python
  | some "js" | some "mjs" | some "cjs" | some "jsx" => some .javaScript
  | _ => none

/-! ### Commands on a document -/

def check (settings : Settings) (path source : String) (doc : Document) :
    Except Failure String :=
  if doc.text ≠ source ∧ settings.stripHidden = false then
    .error (.changed source.utf8ByteSize doc.text.utf8ByteSize)
  else match doc.fault with
    | some fault => .error (.gaveUp fault (Report.render path source fault))
    | none =>
      .ok ("ok: " ++ toString doc.order.length ++ " tokens, " ++ toString doc.comments.length ++
        " comments, indentation " ++ Text.quoted doc.indentUnit ++ "\n")

/-- One line for each list of a kind; containers that are no lists are passed over. -/
def listLines (doc : Document) (kind : Kind) (found : List Branch) : Except Failure String :=
  found.foldlM (fun text b => do
    match recoverable (doc.availableLines b) with
    | .ok (some lines) =>
      return text ++ kind.name ++ " " ++ (doc.byteRange (.branch b)).render ++ ": " ++
        renderNumbers lines ++ "\n"
    | .ok none => return text
    | .error e => throw (.error e)) ""

def lines (path : String) (doc : Document) (kind : Kind) : Except Failure String :=
  match doc.findAll kind with
  | [] => .error (.noNode kind path)
  | found => listLines doc kind found

def perform (settings : Settings) (invocation : Invocation) (source : String) (doc : Document) :
    Except Failure String :=
  match invocation.task with
  | .dump false => .ok (doc.dump ++ "\n")
  | .dump true => .ok (doc.dumpJson ++ "\n")
  | .check => check settings invocation.source source doc
  | .lines kind => lines invocation.source doc kind

def documentOf (settings : Settings) (invocation : Invocation) (language : Language)
    (source tree : String) : Except Failure Document := do
  let parsed ← (ParseTree.parse tree).mapError (Failure.badTree invocation.tree)
  let factory := (Factory.ofSettings settings).register language fun _ => .ok parsed
  (factory.parse 0 source language).1.mapError Failure.error

/-! ### Requests -/

variable {m : Type → Type} [Monad m]

/-- Find the language, read source and tree, and perform the task. -/
def runWith (fs : FileSystem m) (settings : Settings) (invocation : Invocation) :
    m (Except Failure String) := do
  match invocation.language.or (languageOfPath? invocation.source) with
  | none => return .error (.unknownLanguage invocation.source)
  | some language =>
    match ← fs.read invocation.source with
    | .error fault => return .error (.unreadable invocation.source fault)
    | .ok source =>
      match ← fs.read invocation.tree with
      | .error fault => return .error (.unreadable invocation.tree fault)
      | .ok tree =>
        return documentOf settings invocation language source tree >>=
          perform settings invocation source

/-- Settings come from the file that the arguments name, or from the directory that the command
runs in and those above it. -/
def run (fs : FileSystem m) (invocation : Invocation) : m (Except Failure String) := do
  match ← Settings.load fs invocation.config "." with
  | .error e => return .error (.error e)
  | .ok settings => runWith fs settings invocation

def execute (fs : FileSystem m) (args : List String) : m Outcome := do
  match parse args with
  | .error fault => return { exit := 2, stderr := fault.text }
  | .ok .version => return { stdout := versionText }
  | .ok (.help topic) => return { stdout := topic.text }
  | .ok (.run invocation) =>
    match ← run fs invocation with
    | .ok text => return { stdout := text }
    | .error failure => return failure.outcome

end Lossless.Command
