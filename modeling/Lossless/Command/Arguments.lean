import Lossless.Grammar.Basic

/-! The command line: options and words in order, read into a request. The first thing wrong with
the arguments, or the first request for help, ends the reading. -/

namespace Lossless.Command

inductive Name where
  | dump
  | check
  | lines
deriving DecidableEq, Repr

def Name.all : List Name := [.dump, .check, .lines]

def Name.text : Name → String
  | .dump => "dump"
  | .check => "check"
  | .lines => "lines"

inductive Flag where
  | config
  | verbose
  | tree
  | language
  | json
  | kind
  | help
  | version
deriving DecidableEq, Repr

namespace Flag

def long : Flag → String
  | config => "config"
  | verbose => "verbose"
  | tree => "tree"
  | language => "language"
  | json => "json"
  | kind => "kind"
  | help => "help"
  | version => "version"

def short? : Flag → Option Char
  | config => some 'c'
  | verbose => some 'v'
  | tree => some 't'
  | language => some 'l'
  | json => none
  | kind => some 'k'
  | help => some 'h'
  | version => some 'V'

def takesValue : Flag → Bool
  | config | tree | language | kind => true
  | verbose | json | help | version => false

/-- Flags that stand before the command. -/
def general : List Flag := [config, verbose, help, version]

/-- Flags that stand after a command. -/
def ofCommand : Name → List Flag
  | .dump => [tree, language, json, config, verbose, help]
  | .check => [tree, language, config, verbose, help]
  | .lines => [tree, language, kind, config, verbose, help]

end Flag

inductive UsageFault where
  | noArguments
  | noCommand
  | unknownCommand (word : String)
  | unknownArgument (argument : String)
  | missingValue (flag : Flag)
  | unwantedValue (flag : Flag)
  | badValue (flag : Flag) (value : String)
  | repeated (flag : Flag)
  | missing (flag : Flag)
  | missingSource
  | emptySource
deriving DecidableEq, Repr

def UsageFault.message : UsageFault → String
  | noArguments | noCommand => "a subcommand is required but one was not provided"
  | unknownCommand word => "unrecognized subcommand '" ++ word ++ "'"
  | unknownArgument argument => "unexpected argument '" ++ argument ++ "' found"
  | missingValue flag => "a value is required for '--" ++ flag.long ++ "' but none was supplied"
  | unwantedValue flag => "unexpected value for '--" ++ flag.long ++ "' found; no more were expected"
  | badValue flag value => "invalid value '" ++ value ++ "' for '--" ++ flag.long ++ "'"
  | repeated flag => "the argument '--" ++ flag.long ++ "' cannot be used multiple times"
  | missing flag => "the required argument '--" ++ flag.long ++ "' was not provided"
  | missingSource => "the required argument '<SOURCE>' was not provided"
  | emptySource => "a value is required for '<SOURCE>' but none was supplied"

inductive Task where
  | dump (json : Bool)
  | check
  | lines (kind : Kind)
deriving DecidableEq, Repr

structure Invocation where
  task : Task
  source : String
  tree : String
  language : Option Language := none
  config : Option String := none
deriving DecidableEq, Repr

inductive Topic where
  | program (long : Bool)
  | command (name : Name)
  | help
deriving DecidableEq, Repr

inductive Request where
  | run (invocation : Invocation)
  | version
  | help (topic : Topic)
deriving DecidableEq, Repr

/-! ### Options -/

inductive Event where
  | flag (flag : Flag) (value : Option String)
  /-- Help is asked for, in its long form or not. -/
  | help (long : Bool)
  | fault (fault : UsageFault)

/-- An argument that is taken for options, not for a word. -/
def isOption (arg : String) : Bool :=
  match arg.toList with
  | '-' :: _ :: _ => true
  | _ => false

/-- A flag whose value is the next argument. -/
def withNext (flag : Flag) : List String → Event × List String
  | [] => (.fault (.missingValue flag), [])
  | value :: rest =>
    if isOption value then (.fault (.missingValue flag), value :: rest)
    else (.flag flag (some value), rest)

/-- An equals sign between a short flag and its value is no part of the value. -/
def dropEquals : List Char → List Char
  | '=' :: rest => rest
  | cs => cs

/-- Short flags behind one dash; the last one may take the rest or the next argument as value. -/
def scanShort (known : List Flag) : List Char → List String → List Event × List String
  | [], rest => ([], rest)
  | c :: cs, rest =>
    match known.find? (·.short? == some c) with
    | none => ([.fault (.unknownArgument (String.ofList ['-', c]))], rest)
    | some .help => ([.help false], rest)
    | some flag =>
      if flag.takesValue then
        if cs.isEmpty then
          let (event, rest) := withNext flag rest
          ([event], rest)
        else ([.flag flag (some (String.ofList (dropEquals cs)))], rest)
      else
        let (events, rest) := scanShort known cs rest
        (.flag flag none :: events, rest)

/-- A flag behind two dashes, with its value behind an equals sign or in the next argument. -/
def scanLong (known : List Flag) (body : List Char) (rest : List String) :
    Event × List String :=
  let (name, value) := body.span (· != '=')
  match known.find? (·.long == String.ofList name) with
  | none => (.fault (.unknownArgument (String.ofList ('-' :: '-' :: name))), rest)
  | some flag =>
    match value with
    | [] =>
      if flag.takesValue then withNext flag rest
      else if flag = .help then (.help true, rest)
      else (.flag flag none, rest)
    | _ :: value =>
      if flag.takesValue then (.flag flag (some (String.ofList value)), rest)
      else (.fault (.unwantedValue flag), rest)

/-- What an argument of options says, and the arguments that remain. -/
def scan (known : List Flag) (arg : String) (rest : List String) : List Event × List String :=
  match arg.toList with
  | '-' :: '-' :: body =>
    let (event, rest) := scanLong known body rest
    ([event], rest)
  | _ :: body => scanShort known body rest
  | [] => ([], rest)

/-! ### What has been said -/

structure Draft where
  source : Option String := none
  config : Option String := none
  tree : Option String := none
  language : Option Language := none
  kind : Option Kind := none
  json : Bool := false

/-- A reading that ends early: with a fault or with an answer that needs no more arguments. -/
inductive Stop where
  | fault (fault : UsageFault)
  | answer (request : Request)

def once {α : Type} (flag : Flag) (former : Option α) (value : Option α) (given : String) :
    Except Stop (Option α) :=
  match value, former with
  | none, _ => .error (.fault (.badValue flag given))
  | some _, some _ => .error (.fault (.repeated flag))
  | some value, none => .ok (some value)

def path? (value : String) : Option String :=
  if value = "" then none else some value

namespace Draft

def noteFlag (draft : Draft) (flag : Flag) (value : String) : Except Stop Draft := do
  match flag with
  | .config => return { draft with config := ← once flag draft.config (path? value) value }
  | .tree => return { draft with tree := ← once flag draft.tree (path? value) value }
  | .language =>
    return { draft with language := ← once flag draft.language (Language.parse? value) value }
  | .kind => return { draft with kind := ← once flag draft.kind (Kind.ofName? value) value }
  | .json =>
    if draft.json then throw (.fault (.repeated flag)) else return { draft with json := true }
  | .version => throw (.answer .version)
  | .verbose | .help => return draft

/-- Note what an argument says; `topic` is what help is about here. -/
def note (topic : Bool → Topic) (draft : Draft) : Event → Except Stop Draft
  | .fault fault => .error (.fault fault)
  | .help long => .error (.answer (.help (topic long)))
  | .flag flag value => draft.noteFlag flag (value.getD "")

def noteWord (draft : Draft) (word : String) : Except Stop Draft :=
  match draft.source with
  | some _ => .error (.fault (.unknownArgument word))
  | none =>
    if word = "" then .error (.fault .emptySource) else .ok { draft with source := some word }

end Draft

/-! ### Commands -/

/-- Read the arguments after a command, in at most `n` steps. -/
def readCommand (name : Name) : Nat → Draft → List String → Except Stop Draft
  | 0, draft, _ => .ok draft
  | _ + 1, draft, [] => .ok draft
  | n + 1, draft, arg :: rest => do
    if arg = "--" then rest.foldlM Draft.noteWord draft
    else if isOption arg then
      let (events, rest) := scan (Flag.ofCommand name) arg rest
      readCommand name n (← events.foldlM (Draft.note fun _ => .command name) draft) rest
    else readCommand name n (← draft.noteWord arg) rest

/-- The task of a command, once nothing that it needs is missing. -/
def taskOf (name : Name) (draft : Draft) : Except Stop Task :=
  match name, draft.kind with
  | .dump, _ => .ok (.dump draft.json)
  | .check, _ => .ok .check
  | .lines, some kind => .ok (.lines kind)
  | .lines, none => .error (.fault (.missing .kind))

def invocation (name : Name) (draft : Draft) (config : Option String) :
    Except Stop Invocation := do
  match draft.source, draft.tree with
  | none, _ => throw (.fault .missingSource)
  | _, none => throw (.fault (.missing .tree))
  | some source, some tree =>
    return { task := ← taskOf name draft, source, tree, language := draft.language,
             config := draft.config.or config }

def topicOf : List String → Except Stop Topic
  | [] => .ok (.program true)
  | ["help"] => .ok .help
  | word :: rest =>
    match Name.all.find? (·.text == word), rest with
    | some name, [] => .ok (.command name)
    | some _, next :: _ => .error (.fault (.unknownCommand next))
    | none, _ => .error (.fault (.unknownCommand word))

/-- Read the arguments up to the command and hand the rest to it, in at most `n` steps. -/
def readProgram : Nat → Draft → List String → Except Stop Request
  | 0, _, _ | _, _, [] => .error (.fault .noCommand)
  | n + 1, draft, arg :: rest => do
    if arg = "--" then
      match rest with
      | [] => throw (.fault .noCommand)
      | word :: _ => throw (.fault (.unknownArgument word))
    else if isOption arg then
      let (events, rest) := scan Flag.general arg rest
      readProgram n (← events.foldlM (Draft.note .program) draft) rest
    else if arg = "help" then return .help (← topicOf rest)
    else
      match Name.all.find? (·.text == arg) with
      | none => throw (.fault (.unknownCommand arg))
      | some name =>
        return .run (← invocation name (← readCommand name rest.length {} rest) draft.config)

def parse (args : List String) : Except UsageFault Request :=
  if args.isEmpty then .error .noArguments
  else match readProgram args.length {} args with
    | .ok request => .ok request
    | .error (.answer request) => .ok request
    | .error (.fault fault) => .error fault

end Lossless.Command
