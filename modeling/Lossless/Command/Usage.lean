import Lossless.Command.Arguments

/-! The texts of version and help. -/

namespace Lossless.Command

def programName : String := "splice-devtools"

def versionText : String := programName ++ " 0.1.0\n"

def textOfLines (lines : List String) : String :=
  String.join (lines.map (· ++ "\n"))

def configHelp : String :=
  "Path to configuration file (splice.toml/.splice.toml/splice.json)"

def verboseHelp : String :=
  "Verbose output (can be used multiple times for increased verbosity)"

def Name.about : Name → String
  | .dump => "Print the tree and its comments"
  | .check => "Verify the round trip and report the syntax error, if any"
  | .lines => "Print the available insertion lines of every list of a kind"

def commandList : List String :=
  ["Commands:",
   "  dump   " ++ Name.dump.about,
   "  check  " ++ Name.check.about,
   "  lines  " ++ Name.lines.about,
   "  help   Print this message or the help of the given subcommand(s)"]

def programUsage : String := "Usage: " ++ programName ++ " [OPTIONS] <COMMAND>"

def shortHelp : String :=
  textOfLines <|
    ["Inspect and check splice syntax trees", "", programUsage, ""] ++ commandList ++
    ["",
     "Options:",
     "  -c, --config <CONFIG>  " ++ configHelp,
     "  -v, --verbose...       " ++ verboseHelp,
     "  -h, --help             Print help (see more with '--help')",
     "  -V, --version          Print version"]

def longHelp : String :=
  textOfLines <|
    ["Builds splice trees from a source file plus the JSON parse tree of an",
     "external parser, then dumps them, checks them or queries edit positions.",
     "",
     "Examples:",
     "  splice-devtools dump app.py --tree app.json          # Indented tree dump",
     "  splice-devtools dump app.py --tree app.json --json   # DebugNode JSON",
     "  splice-devtools check app.py --tree app.json         # Round-trip and syntax check",
     "  splice-devtools lines app.py --tree app.json --kind statement_list",
     "",
     programUsage,
     ""] ++ commandList ++
    ["",
     "Options:",
     "  -c, --config <CONFIG>",
     "          " ++ configHelp,
     "",
     "  -v, --verbose...",
     "          " ++ verboseHelp,
     "",
     "  -h, --help",
     "          Print help (see a summary with '-h')",
     "",
     "  -V, --version",
     "          Print version"]

/-- The options that a command asks for, as its usage line names them. -/
def Name.required : Name → String
  | .dump | .check => "--tree <TREE>"
  | .lines => "--tree <TREE> --kind <KIND>"

def Name.ownOption : Name → List String
  | .dump => ["      --json                 Print serialized nodes instead of the indented dump"]
  | .check => []
  | .lines => ["  -k, --kind <KIND>          List kind, e.g. \x60statement_list\x60"]

def commandHelp (name : Name) : String :=
  textOfLines <|
    [name.about,
     "",
     "Usage: " ++ programName ++ " " ++ name.text ++ " [OPTIONS] " ++ name.required ++ " <SOURCE>",
     "",
     "Arguments:",
     "  <SOURCE>  Source file",
     "",
     "Options:",
     "  -c, --config <CONFIG>      " ++ configHelp,
     "  -t, --tree <TREE>          JSON parse tree of the source",
     "  -l, --language <LANGUAGE>  Language of the source (default: from the file extension)",
     "  -v, --verbose...           " ++ verboseHelp] ++
    name.ownOption ++
    ["  -h, --help                 Print help"]

def helpOnHelp : String :=
  textOfLines
    ["Print this message or the help of the given subcommand(s)",
     "",
     "Usage: " ++ programName ++ " help [COMMAND]...",
     "",
     "Arguments:",
     "  [COMMAND]...  Print help for the subcommand(s)"]

def Topic.text : Topic → String
  | .program true => longHelp
  | .program false => shortHelp
  | .command name => commandHelp name
  | .help => helpOnHelp

def UsageFault.text : UsageFault → String
  | .noArguments => shortHelp
  | fault =>
    textOfLines ["error: " ++ fault.message, "", programUsage, "",
      "For more information, try '--help'."]

end Lossless.Command
