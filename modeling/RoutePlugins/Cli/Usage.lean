import RoutePlugins.Cli.Arguments

/-!
# Commands and their usage

The commands of the program, with the options and words that each takes and the texts that describe
them.
-/

namespace RoutePlugins.Cli

/-- The name of the program. -/
def programName : Text := "routecast"

/-- The option that asks for help. -/
def helpOption : OptionSpec := ⟨["-h", "--help"], .help⟩

/-- The names of the subcommands. -/
def subcommandNames : List Text := ["run", "hash", "lint", "routes"]

/-- Lines of text, each of them ended. -/
def textLines (lines : List Text) : Text := Text.concat (lines.map (· ++ "\n"))

/-- The program itself. -/
def mainSpec : CommandSpec where
  program := programName
  usage := "usage: routecast [-h] [--root ROOT] \x7brun,hash,lint,routes\x7d ..."
  details := textLines
    ["Run source-analysis and rewrite plugins over a Next.js project",
     "",
     "positional arguments:",
     "  \x7brun,hash,lint,routes\x7d",
     "    run                 Run plugins and commit their rewrites",
     "    hash                Print the content hash of a directory",
     "    lint                Show persisted reports for files",
     "    routes              Print the route table as JSON",
     "",
     "options:",
     "  -h, --help            show this help message and exit",
     "  --root ROOT           Project root (default: nearest parent with a",
     "                        next.config file)"]
  options := [helpOption, ⟨["--root"], .value []⟩]
  words := .none

/-- The command that runs plugins. -/
def runSpec : CommandSpec where
  program := programName ++ " run"
  usage := "usage: routecast run [-h] [--plugins PLUGINS] [--no-write] [--if-changed]"
  details := textLines
    ["options:",
     "  -h, --help         show this help message and exit",
     "  --plugins PLUGINS  Plugin spec module:attr (repeatable or comma-separated)",
     "  --no-write         Persist artifacts but leave source files untouched",
     "  --if-changed       Skip the run when the project tree is unchanged since the",
     "                     last run"]
  options :=
    [helpOption, ⟨["--plugins"], .value []⟩, ⟨["--no-write"], .flag⟩, ⟨["--if-changed"], .flag⟩]
  words := .none

/-- The command that prints a digest. -/
def hashSpec : CommandSpec where
  program := programName ++ " hash"
  usage := "usage: routecast hash [-h] [--dir DIR] [--reset]"
  details := textLines
    ["options:",
     "  -h, --help  show this help message and exit",
     "  --dir DIR   Directory to hash (default: project root)",
     "  --reset     Forget persisted digests"]
  options := [helpOption, ⟨["--dir"], .value []⟩, ⟨["--reset"], .flag⟩]
  words := .none

/-- The command that shows reports. -/
def lintSpec : CommandSpec where
  program := programName ++ " lint"
  usage := "usage: routecast lint [-h] [--level \x7berror,warning\x7d] files [files ...]"
  details := textLines
    ["positional arguments:",
     "  files                 Files to look up",
     "",
     "options:",
     "  -h, --help            show this help message and exit",
     "  --level \x7berror,warning\x7d"]
  options := [helpOption, ⟨["--level"], .value ["error", "warning"]⟩]
  words := .some "files"

/-- The command that prints the route table. -/
def routesSpec : CommandSpec where
  program := programName ++ " routes"
  usage := "usage: routecast routes [-h]"
  details := textLines
    ["options:",
     "  -h, --help  show this help message and exit"]
  options := [helpOption]
  words := .none

/-- A command with its settings. A plugin spec or a level may be set to nothing. -/
inductive Command where
  | run (specs : List (Option Text)) (write ifChanged : Bool)
  | hash (dir : Option Text) (reset : Bool)
  | lint (files : List Text) (level : Option Text)
  | routes

/-- A line of arguments as it is understood. -/
structure Invocation where
  root : Option Text
  /-- The command, if one is given. -/
  command : Option Command

namespace Settings

/-- What an option is set to last, or else a value by default. -/
def lastD (s : Settings) (key : Text) (default : Option Text) : Option Text :=
  ((s.options.reverse.find? (·.1 == key)).map Prod.snd).getD default

/-- What an option is set to each time. -/
def values (s : Settings) (key : Text) : List (Option Text) :=
  (s.options.filter (·.1 == key)).map Prod.snd

/-- Whether a flag is set. -/
def has (s : Settings) (key : Text) : Bool := s.options.any (·.1 == key)

end Settings

/-- A subcommand with the arguments it does not know. -/
def subcommand (name : Text) (args : List Text) : Except Halt (Command × List Text) :=
  if name == "run" then do
    let s ← parse runSpec args
    return (.run (s.values "--plugins") (!s.has "--no-write") (s.has "--if-changed"), s.unknown)
  else if name == "hash" then do
    let s ← parse hashSpec args
    return (.hash (s.lastD "--dir" none) (s.has "--reset"), s.unknown)
  else if name == "lint" then do
    let s ← parse lintSpec args
    return (.lint s.words (s.lastD "--level" (some "error")), s.unknown)
  else do
    let s ← parse routesSpec args
    return (.routes, s.unknown)

/-- Understand a line of arguments. -/
def invocation (args : List Text) : Except Halt Invocation := do
  let f ← parseFront mainSpec "command" subcommandNames args
  let (command, unknown) ← match f.subcommand with
    | none => pure (none, [])
    | some (name, rest) => do
      let (command, unknown) ← subcommand name rest
      pure (some command, unknown)
  match f.settings.unknown ++ unknown with
  | [] => return ⟨f.settings.lastD "--root" none, command⟩
  | left => throw (mainSpec.misuse ("unrecognized arguments: " ++ Text.joinWith " " left))

end RoutePlugins.Cli
