import RoutePlugins.Cli.PluginSpec
import RoutePlugins.Cli.Usage
import RoutePlugins.Ledger.Persisted
import RoutePlugins.Pipeline.CompileHook

/-!
# Executing commands

What each command does to its surroundings, what it prints, and the code it ends with.
-/

namespace RoutePlugins.Cli

/-- The surroundings of a command and what it has printed. -/
structure Terminal where
  world : World
  modules : Modules
  printed : Text

/-- A command that may fail. What it did before a failure stays done. -/
abbrev CommandM := EStateM Fault Terminal

/-- How a command ends. -/
structure Exit where
  code : Nat
  /-- Whether the arguments ended it. -/
  byArguments : Bool

namespace CommandM

/-- Work on the surroundings. -/
def onWorld {α : Type} (m : Run α) : CommandM α := fun t =>
  match m t.world with
  | .ok a world => .ok a { t with world }
  | .error e world => .error e { t with world }

/-- Work on the modules. -/
def onModules {α : Type} (m : ModulesM α) : CommandM α := fun t =>
  match m t.modules with
  | .ok a modules => .ok a { t with modules }
  | .error e modules => .error e { t with modules }

/-- Print text. -/
def print (text : Text) : CommandM Unit :=
  modify fun t => { t with printed := t.printed ++ text }

/-- Print a line. -/
def printLine (line : Text) : CommandM Unit := print (line ++ "\n")

end CommandM

open CommandM

/-- The project that a command works on: the one at the given root, or the one around the working
directory. -/
def resolveProject (root : Option Text) : Run Project := Run.onFiles fun fs => do
  match root.filter fun text => !text.isEmpty with
  | some text => Project.load fs (← fs.resolve (Path.parse text))
  | none => Project.load fs (← Project.findRoot fs (Files.absolute fs.workingDirectory))

/-- Show the result of a run. -/
def showResult (r : RunResult) : CommandM Nat := do
  let files := sortTexts (r.staged.map Prod.fst)
  printLine (Json.obj [("state", .str r.state), ("rewrites", .arr (files.map .str))]).write
  return if r.committed then 0 else 1

/-- The texts of plugin specs. One that is set to nothing cannot be split. -/
def specTexts (specs : List (Option Text)) : Except Fault (List Text) :=
  specs.mapM fun spec => match spec with
    | some text => .ok text
    | none => .error (.noMember "list" "split")

/-- Run plugins: those of the specs on the command line, or else those of the specs in
`fallback`. -/
def executeRun (fallback : Text) (root : Option Text) (specs : List (Option Text))
    (write ifChanged : Bool) : CommandM Nat := do
  let project ← onWorld (resolveProject root)
  let texts ← onWorld (Run.lift (specTexts specs))
  let plugins ← onModules (loadPlugins texts fallback)
  onWorld (Run.lift (Plugin.checkDistinct plugins))
  let setup : Pipeline.Setup := ⟨project, plugins, Routes.appRouter, write⟩
  if ifChanged then
    match ← onWorld (Gate.runIfChanged project pluginsDigestKey setup.run none) with
    | some result => showResult result
    | none =>
      onWorld (Run.done "Sources unchanged, nothing to do")
      return 0
  else showResult (← onWorld setup.run)

/-- Print a digest, or forget the digests. -/
def executeHash (root dir : Option Text) (reset : Bool) : CommandM Nat := do
  let project ← onWorld (resolveProject root)
  if reset then
    onWorld (Gate.reset project)
    onWorld (Run.done "Cleared persisted digests")
  else
    let dir := (dir.filter fun text => !text.isEmpty).map Path.parse
    printLine (← onWorld (Run.onFiles (Digest.ofDirectory Sha256.hexText · project dir)))
  return 0

/-- Print records, and count them. -/
def printRecords (root : Path) : List (List (Text × Json)) → CommandM Nat
  | [] => return 0
  | record :: rest => do
    let fields := record.map fun (key, v) => (Value.str key, Value.ofJson v)
    printLine (← onWorld (Run.onFiles (Ledger.reportLine · fields root)))
    return (← printRecords root rest) + 1

/-- The level that an option gives. An option that is set to nothing gives an empty list, which is
no level. -/
def levelValue : Option Text → Value
  | some level => .str level
  | none => .list []

/-- Print the reports for files, and count them. -/
def printReports (root : Path) (level : Option Text) : List Text → CommandM Nat
  | [] => return 0
  | file :: rest => do
    let records ← onWorld (Run.onFiles (Ledger.reportsForFile · root file (levelValue level) none))
    let found ← printRecords root records
    return found + (← printReports root level rest)

/-- Show the reports for files. Errors make the command fail. -/
def executeLint (root : Option Text) (files : List Text) (level : Option Text) :
    CommandM Nat := do
  let project ← onWorld (resolveProject root)
  let found ← printReports project.root level files
  return if found != 0 && level == some "error" then 1 else 0

/-- Print the route table. -/
def executeRoutes (root : Option Text) : CommandM Nat := do
  let project ← onWorld (resolveProject root)
  let (table, _) ← onWorld (Pipeline.prepare project Routes.appRouter)
  printLine (← onWorld (Run.lift table.toValue.document)).write
  return 0

/-- Execute a command. -/
def Command.execute (fallback : Text) (root : Option Text) : Command → CommandM Nat
  | .run specs write ifChanged => executeRun fallback root specs write ifChanged
  | .hash dir reset => executeHash root dir reset
  | .lint files level => executeLint root files level
  | .routes => executeRoutes root

/-- End a failed command: a fault of configuration gives one code, another fault of the pipeline
another, and any other fault stays a fault. -/
def reportFault (m : CommandM Nat) : CommandM Nat := fun t =>
  match m t with
  | .ok code t => .ok code t
  | .error e t =>
    if e.isConfiguration then (do onWorld (Run.fail e.message); return 2 : CommandM Nat) t
    else if e.isPipeline then (do onWorld (Run.fail e.message); return 1 : CommandM Nat) t
    else .error e t

/-- Execute a line of arguments. Plugins that it does not name are those of the specs in
`fallback`. -/
def execute (fallback : Text) (args : List Text) : CommandM Exit := do
  match invocation args with
  | .error (.help text) =>
    print text
    return ⟨0, true⟩
  | .error (.misuse text) =>
    onWorld (modify fun w => { w with log := w.log ++ text })
    return ⟨2, true⟩
  | .ok ⟨_, none⟩ =>
    print mainSpec.help
    return ⟨1, false⟩
  | .ok ⟨root, some command⟩ =>
    return ⟨← reportFault (command.execute fallback root), false⟩

end RoutePlugins.Cli
