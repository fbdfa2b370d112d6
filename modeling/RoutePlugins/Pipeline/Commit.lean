import RoutePlugins.Pipeline.Result

/-!
# Commits

At the end of a run each plugin leaves its artifacts behind. If no plugin failed, the staged texts
are written; otherwise no file of the project is touched. Either way the stores are ended.
-/

namespace RoutePlugins.Pipeline

/-- The texts staged so far with the plugin that staged each of them last. -/
structure Merged where
  texts : List (Text × Json)
  owners : List (Text × Text)

/-- Warn if the text that a plugin staged for a file overrides another. -/
def warnOverride (project : Project) (plugin file : Text) (code : Json) (m : Merged) : Run Unit :=
  match Assoc.get? file m.texts with
  | none => return ()
  | some old =>
    if old.same code then return ()
    else do
      let shown ← Run.onFiles (project.relative · (Path.parse file))
      Run.warn (plugin ++ " overrides the rewrite of " ++ shown ++ " staged by " ++
        (Assoc.get? file m.owners).getD "")

/-- Add what a plugin staged, with a warning where it overrides another plugin. -/
def mergeEntries (project : Project) (plugin : Text) : List (Text × Json) → Merged → Run Merged
  | [], m => return m
  | (file, code) :: rest, m => do
    warnOverride project plugin file code m
    mergeEntries project plugin rest
      ⟨Assoc.insert file code m.texts, Assoc.insert file plugin m.owners⟩

/-- The texts that some sessions have staged; a later session overrides an earlier one. -/
def mergeStaged (project : Project) : List PluginSession → Merged → Run Merged
  | [], m => return m
  | s :: rest, m => do
    let entries ← Run.lift s.stagedTexts
    mergeStaged project rest (← mergeEntries project s.plugin.name entries m)

/-- Write one staged text. -/
def writeStaged (root : Path) (target : Path × Json) : Run Unit := do
  match target.2 with
  | .str text => Run.changeFiles (Files.writeText root target.1 text)
  | v =>
    Run.onFiles (·.ensureInside root target.1)
    Run.changeFiles (Files.ensureDirectories target.1.parent)
    throw (.kind (.notWritable (Value.ofJson v).kindName))

/-- Write staged texts. One that fails does not keep the others from being written; the first fault
is raised at the end. -/
def writeAll (root : Path) : List (Path × Json) → Run Unit
  | [] => return ()
  | target :: rest => fun w =>
    match writeStaged root target w with
    | .ok () w => writeAll root rest w
    | .error e w =>
      match writeAll root rest w with
      | .ok () w => .error e w
      | .error _ w => .error e w

/-- The code staged for the text of a path. -/
def stagedFor (texts : List (Text × Json)) (p : Path) : Except Fault Json :=
  match Assoc.get? p.text texts with
  | some code => .ok code
  | none => .error (.missingKey (.str p.text))

/-- The code to write to a path, unless the file there has that text. -/
def pendingFor (fs : Files) (texts : List (Text × Json)) (p : Path) :
    Except Fault (Option (Path × Json)) := do
  if ← fs.isPresent p then
    let text ← fs.readText p
    let code ← stagedFor texts p
    return if code.same (.str text) then none else some (p, code)
  else return some (p, ← stagedFor texts p)

/-- Write the staged texts that differ from the files, and say how many. All targets are checked
before the first is written. -/
def writeTexts (project : Project) (texts : List (Text × Json)) : Run Nat := do
  let fs := (← get).files
  let targets := texts.map fun (file, _) => Path.parse file
  targets.forM fun p => Run.lift (fs.ensureInside project.root p)
  let pending ← Run.lift (targets.mapM (pendingFor fs texts))
  let changed := pending.filterMap id
  writeAll project.root changed
  return changed.length

/-- The five artifacts of a plugin. -/
structure Artifacts where
  collection : Value
  data : Json
  errors : Value
  warnings : Value
  staged : Value

/-- Leave the artifacts of a plugin behind. -/
def persist (project : Project) (plugin : Text) (a : Artifacts) : Run Unit := do
  let dir := project.pluginDir plugin
  let put (name : Text) (v : Value) : Run Unit :=
    Run.changeFiles (Files.writeValue project.root (dir.child name) v)
  put "collection.json" a.collection
  put "data.json" (.ofJson a.data)
  put "errors.json" a.errors
  put "warnings.json" a.warnings
  put "rewrites.json" a.staged

/-- Add a session to the result, and leave its artifacts behind. -/
def settle (project : Project) (result : RunResult) (s : PluginSession) : Run RunResult := do
  let name := s.plugin.name
  let errors ← Run.lift s.persistedErrors
  let warnings ← Run.lift (s.records .warning)
  let collection ← Run.lift (s.table? collectionPath)
  let staged ← Run.lift (s.table? stagedPath)
  persist project name ⟨collection, s.derived, errors, warnings, staged⟩
  return { result with
    errors := result.errors ++ [(name, errors)]
    warnings := result.warnings ++ [(name, warnings)]
    data := result.data ++ [(name, s.derived)]
    failures := match s.failure with
      | some (phase, text) => result.failures ++ [(name, phase ++ ": " ++ text)]
      | none => result.failures }

/-- Show records, up to the first that cannot be shown. -/
def showRecords (kind : ReportKind) (root : Path) (records : Value) : Run Unit := do
  let (boxes, fault) := Ledger.boxesOf kind (some root) records
  boxes.forM Run.say
  if let some e := fault then throw e

/-- The names of the sessions that stand in the way of a commit. -/
def failedNames : List PluginSession → Except Fault (List Text)
  | [] => .ok []
  | s :: rest => do
    let failed ← s.hasFailed
    let others ← failedNames rest
    return if failed then s.plugin.name :: others else others

/-- Show why a run was aborted. -/
def showAbort (project : Project) (result : RunResult) (failed : List Text) : Run RunResult := do
  (result.errors.zip result.warnings).forM fun (errors, warnings) => do
    showRecords .error project.root errors.2
    showRecords .warning project.root warnings.2
  Run.fail ("Errors in " ++ Text.joinWith ", " failed ++
    s!"; {result.staged.length} staged rewrite(s) discarded, no files written")
  return result

/-- Write the staged texts, if they are to be written, and commit. -/
def conclude (project : Project) (writesFiles : Bool) (sessions : List PluginSession)
    (result : RunResult) : Run RunResult := do
  sessions.forM fun s => do
    showRecords .error s.ledger.root (← Run.lift (s.records .error))
    showRecords .warning s.ledger.root (← Run.lift (s.records .warning))
  if writesFiles then
    let written ← writeTexts project result.staged
    Run.done s!"Wrote {written} file(s)"
  Run.done "Pipeline committed in 0.00s"
  return { result with committed := true }

/-- End a store and keep its snapshot. -/
def endStore (s : PluginSession) : Run Unit := do
  let (snapshot, _) ← Run.lift s.store.finish
  modify fun w => { w with history := snapshot :: w.history }

/-- Do work, and then end the stores of some sessions, whether it failed or not. A store that cannot
be ended is a fault of its own. -/
def endingStores {α : Type} (sessions : List PluginSession) (work : Run α) : Run α := fun w =>
  match work w with
  | .ok a w =>
    match sessions.forM endStore w with
    | .ok () w => .ok a w
    | .error e w => .error e w
  | .error e w =>
    match sessions.forM endStore w with
    | .ok () w => .error e w
    | .error e w => .error e w

/-- Leave the artifacts of some sessions behind; gives the result of the run so far, and the names
of the sessions that stand in the way of a commit. -/
def settleAll (project : Project) (sessions : List PluginSession) :
    Run (RunResult × List Text) := do
  let merged ← mergeStaged project (sessions.filter (·.failure.isNone)) ⟨[], []⟩
  let result ← sessions.foldlM (settle project) ⟨false, merged.texts, [], [], [], []⟩
  let failed ← Run.lift (failedNames sessions)
  return (result, failed)

/-- Commit or abort. -/
def commit (project : Project) (writesFiles : Bool) (sessions : List PluginSession) :
    Run RunResult := do
  let (result, failed) ← settleAll project sessions
  endingStores sessions
    (if failed.isEmpty then conclude project writesFiles sessions result
     else showAbort project result failed)

end RoutePlugins.Pipeline
