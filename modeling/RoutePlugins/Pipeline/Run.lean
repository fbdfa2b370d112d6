import RoutePlugins.Pipeline.Commit

/-!
# Runs

A run resolves the routes, lets every plugin collect, then build, then stage texts, and commits. A
phase that fails ends its plugin's part in the run, apart from faults of configuration and
interruptions, which end the run. So does the fault of looking at what a phase has built.
-/

namespace RoutePlugins.Pipeline

/-- The name of the store in which routes are resolved. -/
def prepareName : Text := "__prepare"

/-- Resolve the routes of a project in a store of their own; gives the table, the files that were
parsed, and the snapshot of the store. -/
def resolveRoutes (project : Project) (convention : Routes.Convention) (src : Sources) :
    StoreM (RouteTable × ParseCache × Snapshot) := do
  StoreM.change fun _ => Store.start (.str prepareName) []
  let graph ← ImportGraph.attach src.files project.root project.aliases
  let table ← RouteTable.build project convention src graph
  StoreM.change fun s => (s.register (.str "routes") table.toValue).map Prod.snd
  let cache ← StoreM.read Store.parseCache
  let (snapshot, _) ← StoreM.read Store.finish
  return (table, cache, snapshot)

/-- Resolve the routes of a project; gives the table and the files that were parsed. -/
def prepare (project : Project) (convention : Routes.Convention) :
    Run (RouteTable × ParseCache) := do
  match resolveRoutes project convention (← get).sources .fresh with
  | .error e _ => throw e
  | .ok (table, cache, snapshot) _ =>
    modify fun w => { w with history := snapshot :: w.history }
    return (table, cache)

/-- Record the failure of a phase. -/
def failPhase (s : PluginSession) (phase text : Text) : Run PluginSession := do
  Run.fail (s.plugin.name ++ ": " ++ phase ++ " phase failed: " ++ text)
  return { s with failure := some (phase, text) }

/-- Run a phase of a session; a failed phase gives nothing. -/
def runPhase (s : PluginSession) (name : Text) (phase : Phase Value) :
    Run (PluginSession × Value) := fun w =>
  match phase.run ⟨w, s⟩ with
  | .ok v t => .ok (t.session, v) t.world
  | .error e t =>
    if e.isConfiguration || e.isInterruption then .error e t.world
    else (return (← failPhase t.session name e.report, .null) : Run _) t.world

/-- Open the session of a plugin and let it collect. -/
def openAndCollect (project : Project) (table : RouteTable) (cache : ParseCache)
    (plugin : Plugin) : Run PluginSession := do
  let s ← Run.onFiles (PluginSession.start · project table cache plugin)
  match plugin.collector with
  | none => return s
  | some phase =>
    Run.begins (plugin.name ++ ": collect")
    return (← runPhase s "collect" phase).1

/-- Let plugins collect in turn; each is given the files parsed before it. -/
def collectAll (project : Project) (table : RouteTable) :
    ParseCache → List Plugin → Run (List PluginSession)
  | _, [] => return []
  | cache, plugin :: rest => do
    let s ← openAndCollect project table cache plugin
    let cache ← Run.lift s.store.parseCache
    return s :: (← collectAll project table cache rest)

/-- What a build gives: the value of its phase, else the saved value, else the collection. -/
def builtValue (s : PluginSession) : Value → Except Fault Value
  | .null => do
    match ← s.table? savedPath with
    | .null => s.table? collectionPath
    | v => return v
  | v => return v

/-- Run the phase that builds, if there is one. -/
def runBuilder (s : PluginSession) : Run (PluginSession × Value) :=
  match s.plugin.buildPhase with
  | some phase => runPhase s "build" phase
  | none => return (s, .null)

/-- Record why what a session has built cannot be kept. A value that lies too deep ends the run. -/
def refuseBuilt (s : PluginSession) : NotJson → Run PluginSession
  | .depth => throw (.notJson .depth)
  | cause =>
    failPhase s "build"
      ("SerializationError: derived data is not JSON-serializable: " ++ cause.message)

/-- Keep what a session has built, unless it has failed. It has to have a kept form. -/
def keepBuilt (s : PluginSession) (v : Value) : Run PluginSession :=
  if s.failure.isSome then return s
  else do
    match (← Run.lift (builtValue s v)).keepBuilt with
    | .ok derived => return { s with derived }
    | .error cause => refuseBuilt s cause

/-- Let a session build. -/
def build (s : PluginSession) : Run PluginSession := do
  let (s, v) ← runBuilder s
  keepBuilt s v

/-- Let a session build, unless it has failed. -/
def buildUnlessFailed (s : PluginSession) : Run PluginSession :=
  if s.failure.isSome then return s
  else do
    Run.begins (s.plugin.name ++ ": build")
    build s

/-- Let a session stage texts, unless it has failed. -/
def stageUnlessFailed (s : PluginSession) : Run PluginSession :=
  match s.failure, s.plugin.stager with
  | none, some phase => do
    Run.begins (s.plugin.name ++ ": rewrite")
    return (← runPhase { s with data := s.derived } "rewrite" phase).1
  | _, _ => return s

/-- A run over a project. -/
structure Setup where
  project : Project
  plugins : List Plugin
  convention : Routes.Convention
  /-- Whether a commit writes the staged texts. -/
  writesFiles : Bool

/-- Resolve the routes of a run. Its history starts empty. -/
def Setup.routes (r : Setup) : Run (RouteTable × ParseCache) := do
  modify fun w => { w with history := [] }
  Run.begins "Resolving routes"
  let (table, cache) ← prepare r.project r.convention
  Run.done s!"Resolved {table.routes.length} routes ({table.sourceFiles.length} files)"
  return (table, cache)

/-- Run the phases of the plugins, up to the commit. -/
def Setup.sessions (r : Setup) : Run (List PluginSession) := do
  let (table, cache) ← r.routes
  let sessions ← collectAll r.project table cache r.plugins
  let sessions ← sessions.mapM buildUnlessFailed
  sessions.mapM stageUnlessFailed

/-- Run the plugins. -/
def Setup.run (r : Setup) : Run RunResult := do
  commit r.project r.writesFiles (← r.sessions)

end RoutePlugins.Pipeline
