import RoutePlugins.Plugin.Basic
import RoutePlugins.World

/-!
# Plugin sessions

A session is what a run keeps for one plugin: its store with the plugin's tables, its ledger, its
view of the imports, and how far it has come. Here the requests of phases are answered.
-/

namespace RoutePlugins

/-- The state of one plugin in a run. -/
structure PluginSession where
  plugin : Plugin
  project : Project
  table : RouteTable
  ledger : Ledger
  graph : ImportGraph
  store : Store
  config : List (Value × Value)
  /-- What the build phase gave, for the phase after it. -/
  data : Json
  /-- The phase that failed and how. -/
  failure : Option (Text × Text)
  /-- What the build phase gave. -/
  derived : Json

/-- The tables of a plugin. -/
def collectionPath : AccessPath := ["collection"]
/-- The value that the plugin saved last. -/
def savedPath : AccessPath := ["saved"]
/-- The values that the plugin saved. -/
def savedHistoryPath : AccessPath := ["saved_history"]
/-- The text staged last for each file. -/
def stagedPath : AccessPath := ["rewrites_to_commit"]
/-- The texts staged for files. -/
def stagedHistoryPath : AccessPath := ["rewrite_history"]

/-- What a phase works on. -/
structure PhaseState where
  world : World
  session : PluginSession

/-- Work of a phase that may fail. What was done before a failure stays done. -/
abbrev PhaseM := EStateM Fault PhaseState

namespace PhaseM

/-- Work on the store of the session. -/
def onStore {α : Type} (m : StoreM α) : PhaseM α := fun s =>
  match m s.session.store with
  | .ok a store => .ok a { s with session := { s.session with store } }
  | .error e store => .error e { s with session := { s.session with store } }

/-- Work on the ledger of the session. -/
def onLedger {α : Type} (m : LedgerM α) : PhaseM α := fun s =>
  let after (t : LedgerState) : PhaseState :=
    ⟨{ s.world with clock := t.clock }, { s.session with store := t.store }⟩
  match m ⟨s.session.store, s.world.clock⟩ with
  | .ok a t => .ok a (after t)
  | .error e t => .error e (after t)

/-- Work on the store of the session and the history of the run. -/
def onCall {α : Type} (m : StoreCall.CallM α) : PhaseM α := fun s =>
  let after (t : StoreState) : PhaseState :=
    ⟨{ s.world with history := t.history }, { s.session with store := t.store }⟩
  match m ⟨s.session.store, s.world.history⟩ with
  | .ok a t => .ok a (after t)
  | .error e t => .error e (after t)

/-- Change the store of the session. -/
def change (f : Store → Except Fault Store) : PhaseM Unit := onStore (StoreM.change f)

/-- Read a table of the session. -/
def table (path : AccessPath) : PhaseM Value := onStore (StoreM.read (·.get path.toValue))

/-- Raise the fault of a result. -/
def lift {α : Type} : Except Fault α → PhaseM α := Files.lift

end PhaseM

namespace PluginSession

/-- What a phase of the session is told. -/
def context (s : PluginSession) : PluginContext :=
  ⟨s.plugin.name, s.project.root, s.table.routes, s.table.sourceFiles, s.config, .ofJson s.data⟩

/-- The source file that a path names, from the project root; the path itself if there is none. -/
def sourceFile (fs : Files) (project : Project) (path : Text) : Except Fault Text := do
  let candidate ← fs.resolve (project.root.joinText path)
  return ((← Imports.findSource fs sourceExts candidate).getD candidate).text

/-- Stage a text for a file of the project. -/
def stage (code : Value) (file : Text) : PhaseM Unit := do
  let s ← get
  let .str text := code | throw (.kind (.codeNotText code.kindName))
  let target ← PhaseM.lift (s.world.files.resolve (Path.parse file))
  if !(← PhaseM.lift (s.world.files.isInside s.session.project.root target)) then
    throw (.store (.outsideRoot file))
  PhaseM.change (·.merge stagedPath.toValue (.map [(.str target.text, .str text)]))
  PhaseM.change (·.push stagedHistoryPath.toValue
    (.map [(.str "filePath", .str target.text), (.str "code", .str text)]))

/-- Save a value. -/
def save (v : Value) : PhaseM Unit := do
  PhaseM.change (·.set savedPath.toValue v)
  PhaseM.change (·.push savedHistoryPath.toValue v)

/-- Answer a request. -/
def answer : (q : Request) → PhaseM q.Reply
  | .parse file => do PhaseM.onStore (Store.parse (← get).world.sources file)
  | .sourceFile path => do
    let s ← get
    PhaseM.lift (sourceFile s.world.files s.session.project path)
  | .routes => do return (← get).session.table.routes
  | .imports file => do
    let s ← get
    PhaseM.onStore (s.session.graph.imports s.world.sources file)
  | .reached file => do
    let s ← get
    PhaseM.onStore (s.session.graph.reached s.world.sources file)
  | .clientFiles => do return (← get).session.table.clientFiles
  | .serverFiles => do return (← get).session.table.serverFiles
  | .collect v => PhaseM.change (·.push collectionPath.toValue v)
  | .collected => PhaseM.table collectionPath
  | .save v => save v
  | .saved => PhaseM.table savedPath
  | .savedHistory => PhaseM.table savedHistoryPath
  | .report kind message file mark => do
    let s ← get
    PhaseM.onLedger (s.session.ledger.report s.world.files kind message file mark)
  | .records kind => PhaseM.table kind.path
  | .stage code file => stage code file
  | .staged => PhaseM.table stagedPath
  | .stagedHistory => PhaseM.table stagedHistoryPath
  | .store call => do PhaseM.onCall (call.run (← get).world.sources)
  | .context => do return (← get).session.context
  | .configure key v => modify fun s =>
    let config := Value.insertEntry (.str key) v s.session.config
    { s with session := { s.session with config } }
  | .note phase action result => modify fun s =>
    { s with world := { s.world with
        trace := ⟨s.session.plugin.name, phase, action, result⟩ :: s.world.trace } }

end PluginSession

/-- Run a program by answering its requests in turn. -/
def Phase.run {α : Type} : Phase α → PhaseM α
  | .done a => fun s => .ok a s
  | .fail e => fun s => .error e s
  | .ask q next => fun s =>
    match PluginSession.answer q s with
    | .ok r s => (next (.ok r)).run s
    | .error e s => (next (.error e)).run s

namespace PluginSession

/-- The tables of a plugin with their first values. -/
def tables : List (AccessPath × Value) :=
  [(collectionPath, .list []), (savedPath, .null), (savedHistoryPath, .list []),
    (stagedPath, .map []), (stagedHistoryPath, .list [])]

/-- Register the tables of a plugin. -/
def registerTables : List (AccessPath × Value) → StoreM Unit
  | [] => return ()
  | (path, initial) :: rest => do
    StoreM.change fun s => (s.register path.toValue initial).map Prod.snd
    registerTables rest

/-- Open the session of a plugin, with files parsed before. -/
def start (fs : Files) (project : Project) (table : RouteTable) (cache : ParseCache)
    (plugin : Plugin) : Except Fault PluginSession := do
  let setup : StoreM (Ledger × ImportGraph) := do
    StoreM.change fun _ => Store.start (.str plugin.name) cache
    let ledger ← Ledger.attach fs (.str plugin.name) project.root
    let graph ← ImportGraph.attach fs project.root project.aliases
    registerTables tables
    return (ledger, graph)
  match setup .fresh with
  | .error e _ => throw e
  | .ok (ledger, graph) store =>
    let config ← plugin.config.toEntries
    return ⟨plugin, project, table, ledger, graph, store, config, .null, none, .null⟩

end PluginSession

end RoutePlugins
