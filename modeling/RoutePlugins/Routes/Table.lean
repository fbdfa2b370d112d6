import RoutePlugins.Imports.Graph
import RoutePlugins.Routes.Entries

/-!
# Route tables

For each route the files it reaches through imports, split into those that run on the client and
those that run on the server. A file runs on the client if its first statements say so.
-/

namespace RoutePlugins

/-- A route with its files, in some form. -/
structure RouteOf (File : Type) where
  name : Text
  entries : List File
  files : List File
  serverFiles : List File
  clientFiles : List File

/-- A route with the paths of its files. -/
abbrev Route := RouteOf Text

/-- The routes of a project. -/
structure RouteTable where
  routes : List Route

namespace RouteOf

/-- A route as a record. -/
def toValue (file : α → Value) (r : RouteOf α) : Value :=
  let list (files : List α) : Value := .list (files.map file)
  .map [(.str "name", .str r.name), (.str "entries", list r.entries), (.str "files", list r.files),
    (.str "serverFiles", list r.serverFiles), (.str "clientFiles", list r.clientFiles)]

/-- The items of an optional field of a record. -/
def itemsOf (fields : List (Value × Value)) (key : Text) : Except Fault (List Value) :=
  match Value.entry? key fields with
  | some v => v.elements
  | none => .ok []

/-- The route that a record writes, with whatever stands for its files. -/
def ofValue (v : Value) : Except Fault (RouteOf Value) := do
  let name ← v.member "name"
  let fields ← v.asRecord "get"
  return ⟨name.display, ← itemsOf fields "entries", ← itemsOf fields "files",
    ← itemsOf fields "serverFiles", ← itemsOf fields "clientFiles"⟩

end RouteOf

namespace Routes

/-- The leading string statements of some nodes; remarks between them do not count. -/
def directivesOf (f : ParsedFile) : List Node → List Text
  | [] => []
  | n :: rest =>
    if n.isA "comment" then directivesOf f rest
    else if n.kind != "expression_statement" then []
    else
      match n.namedChildren.head?.bind f.stringValue? with
      | some s => s :: directivesOf f rest
      | none => []

/-- The directives of a source file. -/
def directives (f : ParsedFile) : List Text := directivesOf f f.root.namedChildren

/-- Whether a source file runs on the client. -/
def isClientFile (f : ParsedFile) : Bool := (directives f).contains "use client"

/-- Gives the routes of a project as records with a name and entries. -/
abbrev Convention := Files → Project → Except Fault (List Value)

/-- The routes that the app directory holds. -/
def appRouter : Convention := fun fs project => do return (← groups fs project).map Group.toValue

/-- The text of the path that a value writes. -/
def pathText : Value → Except Fault Text
  | .str s => .ok s
  | v => .error (.kind (.notPath v.kindName))

/-- The resolved entries of a route record. -/
def resolveEntries (fs : Files) (group : Value) : Except Fault (List Text) := do
  let entries ← (← group.member "entries").elements
  entries.mapM fun v => do return (← fs.resolve (Path.parse (← pathText v))).text

/-- Add the new ones of some files to files in the order of their first occurrence. -/
def addFiles (files new : List Text) : List Text :=
  new.foldl (fun files f => if files.contains f then files else files ++ [f]) files

/-- The files reached from some entries, each once, in the order of their first occurrence. -/
def filesOf (g : ImportGraph) (src : Sources) : List Text → List Text → StoreM (List Text)
  | [], files => return files
  | entry :: rest, files => do
    let found ← StoreM.lift ((← g.reached src entry).mapM pathText)
    filesOf g src rest (addFiles files found)

/-- Which files run on the client. -/
abbrev ClientCache := List (Text × Bool)

/-- Classify some files that are not classified yet. -/
def classify (src : Sources) : List Text → ClientCache → StoreM ClientCache
  | [], known => return known
  | f :: rest, known => do
    if Assoc.contains f known then classify src rest known
    else
      let parsed ← Store.parse src f
      classify src rest (Assoc.insert f (isClientFile parsed) known)

/-- Whether a classified file runs on the client. -/
def ClientCache.isClient (known : ClientCache) (f : Text) : Bool := (Assoc.get? f known).getD false

/-- The routes that some records write. -/
def build (g : ImportGraph) (src : Sources) : List Value → ClientCache → StoreM (List Route)
  | [], _ => return []
  | group :: rest, known => do
    let entries ← StoreM.lift (resolveEntries src.files group)
    let files ← filesOf g src entries []
    let known ← classify src files known
    let name ← StoreM.lift (group.member "name")
    let route : Route := ⟨name.display, entries, files, files.filter fun f => !known.isClient f,
      files.filter known.isClient⟩
    return route :: (← build g src rest known)

end Routes

namespace RouteTable

/-- The table of a project. -/
def build (project : Project) (convention : Routes.Convention) (src : Sources) (g : ImportGraph) :
    StoreM RouteTable := do
  let groups ← StoreM.lift (convention src.files project)
  return ⟨← Routes.build g src groups []⟩

/-- The route with a name. -/
def find? (t : RouteTable) (name : Text) : Option Route := t.routes.find? (·.name == name)

/-- All files of the table, in ascending order. -/
def sourceFiles (t : RouteTable) : List Text := sortDistinct (t.routes.flatMap (·.files))

/-- All files that run on the client, in ascending order. -/
def clientFiles (t : RouteTable) : List Text := sortDistinct (t.routes.flatMap (·.clientFiles))

/-- All files that run on the server, in ascending order. -/
def serverFiles (t : RouteTable) : List Text := sortDistinct (t.routes.flatMap (·.serverFiles))

/-- The table as a list of records. -/
def toValue (t : RouteTable) : Value := .list (t.routes.map (·.toValue .str))

end RouteTable

end RoutePlugins
