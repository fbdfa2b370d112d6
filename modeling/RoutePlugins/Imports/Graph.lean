import RoutePlugins.Imports.Binding
import RoutePlugins.Store.Parse

/-!
# The import graph

The imports of a file and the files reached from it through imports, both remembered in a store.
Files outside the project root and installed packages are imported but not entered.
-/

namespace RoutePlugins

/-- How imports are resolved. -/
structure ImportGraph where
  root : Path
  aliases : Option Aliases

namespace ImportGraph

/-- Where the imports of files are remembered. -/
def importsPath : AccessPath := ["detailed_imports"]

/-- Where the files reached from a file are remembered. -/
def reachedPath : AccessPath := ["used_tree"]

/-- Register a path that is not registered yet. -/
def ensureRegistered (path : AccessPath) (initial : Value) : StoreM Unit := do
  if !(← StoreM.read (·.isRegistered path.toValue)) then
    StoreM.change fun s => (s.register path.toValue initial).map Prod.snd

/-- A graph over a store. -/
def attach (fs : Files) (root : Path) (aliases : Option Aliases) : StoreM ImportGraph := do
  let root ← StoreM.lift (fs.resolve root)
  ensureRegistered importsPath (.map [])
  ensureRegistered reachedPath (.map [])
  return ⟨root, aliases⟩

/-- What is remembered for a file. -/
def remembered (path : AccessPath) (key : Text) : StoreM Value :=
  StoreM.read (·.get (path ++ [key] : AccessPath).toValue)

/-- Remember a list for a file. -/
def remember (path : AccessPath) (key : Text) (items : List Value) : StoreM Unit :=
  StoreM.change (·.merge path.toValue (.map [(.str key, .list items)]))

/-- The imports of a file. -/
def imports (g : ImportGraph) (src : Sources) (file : Text) : StoreM (List ResolvedImport) := do
  let p ← StoreM.lift (src.files.resolve (Path.parse file))
  match ← remembered importsPath p.text with
  | .null =>
    let parsed ← Store.parse src p.text
    let found ← StoreM.lift (ResolvedImport.all src.files g.root g.aliases parsed)
    remember importsPath p.text (found.map ResolvedImport.toValue)
    return found
  | v => StoreM.lift do (← v.elements).mapM ResolvedImport.ofValue

/-- Whether the imports of an imported file are followed: it is a source file of the project and in
no installed package. -/
def isEntered (g : ImportGraph) (fs : Files) (file : Path) : Except Fault Bool := do
  if !sourceExts.contains file.suffix then return false
  if !(← fs.isFile file) then return false
  match file.relativeTo? g.root with
  | some rest => return !rest.names.contains "node_modules"
  | none => return false

/-- The files among some imported ones that are entered, apart from those in `order`. -/
def entered (g : ImportGraph) (fs : Files) (order : List Text) :
    List Text → Except Fault (List Text)
  | [] => .ok []
  | file :: rest => do
    if order.contains file then entered g fs order rest
    else if ← g.isEntered fs (Path.parse file) then return file :: (← entered g fs order rest)
    else entered g fs order rest

/-- Visit the files on a stack and those reached from them, at most `fuel` new ones; `order` holds
the files visited so far, in reverse. -/
def reachFrom (g : ImportGraph) (src : Sources) :
    Nat → List Text → List Text → StoreM (List Text)
  | 0, _, order => return order.reverse
  | fuel + 1, stack, order =>
    match stack.dropWhile order.contains with
    | [] => return order.reverse
    | current :: rest => do
      let order := current :: order
      let found ← g.imports src current
      let next ← StoreM.lift (g.entered src.files order (found.map (·.file)))
      reachFrom g src fuel (next ++ rest) order

/-- No fewer than the paths that lead to a file. The text of such a path has fewer code points than
`Files.pathLimit`, so it is told by a number with as many digits, each above zero and none above the
number of code points. -/
@[irreducible] def pathCount : Nat := Nat.pow 0x110001 Files.pathLimit

/-- The imports that are remembered, as they are recorded. -/
def records (s : Store) : List Value :=
  match s.get importsPath.toValue with
  | .ok (.map entries) => entries.flatMap fun (_, v) => v.elements.toOption.getD []
  | _ => []

/-- How many files imports can lead to: those of the imports that are remembered, and those that a
path leads to. -/
def fileBound (s : Store) : Nat := (records s).length + pathCount

/-- The files reached from a file through imports, in the order of their discovery: the file itself,
then depth first, imports in source order. Every file on the way is the entry or the file of some
import, which bounds their number. What is remembered for the file is given as it is. -/
def reached (g : ImportGraph) (src : Sources) (entry : Text) : StoreM (List Value) := do
  let p ← StoreM.lift (src.files.resolve (Path.parse entry))
  match ← remembered reachedPath p.text with
  | .null =>
    let order ← g.reachFrom src (fileBound (← get) + 1) [p.text] []
    remember reachedPath p.text (order.map .str)
    return order.map .str
  | v => StoreM.lift v.elements

end ImportGraph

end RoutePlugins
