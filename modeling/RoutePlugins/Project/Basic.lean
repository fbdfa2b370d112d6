import RoutePlugins.Project.Aliases
import RoutePlugins.Project.Ignore

/-!
# Projects

A project is a directory with a framework configuration file, usually with an app directory, an
ignore file and import aliases.
-/

namespace RoutePlugins

/-- A loaded project. -/
structure Project where
  root : Path
  appDir : Option Path
  aliases : Option Aliases
  ignored : List Text

namespace Project

/-- The directory, below a project root, that holds what runs leave behind. -/
def dataDirName : Text := ".routecast"

/-- The directory, in the data directory, that holds digests. -/
def digestDirName : Text := ".hashes"

/-- The first framework configuration file in a directory. -/
def findConfig (fs : Files) (root : Path) : Except Fault (Option Path) :=
  (nextConfigKinds.map fun kind => root.child ("next.config." ++ kind)).findM? fs.isPresent

/-- The nearest directory, from `start` upwards, that has a framework configuration file. -/
def findRoot (fs : Files) (start : Path) : Except Fault Path := do
  let here ← fs.resolve start
  match ← here.selfAndParents.findM? fun p => (findConfig fs p).map Option.isSome with
  | some p => return p
  | none => throw (.configuration .noProjectAbove)

/-- The app directory below a root. -/
def findAppDir (fs : Files) (root : Path) : Except Fault (Option Path) :=
  [(root.child "src").child "app", root.child "app"].findM? fs.isDirectory

/-- The patterns of the ignore file below a root. -/
def loadIgnoreFile (fs : Files) (root : Path) : Except Fault (List Text) := do
  let p := root.child ".gitignore"
  if ← fs.isPresent p then return Ignore.patternsOf (← fs.readTextSkipping p) else return []

/-- Load the project at a root. -/
def load (fs : Files) (root : Path) : Except Fault Project := do
  let root ← fs.resolve root
  if !(← fs.isDirectory root) then throw (.configuration (.missingRoot root.text))
  let (aliases, excludes) ← Aliases.load fs root
  let appDir ← findAppDir fs root
  let patterns ← loadIgnoreFile fs root
  return ⟨root, appDir, aliases, Ignore.fixPatterns (patterns ++ excludes)⟩

/-- The directory that holds what runs leave behind. -/
def dataDir (p : Project) : Path := p.root.child dataDirName

/-- The directory that holds what runs of a plugin leave behind. -/
def pluginDir (p : Project) (plugin : Text) : Path := p.dataDir.joinText plugin

/-- The app directory, which routes cannot do without. -/
def requireAppDir (p : Project) : Except Fault Path :=
  match p.appDir with
  | some dir => .ok dir
  | none => .error (.configuration .noAppDirectory)

/-- The text of a path from the project root, or the path as it is if it leads elsewhere. -/
def relative (p : Project) (fs : Files) (path : Path) : Except Fault Text :=
  match fs.resolve path with
  | .ok q =>
    match q.relativeTo? p.root with
    | some rest => .ok rest.text
    | none => .ok path.text
  | .error e => if e.isValueFault then .ok path.text else .error e

/-- Whether a path is ignored. -/
def isIgnored (p : Project) (fs : Files) (path : Path) : Except Fault Bool := do
  return Ignore.matchesAny (← p.relative fs path) p.ignored

end Project

end RoutePlugins
