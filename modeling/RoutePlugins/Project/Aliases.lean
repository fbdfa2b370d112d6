import RoutePlugins.Files.Access
import RoutePlugins.Json.Comments
import RoutePlugins.Text.Blank

/-!
# Import aliases

The alias patterns of a project and the directory from which bare imports are taken, as its
configuration file gives them, with the paths that the file excludes.
-/

namespace RoutePlugins

/-- The aliases that a configuration file declares. -/
structure Aliases where
  /-- Where targets and bare specifiers are looked up, from the project root. -/
  baseUrl : Text
  /-- Patterns with their targets, in declared order. -/
  paths : List (Text × List Text)
  /-- The file that declares them, or nothing. -/
  source : Text

namespace Aliases

/-- The configuration files, in the order in which they are looked for. -/
def fileNames : List Text := ["tsconfig.json", "jsconfig.json"]

/-- The aliases as a record. -/
def toJson (a : Aliases) : Json :=
  .obj [("baseUrl", .str a.baseUrl),
    ("paths", .obj (a.paths.map fun (p, ts) => (p, .arr (ts.map .str)))), ("source", .str a.source)]

/-- The texts of a list of texts. -/
def texts? (items : List Json) : Option (List Text) := items.mapM Json.str?

/-- The targets of a pattern: one text or a list of texts. -/
def targets? : Json → Option (List Text)
  | .str s => some [s]
  | .arr items => texts? items
  | _ => none

/-- Read the patterns of a configuration file. -/
def readPaths (name : Text) : List (Text × Json) →
    Except ConfigurationFault (List (Text × List Text))
  | [] => .ok []
  | (pattern, v) :: rest =>
    match targets? v with
    | some targets => (readPaths name rest).map ((pattern, targets) :: ·)
    | none => .error (.targetsNotTexts name pattern)

/-- The fields of an optional object. -/
def fields? : Option Json → Option (List (Text × Json))
  | none => some []
  | some (.obj fields) => some fields
  | some _ => none

/-- The texts of an optional list, without whatever else is in it. -/
def excludesOf : Option Json → List Text
  | some (.arr items) => items.filterMap Json.str?
  | _ => []

/-- The aliases and the excluded paths of a configuration document. There are no aliases without a
pattern or a base directory, and a blank base directory is the project root. -/
def ofDocument (name : Text) (document : Json) :
    Except ConfigurationFault (Option Aliases × List Text) := do
  let .obj fields := document | throw (.notAnObject name)
  let some options := fields? (Json.fieldOf? "compilerOptions" fields)
    | throw (.optionsNotAnObject name)
  let some patterns := fields? (Json.fieldOf? "paths" options) | throw (.pathsNotAnObject name)
  let paths ← readPaths name patterns
  let base := (Json.fieldOf? "baseUrl" options).bind Json.str?
  let excludes := excludesOf (Json.fieldOf? "exclude" fields)
  match paths, base with
  | [], none => return (none, excludes)
  | _, _ =>
    let url := base.getD ""
    return (some ⟨if (Text.trim url).isEmpty then "." else url, paths, name⟩, excludes)

/-- The document in a configuration file. A file that cannot be read or is not JSON is a fault of
configuration. -/
def readDocument (fs : Files) (name : Text) (p : Path) : Except Fault Json :=
  let result := do
    let text ← fs.readText p
    (Json.read (Json.stripComments text)).mapError .reading
  match result with
  | .error (.os code place) =>
    .error (.configuration (.unreadable name (Fault.os code place).message))
  | .error (.reading (.syntactic e)) => .error (.configuration (.unreadable name e.message))
  | r => r

/-- The aliases and the excluded paths of a project, from the first configuration file there is. -/
def load (fs : Files) (root : Path) : Except Fault (Option Aliases × List Text) := do
  match ← fileNames.findM? fun name => fs.isPresent (root.child name) with
  | none => return (none, [])
  | some name => do
    let document ← readDocument fs name (root.child name)
    (ofDocument name document).mapError .configuration

end Aliases

end RoutePlugins
