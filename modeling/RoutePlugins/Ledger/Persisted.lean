import RoutePlugins.Ledger.Basic

/-!
# Persisted reports

The records that runs have left behind in the data directory, by level and by file.
-/

namespace RoutePlugins.Ledger

/-- The file that keeps the records of a kind. -/
def fileName : ReportKind → Text
  | .error => "errors.json"
  | .warning => "warnings.json"

/-- The records in a document: the objects in a list. -/
def recordsIn : Json → List (List (Text × Json))
  | .arr items => items.filterMap fun v => match v with
    | .obj fields => some fields
    | _ => none
  | _ => []

/-- The records in a file that exists. -/
def readRecords (fs : Files) (p : Path) : Except Fault (List (List (Text × Json))) :=
  match fs.readJson p with
  | .ok document => .ok (recordsIn document)
  | .error (.reading (.syntactic e)) => .error (.configuration (.unreadable p.text e.message))
  | .error e => .error e

/-- The records of a kind in the directory of a plugin. -/
def pluginRecords (fs : Files) (kind : ReportKind) (dir : Path) :
    Except Fault (List (List (Text × Json))) := do
  let p := dir.child (fileName kind)
  if ← fs.isPresent p then readRecords fs p else return []

/-- Whether a directory belongs to one of the plugins; without a list of them, to any. The directory
of digests belongs to none. -/
def belongsTo (fs : Files) (plugins : Option Value) (dir : Path) : Except Fault Bool := do
  if !(← fs.isDirectory dir) || dir.name == Project.digestDirName then return false
  match plugins with
  | some names => names.holds dir.name
  | none => return true

/-- The records of a kind in the directories that belong to one of the plugins. -/
def recordsBelow (fs : Files) (kind : ReportKind) (plugins : Option Value) :
    List Path → Except Fault (List (List (Text × Json)))
  | [] => .ok []
  | dir :: rest => do
    let found ← if ← belongsTo fs plugins dir then pluginRecords fs kind dir else pure []
    return found ++ (← recordsBelow fs kind plugins rest)

/-- All records of a level below a project root, by plugin in the order of their names. -/
def loadReports (fs : Files) (root : Path) (level : Value) (plugins : Option Value) :
    Except Fault (List (List (Text × Json))) := do
  let kind ← ReportKind.ofValue (.configuration (.reportLevel level)) level
  let dataDir := (← fs.resolve root).child Project.dataDirName
  if !(← fs.isDirectory dataDir) then return []
  recordsBelow fs kind plugins (Path.sort (← fs.list dataDir))

/-- The records of a level that are about a file. -/
def reportsForFile (fs : Files) (root : Path) (file : Text) (level : Value)
    (plugins : Option Value) : Except Fault (List (List (Text × Json))) := do
  let target ← fs.resolve (Path.parse file)
  let records ← loadReports fs root level plugins
  return records.filter fun fields =>
    ((Json.fieldOf? "file" fields).bind Json.str?) == some target.text

end RoutePlugins.Ledger
