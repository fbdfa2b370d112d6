import RoutePlugins.Project.Excluded
import RoutePlugins.Routes.Layouts

/-!
# Route entries

The routes of an app directory with the files that each of them starts from: the route file itself,
the layouts around it, and for a page its template and its loading file.
-/

namespace RoutePlugins.Routes

/-- A route with the files it starts from. -/
structure Group where
  name : Text
  entries : List Path

/-- The names of files that make a route. -/
def routeFileNames : List Text := ["page", "error", "not-found", "global-error"]

/-- The names of route files that layouts wrap. -/
def layoutRouteNames : List Text := ["page", "error", "not-found"]

/-- Whether a path below the app directory is a route file. -/
def isRouteFile (fs : Files) (appDir p : Path) : Except Fault Bool := do
  if !sourceExts.contains p.suffix then return false
  return (← fs.isFile p) && !((p.names.drop appDir.names.length).any excludedDirs.contains) &&
    routeFileNames.contains p.stem

/-- The route files among some paths below the app directory. -/
def routeFilesAmong (fs : Files) (appDir : Path) : List Path → Except Fault (List Path)
  | [] => .ok []
  | p :: rest => do
    let isRoute ← isRouteFile fs appDir p
    let others ← routeFilesAmong fs appDir rest
    return if isRoute then p :: others else others

/-- The route files below the app directory, in the order of their paths. -/
def routeFiles (fs : Files) (appDir : Path) : Except Fault (List Path) := do
  routeFilesAmong fs appDir (Path.sort (← fs.below appDir))

/-- The name of the route of a file, given the directories from the app directory to it. -/
def routeName (dirs : List Text) (stem : Text) : Text :=
  "/" ++ Text.joinWith "/" (dirs ++ [stem])

/-- The files that the route of a file starts from. -/
def entriesOf (fs : Files) (appDir : Path) (dirs : List Text) (file : Path) :
    Except Fault (List Path) := do
  let layouts ← if layoutRouteNames.contains file.stem then layoutsAlong fs appDir dirs
    else pure []
  let extras : List Text := if file.stem == "page" then ["template", "loading"] else []
  return file :: layouts ++ (← extras.mapM (withSourceExt fs file.parent)).filterMap id

/-- The routes of a project. An error file at the top is no route beside a global one. -/
def groups (fs : Files) (project : Project) : Except Fault (List Group) := do
  let appDir ← project.requireAppDir
  let files ← routeFiles fs appDir
  let isTop (p : Path) (stem : Text) : Bool := p.parent == appDir && p.stem == stem
  let hasGlobalError := files.any fun p => isTop p "global-error"
  let kept := files.filter fun p => !(hasGlobalError && isTop p "error")
  kept.mapM fun p => do
    let dirs := p.parent.names.drop appDir.names.length
    return ⟨routeName dirs p.stem, ← entriesOf fs appDir dirs p⟩

/-- A route as a record. -/
def Group.toValue (g : Group) : Value :=
  .map [(.str "name", .str g.name), (.str "entries", .list (g.entries.map fun p => .str p.text))]

end RoutePlugins.Routes
