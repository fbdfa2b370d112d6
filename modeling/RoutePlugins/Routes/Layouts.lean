import RoutePlugins.Imports.Resolution

/-!
# Layouts

The layout files that wrap a route, nearest first. A layout inside a route group takes the place of
the layout directly above it.
-/

namespace RoutePlugins.Routes

/-- The file with this name and a source extension, in the order of the extensions. -/
def withSourceExt (fs : Files) (dir : Path) (name : Text) : Except Fault (Option Path) :=
  (sourceExts.map fun ext => dir.child (name ++ ext)).findM? fs.isFile

/-- The layout file of a directory. -/
def layoutOf (fs : Files) (dir : Path) : Except Fault (Option Path) :=
  withSourceExt fs dir "layout"

/-- Whether code points are in parentheses, with something on one line between them. -/
def inParentheses (ps : List CodePoint) : Bool :=
  match ps with
  | .char '(' :: rest =>
    let inner := rest.dropLast
    rest.getLast? == some (.char ')') && !inner.isEmpty && !inner.contains '\n'
  | _ => false

/-- Whether a directory name is a route group. A line end after the parentheses does not count. -/
def isGroup (segment : Text) : Bool :=
  let ps := segment.points
  inParentheses ps || (ps.getLast? == some (.char '\n') && inParentheses ps.dropLast)

/-- A layout with the depth of its directory below the app directory. -/
abbrev Layout := Path × Nat

/-- Add the layout of the directory at `depth`, whose name is `segment`, in front of those above. -/
def addLayout (segment : Text) (depth : Nat) (layout : Path) (above : List Layout) : List Layout :=
  match above with
  | (nearest, d) :: rest =>
    if isGroup segment && d + 1 == depth then (layout, depth) :: rest
    else (layout, depth) :: (nearest, d) :: rest
  | [] => [(layout, depth)]

/-- The layouts along the directories below `dir`, which is at `depth`. -/
def layoutsFrom (fs : Files) (dir : Path) (depth : Nat) (found : List Layout) :
    List Text → Except Fault (List Layout)
  | [] => .ok found
  | segment :: rest => do
    let below := dir.child segment
    let found := match ← layoutOf fs below with
      | some layout => addLayout segment (depth + 1) layout found
      | none => found
    layoutsFrom fs below (depth + 1) found rest

/-- The layouts that wrap the directory `segments` below the app directory, nearest first. -/
def layoutsAlong (fs : Files) (appDir : Path) (segments : List Text) :
    Except Fault (List Path) := do
  let top := (← layoutOf fs appDir).toList.map fun layout => (layout, 0)
  return (← layoutsFrom fs appDir 0 top segments).map Prod.fst

/-- The layouts that wrap a route directory, nearest first. -/
def parentLayouts (fs : Files) (appDir routeDir : Path) : Except Fault (List Path) := do
  let _ ← layoutOf fs appDir
  layoutsAlong fs appDir (← routeDir.relativeTo appDir).names

end RoutePlugins.Routes
