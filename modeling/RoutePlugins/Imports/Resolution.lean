import RoutePlugins.Project.Basic

/-!
# Resolving import specifiers

A specifier that begins with a dot is taken from the importing file. Any other specifier is tried
through the aliases, then as a package, then from the directory of the importing file. Each of these
is tried as it stands, with the source extensions, as a directory with an index file, and as a
directory.
-/

namespace RoutePlugins

/-- The extensions of source files, in the order in which they are tried. -/
def sourceExts : List Text := [".tsx", ".ts", ".jsx", ".js"]

namespace Imports

/-- What a star of a pattern stands for, if the pattern, cut at its first star, fits a specifier. -/
def starToken? (front back specifier : Text) : Option Text :=
  if specifier.startsWith front && specifier.endsWith back &&
      front.length + back.length ≤ specifier.length then
    some ((specifier.drop front.length).take (specifier.length - front.length - back.length))
  else none

/-- The targets of a pattern for a specifier: those of an equal pattern, or those of a pattern with
a star with every star replaced by what it stands for. -/
def patternTargets (specifier pattern : Text) (targets : List Text) : List Text :=
  match pattern.cut? '*' with
  | some (front, back) =>
    match starToken? front back specifier with
    | some token => targets.map fun t => t.replace "*" token
    | none => []
  | none => if specifier == pattern then targets else []

/-- The paths that aliases give for a specifier, and last the specifier below the base directory. -/
def aliasCandidates (specifier : Text) (base : Path) (paths : List (Text × List Text)) :
    List Path :=
  (paths.flatMap fun (pattern, targets) =>
    (patternTargets specifier pattern targets).map base.joinText) ++ [base.joinText specifier]

/-- The first file that a candidate gives with an extension. -/
def findExtended (fs : Files) (candidate : Path) : List Text → Except Fault (Option Path)
  | [] => .ok none
  | ext :: rest => do
    let p ← candidate.extendName ext
    if ← fs.isFile p then return some p else findExtended fs candidate rest

/-- The source that a candidate stands for: the file itself, the file with an extension, the index
file of the directory, or the directory. -/
def findSource (fs : Files) (exts : List Text) (candidate : Path) : Except Fault (Option Path) := do
  if ← fs.isFile candidate then return some candidate
  if let some p ← findExtended fs candidate exts then return some p
  let indexes := exts.map fun ext => candidate.joinText ("index" ++ ext)
  if let some p ← indexes.findM? fs.isFile then return some p
  return if ← fs.isDirectory candidate then some candidate else none

/-- The first candidate that stands for a source. -/
def firstSource (fs : Files) : List Path → Except Fault (Option Path)
  | [] => .ok none
  | candidate :: rest => do
    match ← findSource fs sourceExts candidate.normalize with
    | some p => return some p
    | none => firstSource fs rest

/-- The candidates that the aliases of a project give. -/
def projectCandidates (root : Path) (aliases : Option Aliases) (specifier : Text) : List Path :=
  match aliases with
  | some a => aliasCandidates specifier (root.joinText a.baseUrl).normalize a.paths
  | none => []

/-- Resolve a specifier of the file `importer`. A bare package that is nowhere resolves to where it
would be installed. -/
def resolve (fs : Files) (root : Path) (aliases : Option Aliases) (specifier : Text)
    (importer : Path) : Except Fault Path := do
  let beside := importer.parent.joinText specifier
  if specifier.startsWith "." then
    match ← firstSource fs [beside] with
    | some p => return p
    | none => throw (.unresolved false specifier importer.text)
  else
    let aliased := projectCandidates root aliases specifier
    let package := ((root.child "node_modules").joinText specifier).normalize
    match ← firstSource fs (aliased ++ [package, beside]) with
    | some p => return p
    | none =>
      if 1 < aliased.length then throw (.unresolved true specifier importer.text)
      else return package

end Imports

end RoutePlugins
