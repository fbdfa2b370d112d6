import RoutePlugins.Digest.Sha256
import RoutePlugins.Files.Contained
import RoutePlugins.Project.Excluded

/-!
# Directory digests

The files of a directory that count for its digest, and the digest. Excluded and ignored directories
are not entered, links to directories neither. Names decide the order of the files; the digest is
made of their contents alone. Directories may lie as deep in one another as they like.
-/

namespace RoutePlugins.Digest

/-- Whether a name in the directory at a place is that of a directory, or of a link that leads to
one. A link that the operating system refuses to follow leads to none. -/
def namesDirectory (fs : Files) (dir : Path) (place : Location) (name : Text) : Bool :=
  match fs.entry? (place ++ [name]) with
  | some (.link _) => (fs.isDirectory (dir.child name)).toOption.getD false
  | some e => e.isDirectory
  | none => false

/-- The names in a directory, in ascending order, with whether each is that of a directory. There
are none in a directory that the operating system refuses. -/
def namesIn (fs : Files) (dir : Path) : Except Fault (List (Text × Bool)) :=
  match fs.directoryAt dir with
  | .ok place =>
    .ok ((sortTexts (fs.children place)).map fun name => (name, namesDirectory fs dir place name))
  | .error (.os ..) => .ok []
  | .error e => .error e

/-- Keep the items for which a test that may fail holds. -/
def filterE {α : Type} (p : α → Except Fault Bool) : List α → Except Fault (List α)
  | [] => .ok []
  | a :: rest => do
    let keep ← p a
    let kept ← filterE p rest
    return if keep then a :: kept else kept

/-- Whether a directory is entered, links apart. -/
def isOpenDir (fs : Files) (project : Project) (p : Path) : Except Fault Bool := do
  if excludedDirs.contains p.name then return false
  return !(← project.isIgnored fs p)

/-- Whether a file counts. -/
def isCounted (fs : Files) (project : Project) (p : Path) : Except Fault Bool := do
  if ← fs.isFile p then return !(← project.isIgnored fs p) else return false

/-- The files that count, at most `depth` directories deep: those of the directory in the order of
their names, then those of its directories in the order of theirs. -/
def eligibleFrom (fs : Files) (project : Project) : Nat → Path → Except Fault (List Path)
  | 0, _ => .ok []
  | depth + 1, dir => do
    let names ← namesIn fs dir
    let dirs := (names.filter (·.2)).map fun e => dir.child e.1
    let others := (names.filter (!·.2)).map fun e => dir.child e.1
    let entered ← filterE (isOpenDir fs project) dirs
    let files ← filterE (isCounted fs project) others
    let below ← (entered.filter (!fs.isLink ·)).mapM (eligibleFrom fs project depth)
    return files ++ below.flatten

/-- The files of a directory that count for its digest. -/
def eligible (fs : Files) (project : Project) (dir : Path) : Except Fault (List Path) :=
  eligibleFrom fs project (fs.entries.length + 1) dir

/-- The digest of a file. -/
def ofFile (hash : Bytes → String) (fs : Files) (p : Path) : Except Fault String := do
  return hash (← fs.readBytes p)

/-- The digest of a directory of the project: the digest of the digests of its files, and empty if
no file counts. -/
def ofDirectory (hash : Bytes → String) (fs : Files) (project : Project) (dir : Option Path) :
    Except Fault String := do
  let target ← fs.resolve (dir.getD project.root)
  if !(← fs.isInside project.root target) then
    throw (.configuration (.digestOutside target.text project.root.text))
  if !(← fs.isDirectory target) then throw (.configuration (.digestOfNoDirectory target.text))
  let digests ← (← eligible fs project target).mapM (ofFile hash fs)
  return if digests.isEmpty then "" else hash (Utf8.encodeChars (digests.flatMap String.toList))

end RoutePlugins.Digest
