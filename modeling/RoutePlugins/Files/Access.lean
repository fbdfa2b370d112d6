import RoutePlugins.Files.Resolve
import RoutePlugins.Text.Lines

/-!
# Reading and changing files

Reading gives the bytes or the text of a file; a text is read with its line ends made alike.
Changes give the file system after them, and a change that fails gives none.
-/

namespace RoutePlugins.Files

/-- The bytes of a file. -/
def readBytes (fs : Files) (p : Path) : Except Fault Bytes := do
  match ← fs.stat p with
  | .file content => return content
  | _ => refuse .isDirectory p

/-- The text of bytes, with line ends made alike. -/
def textOf (content : Bytes) : Except Fault Text :=
  match Utf8.decode content with
  | .ok t => .ok t.unifyLineEnds
  | .error e => .error (.decoding e)

/-- The text of a file. -/
def readText (fs : Files) (p : Path) : Except Fault Text := do textOf (← fs.readBytes p)

/-- The text of a file, without the bytes that are not text. -/
def readTextSkipping (fs : Files) (p : Path) : Except Fault Text := do
  let content ← fs.readBytes p
  return (Utf8.decodeSkipping content).unifyLineEnds

/-- The JSON document in a file. -/
def readJson (fs : Files) (p : Path) : Except Fault Json := do
  (Json.read (← fs.readText p)).mapError .reading

/-- Put an entry at a location. -/
def put (fs : Files) (l : Location) (e : Entry) : Files :=
  { fs with entries := Assoc.insert l e fs.entries }

/-- Write a file, following a link at the end of the path. -/
def writeBytes (fs : Files) (p : Path) (content : Bytes) : Except Fault Files := do
  match ← fs.locate .create p with
  | (_, some .directory) => refuse .isDirectory p
  | (l, _) => return fs.put l (.file content)

/-- Make one directory. -/
def makeDirectory (fs : Files) (p : Path) : Except Fault Files := do
  match ← fs.locate .keep p with
  | (l, none) => return fs.put l .directory
  | (_, some _) => refuse .present p

/-- Make one directory, content with one that is there already. -/
def ensureDirectory (fs : Files) (p : Path) : Except Fault Files :=
  match fs.makeDirectory p with
  | .ok fs => .ok fs
  | .error (.os .missing place) => .error (.os .missing place)
  | .error (.os code place) => do
    if ← fs.isDirectory p then return fs else throw (.os code place)
  | .error e => .error e

/-- Make a directory and the directories above it that are missing; `names` are the last names of
the path, in reverse. The file system is given also on failure, since directories above may have
been made. -/
def ensureDirectoriesFrom (anchor : Anchor) : List Text → Files → Files × Except Fault Unit
  | names, fs =>
    let p : Path := ⟨anchor, names.reverse⟩
    match fs.ensureDirectory p, names with
    | .ok fs, _ => (fs, .ok ())
    | .error (.os .missing _), _ :: above =>
      match ensureDirectoriesFrom anchor above fs with
      | (fs, .error e) => (fs, .error e)
      | (fs, .ok ()) =>
        match fs.ensureDirectory p with
        | .ok fs => (fs, .ok ())
        | .error e => (fs, .error e)
    | .error e, _ => (fs, .error e)

/-- Make a directory and the directories above it that are missing. -/
def ensureDirectories (p : Path) : EStateM Fault Files Unit := fun fs =>
  match ensureDirectoriesFrom p.anchor p.names.reverse fs with
  | (fs, .ok ()) => .ok () fs
  | (fs, .error e) => .error e fs

/-- Remove a file or a link. -/
def removeFile (fs : Files) (p : Path) : Except Fault Files := do
  match ← fs.locate .keep p with
  | (_, some .directory) => refuse .isDirectory p
  | (l, some _) => return { fs with entries := fs.entries.filter (·.1 != l) }
  | (_, none) => refuse .missing p

/-- Remove a directory and all that is in it. A link to a directory is not removed so. -/
def removeTree (fs : Files) (p : Path) : Except Fault Files := do
  match ← fs.locate .keep p with
  | (l, some .directory) =>
    return { fs with entries := fs.entries.filter fun e => !l.isPrefixOf e.1 }
  | (_, some (.link _)) => do
    let _ ← fs.stat p
    throw .linkedTree
  | (_, some (.file _)) =>
    throw (.os .notDirectory ("PosixPath(" ++ Text.quoted p.text ++ ")"))
  | (_, none) => refuse .missing p

/-- The location of a directory. -/
def directoryAt (fs : Files) (p : Path) : Except Fault Location := do
  match ← fs.locate .follow p with
  | (l, some .directory) => return l
  | (_, some _) => refuse .notDirectory p
  | (_, none) => refuse .missing p

/-- The paths of what is in a directory. -/
def list (fs : Files) (p : Path) : Except Fault (List Path) := do
  return (fs.children (← fs.directoryAt p)).map p.child

/-- Whether a path names a directory and no link to one. -/
def isOwnDirectory (fs : Files) (p : Path) : Bool :=
  match fs.locate .keep p with
  | .ok (_, some .directory) => true
  | _ => false

/-- The paths below a directory, at most `depth` deep. Links to directories are not entered. -/
def belowFrom (fs : Files) : Nat → Path → Except Fault (List Path)
  | 0, _ => .ok []
  | depth + 1, p => do
    let inside ← (← fs.list p).mapM fun q => do
      return q :: (← if fs.isOwnDirectory q then fs.belowFrom depth q else pure [])
    return inside.flatten

/-- The paths of all that is below a directory; nothing if it is none. -/
def below (fs : Files) (p : Path) : Except Fault (List Path) := do
  if ← fs.isDirectory p then fs.belowFrom (fs.entries.length + 1) p else return []

end RoutePlugins.Files
