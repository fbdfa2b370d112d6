import RoutePlugins.Path
import RoutePlugins.Text.FileName

/-!
# File systems

A file system is a value: which locations hold a directory, a file or a symbolic link, and which
location is the working directory. Every path is looked up by walking its names from the root or
from the working directory. A link on the way is followed, at most forty in one walk. Names and
paths that are too long are refused, and so are paths that no file can have. Access rights, hard
links and failures of the device are left out: what a location holds can be read, listed and
replaced, and no two locations hold one file.
-/

namespace RoutePlugins

/-- A place in the file system: the names from the root down to it, each the text of its bytes. -/
abbrev Location := List Text

/-- What a location holds. -/
inductive Entry where
  | directory
  | file (content : Bytes)
  | link (target : Text)

/-- Whether an entry is a file. -/
def Entry.isFile : Entry → Bool
  | .file _ => true
  | _ => false

/-- Whether an entry is a directory. -/
def Entry.isDirectory : Entry → Bool
  | .directory => true
  | _ => false

/-- A file system with a working directory. The root is always a directory. -/
structure Files where
  entries : List (Location × Entry)
  workingDirectory : Location

namespace Files

/-- What a location holds. -/
def entry? (fs : Files) (l : Location) : Option Entry :=
  if l.isEmpty then some .directory else Assoc.get? l fs.entries

/-- The location at which a path begins. -/
def startOf (fs : Files) (p : Path) : Location :=
  if p.isAbsolute then [] else fs.workingDirectory

/-- The names that a link target writes, single dots among them. A slash at the end leaves an empty
name there. -/
def targetNames (target : Text) : List Text :=
  let names := target.split '/'
  names.dropLast.filter (fun name => !name.isEmpty) ++ names.getLast?.toList

/-- Where a link target begins, for a link in the directory `here`. -/
def targetStart (here : Location) (target : Text) : Location :=
  if target.startsWith "/" then [] else here

/-- A location and what it holds, if anything. -/
abbrev Found := Location × Option Entry

/-- What a walk does at its end. -/
inductive Ending where
  /-- It follows a link. -/
  | follow
  /-- It stays at a link. -/
  | keep
  /-- It follows a link, to a file that is to be written and may be new. -/
  | create
  deriving DecidableEq, Repr

/-- The most bytes of a name. -/
def maxName : Nat := 255

/-- The least number of bytes that a path cannot have. -/
def pathLimit : Nat := 4096

/-- Walk names from `here`. A link is handed to `follow` with the names after it, unless the walk
ends and stays there. An empty name and a single dot only ask for a directory, and a file to be
written cannot be named by a name with a slash behind it. Only the last name may be missing. -/
def walkNames (fs : Files) (ending : Ending)
    (follow : Location → List Text → Except OsCode Found) :
    Location → List Text → Except OsCode Found
  | here, [] => .ok (here, fs.entry? here)
  | here, name :: rest =>
    match fs.entry? here with
    | some .directory =>
      if name.isEmpty || name == "." then walkNames fs ending follow here rest
      else if name == ".." then walkNames fs ending follow here.dropLast rest
      else if ending == .create && rest == [("" : Text)] then .error .isDirectory
      else if maxName < Text.nameSize name then .error .nameTooLong
      else
        let next := here ++ [name.asName]
        match fs.entry? next with
        | some (.link target) =>
          if rest.isEmpty && ending == .keep then .ok (next, some (.link target))
          else follow (targetStart here target) (targetNames target ++ rest)
        | some _ => walkNames fs ending follow next rest
        | none => if rest.isEmpty then .ok (next, none) else .error .missing
    | some (.file _) => .error .notDirectory
    | _ => .error .missing

/-- Walk names from `here`, following at most `links` links. -/
def walk (fs : Files) (ending : Ending) : Nat → Location → List Text → Except OsCode Found
  | 0 => fs.walkNames ending fun _ _ => .error .linkLoop
  | links + 1 => fs.walkNames ending (fs.walk ending links)

/-- The most links that one walk follows. -/
def maxLinks : Nat := 40

/-- A refusal of the operating system about a path. -/
def refuse {α : Type} (code : OsCode) (p : Path) : Except Fault α :=
  .error (.os code (Text.quoted p.text))

/-- Refuse a path that no file can have. -/
def checkPath (p : Path) : Except Fault Unit :=
  match Text.unnameable? p.text with
  | some e => .error (.encoding e)
  | none =>
    if p.text.contains '\x00' then .error (.range .nullByte)
    else if pathLimit ≤ Text.nameSize p.text then refuse .nameTooLong p
    else .ok ()

/-- Where a path leads. -/
def locate (fs : Files) (ending : Ending) (p : Path) : Except Fault Found := do
  checkPath p
  match fs.walk ending maxLinks (fs.startOf p) p.names with
  | .ok found => return found
  | .error code => refuse code p

/-- What a path leads to. -/
def stat (fs : Files) (p : Path) : Except Fault Entry := do
  match ← fs.locate .follow p with
  | (_, some e) => return e
  | (_, none) => refuse .missing p

/-- Whether a fault means that there is nothing to find. -/
def meansAbsent : Fault → Bool
  | .os .missing _ | .os .notDirectory _ | .os .linkLoop _ => true
  | .encoding _ | .range _ => true
  | _ => false

/-- Whether something was found and satisfies `p`. -/
def foundWith (p : Entry → Bool) : Except Fault Entry → Except Fault Bool
  | .ok e => .ok (p e)
  | .error e => if meansAbsent e then .ok false else .error e

/-- Whether a path leads to anything. -/
def isPresent (fs : Files) (p : Path) : Except Fault Bool :=
  foundWith (fun _ => true) (fs.stat p)

/-- Whether a path leads to a file. -/
def isFile (fs : Files) (p : Path) : Except Fault Bool := foundWith Entry.isFile (fs.stat p)

/-- Whether a path leads to a directory. -/
def isDirectory (fs : Files) (p : Path) : Except Fault Bool :=
  foundWith Entry.isDirectory (fs.stat p)

/-- Whether a path names a link. -/
def isLink (fs : Files) (p : Path) : Bool :=
  match fs.locate .keep p with
  | .ok (_, some (.link _)) => true
  | _ => false

/-- The names in a directory. -/
def children (fs : Files) (l : Location) : List Text :=
  fs.entries.filterMap fun (place, _) => if place.dropLast == l then place.getLast? else none

end Files

end RoutePlugins
