import RoutePlugins.Fault
import RoutePlugins.Text.Order

/-!
# Paths

A path is an anchor and a list of names. Reading a path drops empty names and single dots and keeps
double dots. A path that begins with exactly two slashes has an anchor of its own.
-/

namespace RoutePlugins

/-- Where a path begins. -/
inductive Anchor where
  | relative
  | root
  | doubleRoot
  deriving DecidableEq, Repr

/-- A path, read lexically. -/
structure Path where
  anchor : Anchor
  names : List Text
  deriving DecidableEq, Repr

/-- The text of an anchor. -/
def Anchor.text : Anchor → Text
  | .relative => ""
  | .root => "/"
  | .doubleRoot => "//"

namespace Path

/-- The anchor of a text. -/
def anchorOf : List CodePoint → Anchor
  | .char '/' :: .char '/' :: .char '/' :: _ => .root
  | .char '/' :: .char '/' :: _ => .doubleRoot
  | .char '/' :: _ => .root
  | _ => .relative

/-- The names of a text: what stands between slashes, apart from nothing and single dots. -/
def namesOf (s : Text) : List Text :=
  (s.split '/').filter fun name => !(name.isEmpty || name == ".")

/-- Read a path. -/
def parse (s : Text) : Path := ⟨anchorOf s.points, namesOf s⟩

/-- The anchor and the names of a path, written out; nothing for the empty relative path. -/
def writtenOut (p : Path) : Text := p.anchor.text ++ Text.joinWith "/" p.names

/-- The text of a path; the empty relative path is a dot. -/
def text (p : Path) : Text :=
  match p.anchor, p.names with
  | .relative, [] => "."
  | _, _ => p.writtenOut

/-- Whether a path begins at a root. -/
def isAbsolute (p : Path) : Bool := p.anchor != .relative

/-- The path `q` taken from `p`; an absolute `q` stands for itself. -/
def join (p q : Path) : Path := if q.isAbsolute then q else ⟨p.anchor, p.names ++ q.names⟩

/-- The path that a text names below `p`. -/
def joinText (p : Path) (s : Text) : Path := p.join (parse s)

/-- The path one name below `p`, where `name` is a single name. -/
def child (p : Path) (name : Text) : Path := ⟨p.anchor, p.names ++ [name]⟩

/-- The path without its last name. -/
def parent (p : Path) : Path := ⟨p.anchor, p.names.dropLast⟩

/-- The last name; empty if there is none. -/
def name (p : Path) : Text := p.names.getLast?.getD ""

/-- A name cut before its last dot, unless that dot is its first or its last code point. -/
def splitName (name : Text) : Text × Text :=
  let after := (name.points.reverse.takeWhile (· != .char '.')).reverse
  let front := name.take (name.length - after.length - 1)
  if after.isEmpty || front.isEmpty || after.length == name.length then (name, "")
  else (front, ⟨.char '.' :: after⟩)

/-- The last dot of the name and what follows it. -/
def suffix (p : Path) : Text := (splitName p.name).2

/-- The name without its suffix. -/
def stem (p : Path) : Text := (splitName p.name).1

/-- The path with `extra` at the end of its last name. Single dots behind slashes may follow the
name, and ask for a directory. -/
def extendName (p : Path) (extra : Text) : Except Fault Path :=
  if p.names.isEmpty then .error (.range (.emptyName p.text))
  else
    let new := p.name ++ extra
    match new.contains '/', namesOf new with
    | false, _ => .ok (p.parent.child new)
    | true, [name] =>
      if new.endsWith "/" then .error (.range (.invalidName new))
      else .ok ((p.parent.child name).child ".")
    | true, _ => .error (.range (.invalidName new))

/-- The rest of `p` below `root`, if `p` is there. -/
def relativeTo? (p root : Path) : Option Path :=
  if p.anchor == root.anchor && root.names.isPrefixOf p.names then
    some ⟨.relative, p.names.drop root.names.length⟩
  else none

/-- The rest of `p` below `root`. -/
def relativeTo (p root : Path) : Except Fault Path :=
  match p.relativeTo? root with
  | some q => .ok q
  | none => .error (.range (.notBelow p.text root.writtenOut))

/-- Follow names from a list of names, taking double dots lexically and never above the start. -/
def foldDots (start names : List Text) : List Text :=
  names.foldl (fun here (name : Text) => if name == ".." then here.dropLast else here ++ [name])
    start

/-- Names of a relative path with double dots taken lexically; those that lead above it stay. -/
def foldRelative (names : List Text) : List Text :=
  names.foldl (fun here (name : Text) =>
    if name == ".." && !here.isEmpty && here.getLast? != some ".." then here.dropLast
    else here ++ [name]) []

/-- The path with its double dots taken lexically. -/
def normalize (p : Path) : Path :=
  if p.isAbsolute then ⟨p.anchor, foldDots [] p.names⟩ else ⟨p.anchor, foldRelative p.names⟩

/-- The names of a path with its anchor in front, by which paths are ordered. -/
def parts (p : Path) : List Text := if p.isAbsolute then p.anchor.text :: p.names else p.names

/-- Paths in the order of their parts. -/
def sort (paths : List Path) : List Path := paths.mergeSort fun p q => textsLe p.parts q.parts

/-- The path itself and the paths above it, nearest first. -/
def selfAndParents (p : Path) : List Path :=
  (List.range (p.names.length + 1)).map fun n => ⟨p.anchor, p.names.take (p.names.length - n)⟩

end Path

end RoutePlugins
