import RoutePlugins.Files.Basic

/-!
# Resolving paths

The resolved form of a path is absolute and runs through no link. Names that lead nowhere are kept,
and double dots after them are taken lexically. A path that runs in a circle of links has no
resolved form.

The names are resolved one after the other, from the path as it is spelled: a relative path stays
relative until a link leads to the root. A link that was resolved before is not resolved again, and
a link that is being resolved closes a circle. From there on the names are kept as they are.
-/

namespace RoutePlugins.Files

/-- Resolved names: the path so far, or the path with a circle of links in it. -/
inductive Resolution where
  | reached (p : Path)
  | circle (p : Path)

/-- The links met so far, each with what it resolves to, or nothing while it is being resolved. -/
abbrev SeenLinks := List (Path × Option Path)

/-- A step that keeps track of links. -/
abbrev ResolveM := EStateM Fault SeenLinks

/-- The path one step up. A relative path goes up beyond its start. -/
def stepUp (p : Path) : Path :=
  match p.names.getLast? with
  | none => if p.isAbsolute then p else ⟨.relative, [".."]⟩
  | some name => if name == ".." then p.child ".." else p.parent

/-- The target of the link at a path, if there is a link. What the operating system refuses is no
link. -/
def linkTarget? (fs : Files) (p : Path) : Except Fault (Option Text) :=
  match fs.locate .keep p with
  | .ok (_, some (.link target)) => .ok (some target)
  | .ok _ | .error (.os ..) => .ok none
  | .error e => .error e

/-- Note what a link resolves to. -/
def noteLink (p : Path) (resolved : Option Path) : ResolveM Unit :=
  modify fun seen => Assoc.insert p resolved seen

/-- Resolve names from the path `here`. A link that was not met before is handed to `follow`. -/
def resolveNames (fs : Files) (follow : Path → Text → ResolveM Resolution) :
    Path → List Text → ResolveM Resolution
  | here, [] => return .reached here
  | here, name :: rest =>
    if name.isEmpty || name == "." then resolveNames fs follow here rest
    else if name == ".." then resolveNames fs follow (stepUp here) rest
    else do
      let next := here.child name
      let after := Path.parse (Text.joinWith "/" rest)
      match fs.linkTarget? next with
      | .error e => throw e
      | .ok none => resolveNames fs follow next rest
      | .ok (some target) =>
        match Assoc.get? next (← get) with
        | some (some resolved) => resolveNames fs follow resolved rest
        | some none => return .circle (next.join after)
        | none =>
          noteLink next none
          match ← follow here target with
          | .circle p => return .circle (p.join after)
          | .reached resolved =>
            noteLink next (some resolved)
            resolveNames fs follow resolved rest

/-- Resolve a text from the path `here`, with at most `depth` links inside one another. -/
def resolveText (fs : Files) : Nat → Path → Text → ResolveM Resolution
  | 0, here, _ => return .circle here
  | depth + 1, here, text =>
    let start := if text.startsWith "/" then ⟨.root, []⟩ else here
    fs.resolveNames (fs.resolveText depth) start (text.split '/')

/-- How deep links may lie inside one another. -/
def maxNested : Nat := 1000

/-- The absolute path of a location. -/
def absolute (l : Location) : Path := ⟨.root, l⟩

/-- The path to which a path resolves, circles apart. -/
def resolvePath (fs : Files) (p : Path) : Except Fault Path :=
  match fs.resolveText maxNested ⟨.relative, []⟩ p.text [] with
  | .ok (.reached q) _ | .ok (.circle q) _ =>
    .ok ((absolute fs.workingDirectory).join q).normalize
  | .error e _ => .error e

/-- The resolved form of a path. -/
def resolve (fs : Files) (p : Path) : Except Fault Path := do
  let q ← fs.resolvePath p
  match fs.stat q with
  | .error (.os .linkLoop _) => throw (.linkCircle q.text)
  | .error (.os ..) | .ok _ => return q
  | .error e => throw e

end RoutePlugins.Files
