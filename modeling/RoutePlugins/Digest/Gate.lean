import RoutePlugins.Digest.Eligible
import RoutePlugins.World

/-!
# Digest gates

A gate runs work only if a directory has changed since the last time the work was run under the same
key. The digest is remembered before the work and forgotten when the work fails.
-/

namespace RoutePlugins.Gate

/-- The directory that holds the digests of a project. -/
def digestDir (project : Project) : Path := project.dataDir.child Project.digestDirName

/-- The file that holds the digest of a key. A key is a plain visible file name. -/
def digestPath (project : Project) (key : Text) : Except Fault Path :=
  if key.isEmpty || key.contains '/' || key.startsWith "." then
    .error (.configuration (.digestKey key))
  else .ok ((digestDir project).joinText (key ++ ".txt"))

/-- The digest that is remembered for a key. -/
def lastDigest (fs : Files) (project : Project) (key : Text) : Except Fault (Option Text) := do
  let p ← digestPath project key
  if ← fs.isPresent p then return some (Text.trim (← fs.readText p)) else return none

/-- Forget the digest of a key. -/
def forget (project : Project) (key : Text) : Run Unit := do
  let p ← Run.lift (digestPath project key)
  if ← Run.onFiles (·.isPresent p) then Run.changeFiles (Files.change (·.removeFile p))

/-- Forget all digests. -/
def reset (project : Project) : Run Unit := do
  let dir := digestDir project
  if ← Run.onFiles (·.isPresent dir) then Run.changeFiles (Files.change (·.removeTree dir))

/-- Run work and forget the digest of its key if it fails, other than by an interruption. -/
def guarded {α : Type} (project : Project) (key : Text) (work : Run α) : Run α := fun w =>
  match work w with
  | .ok a w => .ok a w
  | .error e w =>
    if e.isInterruption then .error e w
    else
      match forget project key w with
      | .ok () w => .error e w
      | .error e w => .error e w

/-- Run work unless the digest of the directory is the one remembered for the key. -/
def runIfChanged {α : Type} (project : Project) (key : Text) (work : Run α)
    (dir : Option Path) : Run (Option α) := do
  let current ← Run.onFiles (Digest.ofDirectory Sha256.hexText · project dir)
  let last ← Run.onFiles (lastDigest · project key)
  if last == some (current : Text) then return none
  let p ← Run.lift (digestPath project key)
  Run.changeFiles (Files.writeText project.root p current)
  return some (← guarded project key work)

end RoutePlugins.Gate
