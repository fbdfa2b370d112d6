import RoutePlugins.Files.Access
import RoutePlugins.Json.Writer
import RoutePlugins.Value.Forms

/-!
# Writing below a root

Files are written only where their resolved location is below the resolved root. The directories
above a written file are made as needed.
-/

namespace RoutePlugins.Files

/-- Whether the resolved form of `p` is below the resolved root. A path that no file can have is
nowhere. -/
def isInside (fs : Files) (root p : Path) : Except Fault Bool :=
  match (do return (← fs.resolve p, ← fs.resolve root) : Except Fault (Path × Path)) with
  | .ok (q, r) => .ok (q.relativeTo? r).isSome
  | .error e => if e.isValueFault then .ok false else .error e

/-- Refuse a path that is not below the root. -/
def ensureInside (fs : Files) (root p : Path) : Except Fault Unit := do
  if ← fs.isInside root p then return ()
  else throw (.range (.outsideRoot p.text root.text))

/-- Raise the error of a result. -/
def lift {σ α : Type} : Except Fault α → EStateM Fault σ α
  | .ok a => pure a
  | .error e => throw e

/-- Replace the file system by a changed one. -/
def change (f : Files → Except Fault Files) : EStateM Fault Files Unit := do
  set (← lift (f (← get)))

/-- Write a text to a file. A text that has no bytes leaves the file empty. -/
def writeEncoded (p : Path) (text : Text) : EStateM Fault Files Unit := do
  match Utf8.encode text with
  | .ok content => change (·.writeBytes p content)
  | .error e => do
    change (·.writeBytes p [])
    throw (.encoding e)

/-- Write a text to a file below the root. -/
def writeText (root p : Path) (text : Text) : EStateM Fault Files Unit := do
  lift ((← get).ensureInside root p)
  ensureDirectories p.parent
  writeEncoded p text

/-- Write the document of a value to a file below the root. -/
def writeValue (root p : Path) (v : Value) : EStateM Fault Files Unit := do
  let j ← lift v.document
  writeText root p j.write

end RoutePlugins.Files
