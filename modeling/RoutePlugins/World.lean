import RoutePlugins.Ledger.Basic

/-!
# Runs and their surroundings

What a run works on: the files, the parser, the clock, the text it writes for the user, the trace of
what phases did, and the snapshots of the stores it has ended. A run that fails keeps what it did
before the failure.
-/

namespace RoutePlugins

/-- A finished action of a phase. -/
structure TraceEntry where
  plugin : Text
  phase : Text
  action : Text
  result : Value

/-- The surroundings of a run. -/
structure World where
  files : Files
  parser : Parser
  clock : Clock
  /-- What was written for the user. -/
  log : Text
  /-- The finished actions, newest first. -/
  trace : List TraceEntry
  /-- The snapshots of the stores ended so far, newest first. -/
  history : List Snapshot

/-- A run, or a part of one. -/
abbrev Run := EStateM Fault World

namespace World

/-- The files with their parser. -/
def sources (w : World) : Sources := ⟨w.files, w.parser⟩

end World

namespace Run

/-- Raise the fault of a result. -/
def lift {α : Type} : Except Fault α → Run α := Files.lift

/-- Look at the files. -/
def onFiles {α : Type} (f : Files → Except Fault α) : Run α := do lift (f (← get).files)

/-- Change the files. -/
def changeFiles {α : Type} (m : EStateM Fault Files α) : Run α := fun w =>
  match m w.files with
  | .ok a files => .ok a { w with files }
  | .error e files => .error e { w with files }

/-- Write a line for the user. -/
def say (line : Text) : Run Unit := modify fun w => { w with log := w.log ++ line ++ "\n" }

/-- Say that something begins. -/
def begins (message : Text) : Run Unit := say ("  [....] " ++ message)

/-- Say that something is done. -/
def done (message : Text) : Run Unit := say ("  [done] " ++ message)

/-- Warn about something. -/
def warn (message : Text) : Run Unit := say ("  [warn] " ++ message)

/-- Say that something failed. -/
def fail (message : Text) : Run Unit := say ("  [fail] " ++ message)

end Run

end RoutePlugins
