import RoutePlugins.Digest.Gate
import RoutePlugins.Pipeline.Run

/-!
# Compile hooks

A host build calls a hook before each compile. The plugins run only if the project has changed since
the last run. While bundling, the host asks the hook for the text of each file, and gets the texts
staged by the last committed run.
-/

namespace RoutePlugins

/-- A hook with what it remembers of its last run. -/
structure CompileHook where
  setup : Pipeline.Setup
  lastResult : Option RunResult
  /-- The texts that are served. -/
  served : List (Value × Value)

/-- The digest key under which plugin runs are remembered. -/
def pluginsDigestKey : Text := "ran_plugins"

namespace CompileHook

/-- A hook that has not run. -/
def new (setup : Pipeline.Setup) : CompileHook := ⟨setup, none, []⟩

/-- The texts that the last run left behind; none if one of its plugins left errors. -/
def committedFrom (fs : Files) (project : Project) :
    List (Value × Value) → List Plugin → Except Fault (List (Value × Value))
  | merged, [] => .ok merged
  | merged, plugin :: rest => do
    let dir := project.pluginDir plugin.name
    let errors := dir.child "errors.json"
    let staged := dir.child "rewrites.json"
    if !(← fs.isPresent staged) then committedFrom fs project merged rest
    else
      let failed ← if ← fs.isPresent errors then (fs.readJson errors).map (Value.ofJson · |>.truthy)
        else pure false
      if failed then return []
      let entries ← (Value.ofJson (← fs.readJson staged)).toEntries
      committedFrom fs project (Value.updateEntries merged entries) rest

/-- The texts that the last run left behind. -/
def committedTexts (h : CompileHook) (fs : Files) : Except Fault (List (Value × Value)) :=
  committedFrom fs h.setup.project [] h.setup.plugins

/-- The texts that a result lets a hook serve. -/
def servedOf (r : RunResult) : List (Value × Value) :=
  if r.committed then r.staged.map fun (file, code) => (.str file, .ofJson code) else []

/-- The surroundings of a hook, and the hook. -/
abbrev HookM := EStateM Fault (World × CompileHook)

/-- Run the plugins if the project has changed. A run that fails leaves nothing to serve, unless it
was interrupted. A hook that has nothing to serve and need not run serves what the last run left
behind. -/
def run : HookM (Option RunResult) := fun (w, h) =>
  match Plugin.checkDistinct h.setup.plugins with
  | .error e => .error e (w, h)
  | .ok () =>
    match Gate.runIfChanged h.setup.project pluginsDigestKey h.setup.run none w with
    | .error e w =>
      .error e (w, if e.isInterruption then h else { h with lastResult := none, served := [] })
    | .ok (some result) w =>
      .ok (some result) (w, { h with lastResult := some result, served := servedOf result })
    | .ok none w =>
      match Run.done "Sources unchanged, skipping plugins" w with
      | .error e w => .error e (w, h)
      | .ok () w =>
        if !h.served.isEmpty then .ok none (w, h)
        else
          match h.committedTexts w.files with
          | .error e => .error e (w, h)
          | .ok served => .ok none (w, { h with served })

/-- The text to compile for a file: the served one, or the given one. -/
def sourceFor (h : CompileHook) (fs : Files) (file : Text) (code : Value) : Except Fault Value := do
  let p ← fs.resolve (Path.parse file)
  return (Value.entry? p.text h.served).getD code

end CompileHook

end RoutePlugins
