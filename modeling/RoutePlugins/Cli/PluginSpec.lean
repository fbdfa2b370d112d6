import RoutePlugins.Cli.Reached

/-!
# Plugin specs

The command line names plugins by a module and a member of it.
-/

namespace RoutePlugins.Cli

/-- The modules that can be named, with their members. -/
abbrev Modules := List (Text × List (Text × Member))

/-- The function that makes plugins which collect calls, and fails without the module to look
for. -/
def callPluginFunction : Member :=
  .function (Member.refusal "hook_calls_plugin() missing 1 required positional argument: 'path'")

/-- What the module of such plugins holds. -/
def callPluginMembers : List (Text × Member) :=
  [("DEFAULT_ALLOWED_ARG_TYPES", .sequence true [.plain (.str "string")]),
   ("Plugin", .maker "Plugin" (Member.refusal Member.namelessPlugin)),
   ("collector", Member.phaseFunction "collector"), ("reducer", Member.phaseFunction "reducer"),
   ("hook_calls_plugin", callPluginFunction)]

/-- The modules that are always there. -/
def ownModules : Modules :=
  [("pipeline", [("Plugin", .maker "Plugin" (Member.refusal Member.namelessPlugin))]),
   ("pipeline.plugins",
     [("__all__", .sequence false [.plain (.str "hook_calls_plugin")]),
      ("hook_calls", .module callPluginMembers), ("hook_calls_plugin", callPluginFunction)]),
   ("pipeline.plugins.hook_calls", callPluginMembers)]

/-- The plugin specs in some texts, each a list with commas. -/
def splitSpecs (texts : List Text) : List Text :=
  texts.flatMap fun text =>
    ((text.split ',').map Text.trim).filter fun spec => !spec.isEmpty

/-- The modules of our own that hold further modules. -/
def packageNames : List Text := ["pipeline", "pipeline.plugins"]

/-- Whether modules are looked for inside a module: one of our own, or one that says where to look.
It is a fault if what it says cannot be run over. -/
def isPackage (known : Modules) (name : Text) : Except Fault Bool :=
  if packageNames.contains name then .ok true
  else
    match Assoc.get? ("__path__" : Text) ((Assoc.get? name known).getD []) with
    | none => .ok false
    | some (.plain .null) | some (.sequence ..) => .ok true
    | some (.plain v) => v.elements.map fun _ => true
    | some m => .error (.kind (.notIterable m.kindName))

/-- Refuse to import the module `wanted`, unless it is known by the parts of its name, given from
the last to the first. A module that is not known is looked for in the one that its name puts around
it. -/
def checkImport (known : Modules) (wanted : Text) : List Text → Except Fault Unit
  | [] => .ok ()
  | last :: above => do
    let name := Text.joinWith "." (above.reverse ++ [last])
    let outer := Text.joinWith "." above.reverse
    let missing := "No module named " ++ Text.quoted name
    if Assoc.contains name known then return ()
    if above.isEmpty then throw (.configuration (.pluginModule wanted missing))
    checkImport known wanted above
    if ← isPackage known outer then throw (.configuration (.pluginModule wanted missing))
    throw (.configuration (.pluginModule wanted
      (missing ++ "; " ++ Text.quoted outer ++ " is not a package")))

/-- The module with a name. -/
def findModule (known : Modules) (name : Text) : Except Fault Member := do
  if name.startsWith "." then throw (.kind (.relativeModule name))
  checkImport known name (name.split '.').reverse
  return .module ((Assoc.get? name known).getD [])

/-- Work on the modules that are known. What it did to them before a failure stays done. -/
abbrev ModulesM := EStateM Fault Modules

/-- The plugins that a spec names. -/
def pluginsOf (spec : Text) : ModulesM (List Plugin) := do
  let some (name, path) := spec.cut? ':' | throw (.configuration (.pluginSpec spec))
  if name.isEmpty || path.isEmpty then throw (.configuration (.pluginSpec spec))
  let module ← Files.lift (findModule (← get) name)
  let some reached := (Reached.start module).follow? (path.split '.')
    | throw (.configuration (.pluginAttribute name path))
  if let some members := reached.membersAfter? then modify (Assoc.insert name members)
  Files.lift (reached.member.plugins spec)

/-- The plugins that the command line names, or else the environment. -/
def loadPlugins (texts : List Text) (fallback : Text) : ModulesM (List Plugin) := do
  let given := splitSpecs texts
  let specs := if given.isEmpty then splitSpecs [fallback] else given
  if specs.isEmpty then throw (.configuration .noPlugins)
  return (← specs.mapM pluginsOf).flatten

end RoutePlugins.Cli
