import RoutePlugins.Plugin.Basic

/-!
# Collecting calls

A plugin that collects, route by route, the arguments of every call to one imported function. Its
configuration names the module and the export, and the kinds of node that are allowed as arguments;
every other argument is reported as an error.
-/

namespace RoutePlugins.CallCollector

/-- The allowed kinds that a configuration value writes: one text, or the texts in it; plain strings
without one. -/
def allowedKinds (v : Value) : Except Fault (List Text) :=
  match v with
  | .null => .ok ["string"]
  | .str s => .ok [s]
  | v => do
    return (← v.elements).filterMap fun item => match item with
      | .str s => some s
      | _ => none

/-- The local name of an export of a module in a file: that of the first import of it. -/
def localNameOf (imports : List ResolvedImport) (target : Text) (exportName : Value) : Value :=
  match imports.find? fun i => i.file == target && Value.sameKey (.str i.exportName) exportName with
  | some i => i.localName
  | none => .null

/-- Whether a node is a call of a plain name. -/
def callsName (f : ParsedFile) (name : Value) (n : Node) : Bool :=
  match n.childByField? "function" with
  | some function =>
    function.isA "identifier" && Value.sameKey (.str (f.text function)) name
  | none => false

/-- The arguments of a call, remarks apart. -/
def argumentsOf (n : Node) : List Node :=
  match n.childByField? "arguments" with
  | some arguments => arguments.namedChildren.filter (·.kind != "comment")
  | none => []

/-- What is collected for a call. -/
def callRecord (f : ParsedFile) (routeName : Text) (n : Node) : Value :=
  .map [(.str "args", .list ((argumentsOf n).filterMap fun a => (f.stringValue? a).map Value.str)),
    (.str "routeName", .str routeName)]

/-- Report the arguments of a call that are not allowed. -/
def reportArguments (f : ParsedFile) (allowed : List Text) (label : Text) (call : Node) :
    List Node → Phase Unit
  | [] => return ()
  | arg :: rest => do
    if !allowed.contains arg.kind then
      let message := "arg type \"" ++ arg.kind ++ "\" is not allowed for uses of: " ++ label
      let _ ← Phase.call (.report .error (.str message) f.path (some (f.mark call)))
    reportArguments f allowed label call rest

/-- Collect some calls. -/
def collectCalls (f : ParsedFile) (allowed : List Text) (label routeName : Text) :
    List Node → Phase Unit
  | [] => return ()
  | n :: rest => do
    reportArguments f allowed label n (argumentsOf n)
    Phase.call (.collect (callRecord f routeName n))
    collectCalls f allowed label routeName rest

/-- The calls of a name in a file, in the order of a walk. -/
def callsIn (f : ParsedFile) (name : Value) : List Node :=
  f.root.walk.filter fun n => n.isA "call_expression" && callsName f name n

/-- Collect the calls in the files of a route. -/
def collectFiles (target : Text) (exportName : Value) (allowed : List Text)
    (label routeName : Text) : List Text → Phase Unit
  | [] => return ()
  | file :: rest => do
    let name := localNameOf (← Phase.call (.imports file)) target exportName
    if name.truthy then
      let parsed ← Phase.call (.parse file)
      collectCalls parsed allowed label routeName (callsIn parsed name)
    collectFiles target exportName allowed label routeName rest

/-- Collect the calls in the files of some routes. -/
def collectRoutes (target : Text) (exportName : Value) (allowed : List Text)
    (label : Text) : List Route → Phase Unit
  | [] => return ()
  | r :: rest => do
    collectFiles target exportName allowed label r.name r.files
    collectRoutes target exportName allowed label rest

/-- The module path that a configuration names. -/
def targetPath (c : PluginContext) : Except Fault Text :=
  match Value.entry? "path" c.config with
  | some (.str path) =>
    if path.isEmpty then .error (.configuration (.noCallTarget c.plugin)) else .ok path
  | _ => .error (.configuration (.noCallTarget c.plugin))

/-- The export that a configuration names. -/
def exportOf (c : PluginContext) : Value :=
  match Value.entry? "exportIdentifier" c.config with
  | some v => if v.truthy then v else .str "default"
  | none => .str "default"

/-- The phase that collects. -/
def collector : Phase Value := do
  let c ← Phase.call .context
  let path ← Phase.ofExcept (targetPath c)
  let target ← Phase.call (.sourceFile path)
  let exportName := exportOf c
  let allowed ← Phase.ofExcept (allowedKinds ((Value.entry? "allowedArgTypes" c.config).getD .null))
  let label := path ++ "[" ++ exportName.display ++ "]"
  collectRoutes target exportName allowed label (← Phase.call .routes)
  return .null

/-- The phase that gives what was collected. -/
def reducer : Phase Value := Phase.call .collected

/-- The plugin with a configuration as it is. -/
def withConfig (name : Text) (config : Value) : Except Fault Plugin :=
  Plugin.check ⟨name, config, some collector, none, some reducer, none⟩

/-- The plugin for an export of a module. -/
def plugin (path exportName : Value) (allowed : Option Value) (name : Value) :
    Except Fault Plugin := do
  let kinds ← match allowed with
    | some v => v.elements
    | none => pure [.str "string"]
  let config : List (Value × Value) := [(.str "path", .str path.display),
    (.str "exportIdentifier", exportName), (.str "allowedArgTypes", .list kinds)]
  withConfig (← Plugin.nameOf name) (.map config)

end RoutePlugins.CallCollector
