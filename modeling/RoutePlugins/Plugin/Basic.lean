import RoutePlugins.Plugin.Phase

/-!
# Plugins

A plugin has a name, a configuration and up to three phases: one collects, one builds, one stages
new texts for files. Either a builder or a reducer builds.
-/

namespace RoutePlugins

/-- A plugin. -/
structure Plugin where
  name : Text
  config : Value
  collector : Option (Phase Value)
  builder : Option (Phase Value)
  reducer : Option (Phase Value)
  stager : Option (Phase Value)

namespace Plugin

/-- Whether a name can name a directory of its own: it is a plain visible file name. -/
def isName (name : Text) : Bool :=
  !(name.isEmpty || name.contains '/' || name.startsWith ".")

/-- The name that a value gives to a plugin. A value that is no text is refused at the first thing
that it lacks for a name: it is empty, nothing can be looked for in it, or it has no beginning. -/
def nameOf (v : Value) : Except Fault Text := do
  let refused : Except Fault Text := .error (.configuration (.pluginName v))
  if !v.truthy then refused
  else if ← v.holds "/" then refused
  else
    match v with
    | .str name => if isName name then .ok name else refused
    | v => .error (.noMember v.kindName "startswith")

/-- A plugin, if its name will do and it does not build twice. -/
def check (p : Plugin) : Except Fault Plugin :=
  if !isName p.name then .error (.configuration (.pluginName (.str p.name)))
  else if p.builder.isSome && p.reducer.isSome then
    .error (.configuration (.twoBuildPhases p.name))
  else .ok p

/-- The phase that builds. -/
def buildPhase (p : Plugin) : Option (Phase Value) := p.builder <|> p.reducer

/-- The names that occur more than once, in ascending order. -/
def duplicateNames (names : List Text) : List Text :=
  sortDistinct (names.filter fun name => 1 < names.count name)

/-- Refuse plugins of which two have one name. -/
def checkDistinct (plugins : List Plugin) : Except Fault Unit :=
  match duplicateNames (plugins.map (·.name)) with
  | [] => .ok ()
  | names => .error (.configuration (.duplicatePlugins names))

end Plugin

end RoutePlugins
