import RoutePlugins.Cli.Offer
import RoutePlugins.Cli.Template
import RoutePlugins.Plugin.Basic

/-!
# Members of modules

What a module holds under its names: plugins, sequences of them, functions that make them, and plain
values. Every member has members of its own, and some can be called without arguments. A member
stands for plugins if it is one, is a sequence of some, or gives such when it is called. Some
operations change the member that they belong to.
-/

namespace RoutePlugins.Cli

/-- What can be reached by names from a module. -/
inductive Member where
  | plugin (p : Plugin)
  /-- Members in a row, as a tuple if `fixed` and otherwise as a list. -/
  | sequence (fixed : Bool) (items : List Member)
  /-- Something with members of its own. -/
  | space (members : List (Text × Member))
  | module (members : List (Text × Member))
  /-- A function, with what it gives or why it fails. -/
  | function (made : Except Fault Member)
  /-- An operation of another member, with what it gives or why it fails, and with what it leaves in
  the place of that member. -/
  | operation (owner : Member) (made : Except Fault Member) (left : Member)
  /-- What makes things of a kind, with what it makes or why it fails. -/
  | maker (kindName : Text) (made : Except Fault Member)
  | plain (v : Value)

namespace Member

/-- A list or a tuple of plain values is a sequence. -/
def ofValue : Value → Member
  | .list items => .sequence false (items.map .plain)
  | .tuple items => .sequence true (items.map .plain)
  | v => .plain v

/-- Something that leads to no plugin. -/
def dull : Member := .plain .null

/-- The fault of a call that lacks arguments. -/
def refusal (text : Text) : Except Fault Member := .error (.raised "TypeError" text)

/-- The name of the kind of a member. -/
def kindName : Member → Text
  | .plugin _ => "Plugin"
  | .sequence true _ => "tuple"
  | .sequence false _ => "list"
  | .space _ => "SimpleNamespace"
  | .module _ => "module"
  | .function _ => "function"
  | .operation .. => "builtin_function_or_method"
  | .maker .. => "type"
  | .plain v => v.kindName

/-- The name of the kind of a member with where that kind comes from, if it comes from anywhere. -/
def fullKindName : Member → Text
  | .space _ => "types.SimpleNamespace"
  | m => m.kindName

/-- What the kind of a member offers. -/
def kindOffers : Member → Offers
  | .plugin _ => .plugin
  | .sequence true _ | .plain (.tuple _) => .tuple
  | .sequence false _ | .plain (.list _) => .list
  | .space _ => .space
  | .module _ => .module
  | .function _ => .function
  | .operation .. => .operation
  | .maker .. => .maker
  | .plain .null => .nothing
  | .plain (.bool _) | .plain (.int _) => Offers.number ++ .whole
  | .plain (.float _) => Offers.number ++ .double
  | .plain (.str _) => .text
  | .plain (.map _) => .map
  | .plain _ => []

/-- The message that a plugin cannot be made without a name. -/
def namelessPlugin : Text := "Plugin.__init__() missing 1 required positional argument: 'name'"

/-- The message that a module cannot be made without a name. -/
def namelessModule : Text := "module() missing required argument 'name' (pos 1)"

/-- What makes things of the kind of a member. -/
def kindMaker (m : Member) : Member :=
  .maker m.kindName <| match m with
    | .plugin _ => refusal namelessPlugin
    | .module _ => refusal namelessModule
    | .function _ => refusal "function() missing required argument 'code' (pos 1)"
    | .operation .. => refusal ("cannot create '" ++ m.kindName ++ "' instances")
    | .maker .. => refusal "type() takes 1 or 3 arguments"
    | .sequence fixed _ => .ok (.sequence fixed [])
    | .space _ | .plain _ => .ok dull

/-- A function that works on what a phase is given, and fails without it. -/
def phaseFunction (name : Text) : Member :=
  .function (refusal (name ++ "() missing 2 required positional arguments: 'ctx' and 'api'"))

/-- A phase of a plugin as a member of it. -/
def ofPhase (name : Text) (phase : Option (Phase Value)) : Member :=
  if phase.isSome then phaseFunction name else dull

/-- The parts of a plugin. -/
def pluginParts (p : Plugin) : List (Text × Member) :=
  let building : Text := if p.builder.isSome then "builder" else "reducer"
  [("name", .plain (.str p.name)), ("config", .plain p.config),
   ("collector", ofPhase "collector" p.collector), ("builder", ofPhase "builder" p.builder),
   ("reducer", ofPhase "reducer" p.reducer), ("rewriter", ofPhase "rewriter" p.stager),
   ("build_phase", ofPhase building p.buildPhase)]

/-- The parts of a whole number. -/
def intParts (n : Int) : List (Text × Member) :=
  [("real", .plain (.int n)), ("numerator", .plain (.int n)), ("imag", .plain (.int 0)),
   ("denominator", .plain (.int 1))]

/-- What is held by a member itself. -/
def parts : Member → List (Text × Member)
  | .plugin p => pluginParts p
  | .space members | .module members => members
  | .operation owner made left => [("__self__", owner), ("__call__", .operation owner made left)]
  | .function made =>
    [("__call__", .function made), ("__dict__", .plain (.map [])),
     ("__annotations__", .plain (.map []))]
  | .maker kindName made => [("__call__", .maker kindName made)]
  | .plain (.int n) => intParts n
  | .plain (.bool b) => intParts (Json.boolInt b)
  | .plain (.float d) =>
    [("real", .plain (.float d)), ("imag", .plain (.float (.ofQuotient false 0 1)))]
  | _ => []

/-- What the pieces of a text come to: only a list without items leads anywhere. -/
def piecesOf (isEmpty : Bool) : Member := if isEmpty then .sequence false [] else dull

/-- What operations of a text give if that depends on the text. -/
def textAnswers (s : Text) : List (Text × Except Fault Member) :=
  let words : Except Fault Member := .ok (piecesOf s.trim.isEmpty)
  [("split", words), ("rsplit", words), ("splitlines", .ok (piecesOf s.isEmpty)),
   ("encode", ((Utf8.encode s).mapError Fault.encoding).map fun _ => dull),
   ("format", (Template.fill s.points).map fun _ => dull)]

/-- What operations of a whole number give if that depends on the number. -/
def intAnswers (n : Int) : List (Text × Except Fault Member) :=
  let bytes : Except Fault Member :=
    if n < 0 then .error (.raised "OverflowError" "can't convert negative int to unsigned")
    else if 255 < n then .error (.raised "OverflowError" "int too big to convert")
    else .ok dull
  [("to_bytes", bytes)]

/-- The members that have an order among themselves: numbers, texts, lists and tuples. -/
def orderOf? : Member → Option Nat
  | .plain (.bool _) | .plain (.int _) | .plain (.float _) => some 0
  | .plain (.str _) => some 1
  | .plain (.list _) => some 2
  | .plain (.tuple _) => some 3
  | .sequence fixed _ => some (if fixed then 3 else 2)
  | _ => none

/-- What sorting gives: nothing, unless two neighbours have no order among themselves. -/
def sorting : List Member → Except Fault Member
  | a :: b :: rest =>
    if a.orderOf?.isSome && a.orderOf? == b.orderOf? then sorting (b :: rest)
    else refusal ("'<' not supported between instances of '" ++ b.fullKindName ++ "' and '" ++
      a.fullKindName ++ "'")
  | _ => .ok dull

/-- What operations of a sequence give if that depends on its items. -/
def sequenceAnswers (fixed : Bool) (items : List Member) : List (Text × Except Fault Member) :=
  let last : Except Fault Member := match items.getLast? with
    | some m => .ok m
    | none => .error (.raised "IndexError" "pop from empty list")
  let hashed : Except Fault Member :=
    if items.any fun m => m matches .plugin _ then .error (.kind (.unhashable "Plugin"))
    else .ok dull
  if fixed then [("__hash__", hashed)]
  else [("copy", .ok (.sequence false items)), ("pop", last), ("sort", sorting items)]

/-- What operations of a member give if that is more than its kind tells. -/
def answers : Member → List (Text × Except Fault Member)
  | .plain (.str s) => textAnswers s
  | .plain (.int n) => intAnswers n
  | .sequence fixed items => sequenceAnswers fixed items
  | .plain (.map []) => [("popitem", .error (.missingKey (.str "popitem(): dictionary is empty")))]
  | .plugin _ =>
    [("__init__", refusal namelessPlugin),
     ("__eq__", refusal "Plugin.__eq__() missing 1 required positional argument: 'other'"),
     ("__new__", refusal "object.__new__(): not enough arguments")]
  | .space _ => [("__new__", refusal "types.SimpleNamespace.__new__(): not enough arguments")]
  | .operation .. => [("__new__", refusal "object.__new__(): not enough arguments")]
  | .module _ =>
    [("__init__", refusal namelessModule),
     ("__format__", refusal "__format__() takes exactly one argument (0 given)"),
     ("__reduce_ex__", refusal "__reduce_ex__() takes exactly one argument (0 given)")]
  | _ => []

/-- What an operation leaves of some items. -/
def itemsAfter {α : Type} (operation : Text) (items : List α) : List α :=
  if operation == "clear" then []
  else if operation == "pop" || operation == "popitem" then items.dropLast
  else if operation == "reverse" then items.reverse
  else items

/-- What one of its operations leaves of a member. A list that is set up again is empty. -/
def after (operation : Text) : Member → Member
  | .sequence false items =>
    .sequence false (if operation == "__init__" then [] else itemsAfter operation items)
  | .plain (.map entries) => .plain (.map (itemsAfter operation entries))
  | m => m

/-- What a member offers under a name by its kind. What a note says leads nowhere, so that its name
stands for it. -/
def offered? (name : Text) (m : Member) : Option Member :=
  let operation (made : Except Fault Member) : Member := .operation m made (m.after name)
  match Assoc.get? name m.answers with
  | some made => some (operation made)
  | none =>
    match Offers.get? (m.kindOffers ++ Offers.common) name with
    | some .field => some dull
    | some .note => some (.plain (.str name))
    | some .answer => some (operation (.ok dull))
    | some (.lacking what) => some (operation (refusal (what.message m.kindName name)))
    | none => if name == "__class__" then some m.kindMaker else none

/-- A member with another one as its part. -/
def withPart (owner : Member) (name : Text) (part : Member) : Member :=
  match owner, part with
  | .space members, part => .space (Assoc.insert name part members)
  | .module members, part => .module (Assoc.insert name part members)
  | .plugin p, .plain v => .plugin (if name == "config" then { p with config := v } else p)
  | owner, _ => owner

/-- The plugin that a member is. -/
def plugin? : Member → Option Plugin
  | .plugin p => some p
  | _ => none

/-- The plugins that a member stands for. -/
def plugins (spec : Text) : Member → Except Fault (List Plugin)
  | .plugin p => .ok [p]
  | .sequence _ items =>
    match items.mapM plugin? with
    | some plugins => .ok plugins
    | none => .error (.configuration (.notPlugins spec))
  | .function (.ok made) | .operation _ (.ok made) _ | .maker _ (.ok made) => made.plugins spec
  | .function (.error e) | .operation _ (.error e) _ | .maker _ (.error e) => .error e
  | .space _ | .module _ | .plain _ => .error (.configuration (.notPlugins spec))

end Member

end RoutePlugins.Cli
