import RoutePlugins.Imports.Resolution
import RoutePlugins.Tree.Literal
import RoutePlugins.Value.Forms

/-!
# Import bindings

The names that a source file imports: by default, by name or as a namespace in import statements,
and by dynamic imports that are assigned to a variable. Each binding resolves to a file.
-/

namespace RoutePlugins

/-- A name that a source file imports. -/
structure ImportBinding where
  specifier : Text
  exportName : Text
  localName : Option Text

/-- An import with the file it comes from. The local name is a text, or nothing. -/
structure ResolvedImport where
  file : Text
  exportName : Text
  localName : Value

namespace ImportBinding

/-- The bindings of one named import: the alias is the local name, if there is one. -/
def ofSpecifier (f : ParsedFile) (specifier : Text) (spec : Node) : List ImportBinding :=
  if spec.kind != "import_specifier" then []
  else
    match spec.childByField? "name" with
    | none => []
    | some name =>
      let imported := if name.isA "string" then f.stringValue? name else some (f.text name)
      let localName := match spec.childByField? "alias" with
        | some a => some (f.text a)
        | none => imported
      [⟨specifier, imported.getD "", localName⟩]

/-- The bindings of one part of an import clause. -/
def ofClausePart (f : ParsedFile) (specifier : Text) (part : Node) : List ImportBinding :=
  if part.isA "identifier" then [⟨specifier, "default", some (f.text part)⟩]
  else if part.isA "namespace_import" then
    [⟨specifier, "*", (part.namedChildren.find? (·.isA "identifier")).map f.text⟩]
  else if part.isA "named_imports" then part.namedChildren.flatMap (ofSpecifier f specifier)
  else []

/-- The bindings of an import statement. -/
def ofStatement (f : ParsedFile) (n : Node) : List ImportBinding :=
  match (n.childByField? "source").bind f.stringValue?,
      n.namedChildren.find? (·.isA "import_clause") with
  | some specifier, some clause => clause.namedChildren.flatMap (ofClausePart f specifier)
  | _, _ => []

/-- The variable to which the value of a visited node is assigned. -/
def declaredName? (f : ParsedFile) (v : Visit) : Option Text := do
  let name ← (← v.ancestor? "variable_declarator").childByField? "name"
  if name.isA "identifier" then some (f.text name) else none

/-- The binding of a dynamic import. -/
def ofCall (f : ParsedFile) (v : Visit) : List ImportBinding :=
  let found : Option ImportBinding := do
    let function ← v.node.childByField? "function"
    guard (function.isA "import")
    let arguments ← v.node.childByField? "arguments"
    let specifier ← f.stringValue? (← arguments.namedChildren.head?)
    return ⟨specifier, "dynamic", some (← declaredName? f v)⟩
  found.toList

/-- The bindings of one visited node. -/
def ofVisit (f : ParsedFile) (v : Visit) : List ImportBinding :=
  if v.node.isA "import_statement" then ofStatement f v.node
  else if v.node.isA "call_expression" then ofCall f v
  else []

/-- The bindings of a source file, in the order of a walk through it. -/
def all (f : ParsedFile) : List ImportBinding := f.root.visits.flatMap (ofVisit f)

end ImportBinding

namespace ResolvedImport

/-- An import as a record; a missing local name is left out. -/
def toValue (i : ResolvedImport) : Value :=
  .map ([(.str "file", .str i.file), (.str "exportName", .str i.exportName)] ++
    match i.localName with
    | .null => []
    | v => [(.str "localName", v)])

/-- The import that a record writes. -/
def ofValue (v : Value) : Except Fault ResolvedImport := do
  let file ← v.member "file"
  let exportName ← v.member "exportName"
  let fields ← v.asRecord "get"
  return ⟨file.display, exportName.display, (Value.entry? "localName" fields).getD .null⟩

/-- The local name of a binding as a value. -/
def localValue : Option Text → Value
  | some s => .str s
  | none => .null

/-- Resolve bindings in turn; `known` holds the files of the specifiers resolved so far. -/
def resolveFrom (resolve : Text → Except Fault Path) (known : List (Text × Text)) :
    List ImportBinding → Except Fault (List ResolvedImport)
  | [] => .ok []
  | b :: rest => do
    let file ← match Assoc.get? b.specifier known with
      | some file => pure file
      | none => (resolve b.specifier).map Path.text
    let others ← resolveFrom resolve (Assoc.insert b.specifier file known) rest
    return ⟨file, b.exportName, localValue b.localName⟩ :: others

/-- The imports of a source file. -/
def all (fs : Files) (root : Path) (aliases : Option Aliases) (f : ParsedFile) :
    Except Fault (List ResolvedImport) :=
  resolveFrom (fun s => Imports.resolve fs root aliases s (Path.parse f.path)) []
    (ImportBinding.all f)

end ResolvedImport

end RoutePlugins
