import RoutePlugins.Text.Utf8

/-!
# Syntax trees

The nodes of a parsed source file, with their byte spans, and the file they belong to. A parser is
any function from a grammar and source bytes to a tree.
-/

namespace RoutePlugins

/-- A node of a syntax tree. -/
structure Node where
  /-- What the node is: an identifier, a call, a comment. -/
  kind : Text
  /-- Whether the grammar names the node, rather than spelling it out. -/
  named : Bool
  /-- The role of the node in its parent. -/
  field : Option Text
  /-- The offset of its first byte. -/
  start : Nat
  /-- The offset after its last byte. -/
  stop : Nat
  /-- The nodes below it, in source order. -/
  children : List Node
  deriving Inhabited

/-- The two grammars of source files. -/
inductive Grammar where
  | typescript
  | tsx
  deriving DecidableEq, Repr

/-- Turns source bytes into a tree. -/
abbrev Parser := Grammar → Bytes → Node

/-- A source file with its tree. -/
structure ParsedFile where
  path : Text
  source : Bytes
  root : Node

namespace Node

/-- Whether a node is of a kind. -/
def isA (n : Node) (kind : Text) : Bool := n.kind == kind

/-- The children that the grammar names. -/
def namedChildren (n : Node) : List Node := n.children.filter (·.named)

/-- The first child with a role. -/
def childByField? (role : Text) (n : Node) : Option Node :=
  n.children.find? fun c => c.field == some role

end Node

/-- The bytes of a node. -/
def ParsedFile.bytes (f : ParsedFile) (n : Node) : Bytes :=
  (f.source.drop n.start).take (n.stop - n.start)

/-- The text of a node. -/
def ParsedFile.text (f : ParsedFile) (n : Node) : Text := Utf8.decodeReplacing (f.bytes n)

/-- The name of a grammar. -/
def Grammar.name : Grammar → Text
  | .typescript => "typescript"
  | .tsx => "tsx"

end RoutePlugins
