import RoutePlugins.Path

/-!
# Walking syntax trees

A walk visits a node and then what is below it, from left to right, by keeping a stack of the nodes
to visit. Each visit knows the nodes above it. `preorder` lists the nodes by recursion on the tree.
-/

namespace RoutePlugins

/-- The grammar of each kind of source file. -/
def Grammar.ofSuffix : List (Text × Grammar) :=
  [(".ts", .typescript), (".mts", .typescript), (".cts", .typescript), (".tsx", .tsx),
    (".jsx", .tsx), (".js", .tsx), (".mjs", .tsx), (".cjs", .tsx)]

/-- The grammar for a path, by its suffix in lower case; every other file is read as TSX. -/
def Grammar.ofPath (path : Text) : Grammar :=
  (Assoc.get? (Path.parse path).suffix.toLower Grammar.ofSuffix).getD .tsx

/-- Parse source bytes as a file at a path. -/
def Parser.parse (parser : Parser) (path : Text) (source : Bytes) : ParsedFile :=
  ⟨path, source, parser (Grammar.ofPath path) source⟩

/-- A node with the nodes above it, nearest first. -/
structure Visit where
  node : Node
  above : List Node

namespace Node

mutual

/-- How many nodes a tree has. -/
def size : Node → Nat
  | ⟨_, _, _, _, _, children⟩ => 1 + sizes children

/-- How many nodes some trees have together. -/
def sizes : List Node → Nat
  | [] => 0
  | n :: rest => n.size + sizes rest

end

mutual

/-- The nodes of a tree: the node, then the nodes of its children from left to right. -/
def preorder : Node → List Node
  | ⟨kind, named, field, start, stop, children⟩ =>
    ⟨kind, named, field, start, stop, children⟩ :: preorders children

/-- The nodes of some trees, one tree after the other. -/
def preorders : List Node → List Node
  | [] => []
  | n :: rest => n.preorder ++ preorders rest

end

/-- Visit the nodes on a stack and what is below them, at most `fuel` nodes. -/
def walkStack : Nat → List Visit → List Visit
  | 0, _ => []
  | _, [] => []
  | fuel + 1, v :: stack =>
    v :: walkStack fuel ((v.node.children.map fun c => ⟨c, v.node :: v.above⟩) ++ stack)

/-- The visits of a walk through a tree. -/
def visits (root : Node) : List Visit := walkStack root.size [⟨root, []⟩]

/-- The nodes of a tree in the order of a walk. -/
def walk (root : Node) : List Node := root.visits.map (·.node)

end Node

/-- The nearest node of a kind above a visited node. -/
def Visit.ancestor? (v : Visit) (kind : Text) : Option Node := v.above.find? (·.isA kind)

end RoutePlugins
