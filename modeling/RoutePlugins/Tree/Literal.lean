import RoutePlugins.Tree.Walk

/-!
# Literals and places

The text of a string literal, and the lines and columns of nodes.
-/

namespace RoutePlugins

/-- The kinds of node that make up a string literal. -/
def stringPartKinds : List Text := ["string_fragment", "escape_sequence"]

/-- A text without its first and its last code point. -/
def dropEnds (s : Text) : Text := ⟨(s.points.drop 1).dropLast⟩

/-- The text of a plain string literal, with its escapes as they are written. A template counts if
it substitutes nothing. -/
def ParsedFile.stringValue? (f : ParsedFile) (n : Node) : Option Text :=
  if n.isA "string" then
    some (Text.concat
      ((n.namedChildren.filter fun c => stringPartKinds.contains c.kind).map f.text))
  else if n.isA "template_string" then
    if n.namedChildren.any (·.isA "template_substitution") then none
    else some (dropEnds (f.text n))
  else none

/-- A row and a column, both counted from zero; columns count bytes. -/
structure Point where
  row : Int
  column : Int

/-- The point of a byte offset. -/
def pointAt (source : Bytes) (offset : Nat) : Point :=
  let before := source.take offset
  ⟨before.count 10, (before.reverse.takeWhile (· != 10)).length⟩

/-- The part of a source that a report is about. -/
structure Mark where
  start : Point
  stop : Point
  /-- Its bytes, if they are known. -/
  content : Option Bytes

/-- The mark of a node. -/
def ParsedFile.mark (f : ParsedFile) (n : Node) : Mark :=
  ⟨pointAt f.source n.start, pointAt f.source n.stop, some (f.bytes n)⟩

/-- A point as a record; lines are counted from one. -/
def Point.toJson (p : Point) : Json := .obj [("line", .int (p.row + 1)), ("column", .int p.column)]

/-- The place of a mark as a record. -/
def Mark.toJson (m : Mark) : Json := .obj [("start", m.start.toJson), ("end", m.stop.toJson)]

end RoutePlugins
