import RoutePlugins.Text.Order
import RoutePlugins.Value.Forms

/-!
# Access paths

A path into a store is a non-empty list of non-empty segments. Two paths overlap if one of them
begins with the other.
-/

namespace RoutePlugins

/-- A path into a store. -/
abbrev AccessPath := List Text

namespace AccessPath

/-- Whether `path` begins with `front`. -/
def isFront (front path : AccessPath) : Bool := front.isPrefixOf path

/-- Whether one path begins with the other. -/
def overlaps (p q : AccessPath) : Bool := p.isFront q || q.isFront p

/-- Whether a list of values begins with another, where values are compared by what they mean. -/
def isFrontOfValues (front path : List Json) : Bool :=
  front.length ≤ path.length && (front.zip path).all fun (a, b) => a.same b

/-- Whether one list of values begins with the other. -/
def valuesOverlap (p q : List Json) : Bool := isFrontOfValues p q || isFrontOfValues q p

/-- The segments that a value writes: a text is one segment. -/
def segmentsOf : Value → Except Fault (List Value)
  | .str s => .ok [.str s]
  | v => v.elements

/-- A segment, if it is a text that is not empty. -/
def segment? : Value → Option Text
  | .str s => if s.isEmpty then none else some s
  | _ => none

/-- Check segments one by one; `all` are the segments of the whole path. -/
def checkSegments (all : List Value) : List Value → Except Fault AccessPath
  | [] => .ok []
  | v :: rest =>
    match segment? v with
    | some s => (checkSegments all rest).map (s :: ·)
    | none => .error (.store (.segment v all))

/-- The path that a value writes. -/
def ofValue (v : Value) : Except Fault AccessPath := do
  let segments ← segmentsOf v
  if segments.isEmpty then throw (.store .emptyPath)
  checkSegments segments segments

/-- The value that writes a path. -/
def toValue (p : AccessPath) : Value := .list (p.map .str)

/-- Paths in ascending order. -/
def sort (paths : List AccessPath) : List AccessPath := paths.mergeSort textsLe

end AccessPath

end RoutePlugins
