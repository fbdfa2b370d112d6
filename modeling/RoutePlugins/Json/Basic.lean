import RoutePlugins.Assoc
import RoutePlugins.Number.Double
import RoutePlugins.Text.Basic

/-!
# JSON values

Whole numbers and doubles are kept apart, and an object is the list of its fields in order.
-/

namespace RoutePlugins

/-- A JSON value. -/
inductive Json where
  | null
  | bool (b : Bool)
  | int (n : Int)
  | float (d : Double)
  | str (s : Text)
  | arr (items : List Json)
  | obj (fields : List (Text × Json))
  deriving Inhabited

namespace Json

/-- The value of a field of an object. -/
def fieldOf? (key : Text) (fields : List (Text × Json)) : Option Json := Assoc.get? key fields

/-- The value of a field; `none` also for values that are not objects. -/
def field? (key : Text) : Json → Option Json
  | .obj fields => fieldOf? key fields
  | _ => none

/-- The text of a string value. -/
def str? : Json → Option Text
  | .str s => some s
  | _ => none

mutual

/-- A value with every pair of halves in its texts put together. Where the names of two fields
become one, the first gives the place and the last the value. -/
def joined : Json → Json
  | .str s => .str s.joined
  | .arr items => .arr (joinedItems items)
  | .obj fields => .obj (Assoc.ofList (joinedFields fields))
  | v => v

/-- Items with every pair of halves in their texts put together. -/
def joinedItems : List Json → List Json
  | [] => []
  | v :: rest => v.joined :: joinedItems rest

/-- Fields with every pair of halves in their names and texts put together. -/
def joinedFields : List (Text × Json) → List (Text × Json)
  | [] => []
  | (k, v) :: rest => (k.joined, v.joined) :: joinedFields rest

end

/-- The whole number that a truth value counts as. -/
def boolInt (b : Bool) : Int := if b then 1 else 0

/-- Equality of scalars: numbers are compared by value, and a truth value counts as 0 or 1. -/
def sameScalar : Json → Json → Bool
  | .null, .null => true
  | .str a, .str b => a == b
  | .bool a, .bool b => a == b
  | .int a, .int b => a == b
  | .bool a, .int b => boolInt a == b
  | .int a, .bool b => a == boolInt b
  | .float a, .float b => a.same b
  | .float a, .int b => a.sameAsInt b
  | .int a, .float b => b.sameAsInt a
  | .float a, .bool b => a.sameAsInt (boolInt b)
  | .bool a, .float b => b.sameAsInt (boolInt a)
  | _, _ => false

mutual

/-- Equality of values: numbers by value, objects whatever the order of their fields. -/
def same : Json → Json → Bool
  | .arr xs, .arr ys => sameItems xs ys
  | .obj xs, .obj ys => xs.length == ys.length && sameFields xs ys
  | x, y => sameScalar x y

/-- Equality of lists, item by item. -/
def sameItems : List Json → List Json → Bool
  | [], [] => true
  | x :: xs, y :: ys => x.same y && sameItems xs ys
  | _, _ => false

/-- Whether every field of the first object is in the second with an equal value. -/
def sameFields : List (Text × Json) → List (Text × Json) → Bool
  | [], _ => true
  | (k, x) :: rest, ys =>
    (match Assoc.get? k ys with
      | some y => x.same y
      | none => false) && sameFields rest ys

end

end Json

end RoutePlugins
