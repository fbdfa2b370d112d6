import RoutePlugins.Json.Basic
import RoutePlugins.Tree.Node

/-!
# Dynamic values

What plugin code may hand to the pipeline or get from it: JSON values, and the values that JSON has
no form for, among them maps with keys of any kind and parsed files. The pipeline keeps only those
that have a JSON form. A value that contains itself is refused like one that lies too deep.
-/

namespace RoutePlugins

/-- A value that plugin code handles. -/
inductive Value where
  | null
  | bool (b : Bool)
  | int (n : Int)
  | float (d : Double)
  | str (s : Text)
  | bytes (content : Bytes)
  | list (items : List Value)
  | tuple (items : List Value)
  | set (items : List Value)
  | map (entries : List (Value × Value))
  | parsed (file : ParsedFile)
  /-- An object of which only the name of its kind is known. -/
  | object (kindName : Text)
  deriving Inhabited

namespace Value

/-- The name of the kind of a value, as messages give it. -/
def kindName : Value → Text
  | .null => "NoneType"
  | .bool _ => "bool"
  | .int _ => "int"
  | .float _ => "float"
  | .str _ => "str"
  | .bytes _ => "bytes"
  | .list _ => "list"
  | .tuple _ => "tuple"
  | .set _ => "set"
  | .map _ => "dict"
  | .parsed _ => "ParsedFile"
  | .object name => name

/-- Whether a value counts as true: everything but nothing, zero and what is empty. -/
def truthy : Value → Bool
  | .null => false
  | .bool b => b
  | .int n => n != 0
  | .float d => !d.isZero
  | .str s => !s.isEmpty
  | .bytes b => !b.isEmpty
  | .list items | .tuple items | .set items => !items.isEmpty
  | .map entries => !entries.isEmpty
  | .parsed _ | .object _ => true

mutual

/-- A JSON value as a dynamic value. -/
def ofJson : Json → Value
  | .null => .null
  | .bool b => .bool b
  | .int n => .int n
  | .float d => .float d
  | .str s => .str s
  | .arr items => .list (ofJsonItems items)
  | .obj fields => .map (ofJsonFields fields)

/-- The items of a JSON list as dynamic values. -/
def ofJsonItems : List Json → List Value
  | [] => []
  | v :: rest => ofJson v :: ofJsonItems rest

/-- The fields of a JSON object as map entries. -/
def ofJsonFields : List (Text × Json) → List (Value × Value)
  | [] => []
  | (k, v) :: rest => (.str k, ofJson v) :: ofJsonFields rest

end

mutual

/-- The JSON form of a value: it has one if every list item has one, and every map entry has a text
as its key and a value with a JSON form. -/
def toJson? : Value → Option Json
  | .null => some .null
  | .bool b => some (.bool b)
  | .int n => some (.int n)
  | .float d => some (.float d)
  | .str s => some (.str s)
  | .list items => (toJsonItems? items).map .arr
  | .map entries => (toJsonFields? entries).map .obj
  | _ => none

/-- The JSON forms of the items of a list. -/
def toJsonItems? : List Value → Option (List Json)
  | [] => some []
  | v :: rest =>
    match toJson? v, toJsonItems? rest with
    | some j, some js => some (j :: js)
    | _, _ => none

/-- The JSON forms of the entries of a map. -/
def toJsonFields? : List (Value × Value) → Option (List (Text × Json))
  | [] => some []
  | (.str k, v) :: rest =>
    match toJson? v, toJsonFields? rest with
    | some j, some js => some ((k, j) :: js)
    | _, _ => none
  | _ :: _ => none

end

/-- Whether a value has a JSON form. -/
def isJson (v : Value) : Bool := (toJson? v).isSome

/-- The value of a text key in a map. -/
def entry? (key : Text) : List (Value × Value) → Option Value
  | [] => none
  | (.str k, v) :: rest => if k == key then some v else entry? key rest
  | _ :: rest => entry? key rest

end Value

end RoutePlugins
