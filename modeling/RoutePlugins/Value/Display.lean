import RoutePlugins.Number.Shortest
import RoutePlugins.Text.Quoted
import RoutePlugins.Text.Search
import RoutePlugins.Value.Basic

/-!
# Showing dynamic values

The text of a value inside a message. Texts stand in quotes when they are part of another value, and
without quotes on their own.
-/

namespace RoutePlugins.Value

/-- Numbers without digits have names of their own. -/
def specialNumbers : Double.SpecialTexts := ⟨"nan", "inf"⟩

mutual

/-- A value as it is shown inside another one. -/
def quoted : Value → Text
  | .null => "None"
  | .bool true => "True"
  | .bool false => "False"
  | .int n => toString n
  | .float d => .ofChars (d.text specialNumbers)
  | .str s => Text.quoted s
  | .bytes b => Text.quotedBytes b
  | .list items => "[" ++ quotedItems items ++ "]"
  | .tuple [v] => "(" ++ quoted v ++ ",)"
  | .tuple items => "(" ++ quotedItems items ++ ")"
  | .set [] => "set()"
  | .set items => "\x7b" ++ quotedItems items ++ "\x7d"
  | .map entries => "\x7b" ++ quotedEntries entries ++ "\x7d"
  | .parsed f => "ParsedFile(" ++ Text.quoted f.path ++ ")"
  | .object name => "<" ++ name ++ " object>"

/-- Items with commas between them. -/
def quotedItems : List Value → Text
  | [] => ""
  | [v] => quoted v
  | v :: rest => quoted v ++ ", " ++ quotedItems rest

/-- Entries with commas between them. -/
def quotedEntries : List (Value × Value) → Text
  | [] => ""
  | [(k, v)] => quoted k ++ ": " ++ quoted v
  | (k, v) :: rest => quoted k ++ ": " ++ quoted v ++ ", " ++ quotedEntries rest

end

/-- A value as it is shown on its own. -/
def display : Value → Text
  | .str s => s
  | v => quoted v

/-- A list of texts as it is shown in messages. -/
def quotedPath (path : List Text) : Text :=
  "[" ++ Text.joinWith ", " (path.map Text.quoted) ++ "]"

end RoutePlugins.Value
