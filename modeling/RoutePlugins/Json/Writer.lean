import RoutePlugins.Json.Basic
import RoutePlugins.Number.Shortest
import RoutePlugins.Text.Quoted

/-!
# Writing JSON

Documents are plain ASCII: every other code point is written by its code units. Items stand on lines
of their own, two blanks deeper than what holds them; a layout without lines is there as well.
-/

namespace RoutePlugins.Json

/-- Where the items of lists and objects stand. -/
structure Layout where
  /-- What stands before an item or a closing bracket at a depth. -/
  gap : Nat → List Char
  /-- What stands between two items, before the gap. -/
  comma : List Char

/-- Every item on a line of its own. -/
def Layout.lines : Layout := ⟨fun depth => '\n' :: List.replicate (2 * depth) ' ', [',']⟩

/-- All on one line. -/
def Layout.compact : Layout := ⟨fun _ => [], [',', ' ']⟩

/-- A code unit as an escape. -/
def unitEscape (n : Nat) : List Char := '\\' :: 'u' :: Text.hexPadded 4 n

/-- The characters that write one code point of a string. -/
def writePoint : CodePoint → List Char
  | .char '"' => ['\\', '"']
  | .char '\\' => ['\\', '\\']
  | .char '\n' => ['\\', 'n']
  | .char '\r' => ['\\', 'r']
  | .char '\t' => ['\\', 't']
  | .char '\x08' => ['\\', 'b']
  | .char '\x0c' => ['\\', 'f']
  | .char c =>
    let n := c.toNat
    if 0x20 ≤ n && n ≤ 0x7e then [c]
    else if n < 0x10000 then unitEscape n
    else
      let m := n - 0x10000
      unitEscape (0xd800 + m / 0x400) ++ unitEscape (0xdc00 + m % 0x400)
  | .half h => unitEscape (CodePoint.half h).code

/-- A string with its quotes. -/
def writeString (t : Text) : List Char := '"' :: t.points.flatMap writePoint ++ ['"']

/-- The digits of a whole number after its sign. -/
def writeInt (n : Int) : List Char :=
  (if n < 0 then ['-'] else []) ++ Nat.toDigits 10 n.natAbs

/-- Numbers without digits have names of their own. -/
def specialNumbers : Double.SpecialTexts := ⟨"NaN", "Infinity"⟩

mutual

/-- The characters of a value at a depth. -/
def writeAt (layout : Layout) (depth : Nat) : Json → List Char
  | .null => "null".toList
  | .bool true => "true".toList
  | .bool false => "false".toList
  | .int n => writeInt n
  | .float d => d.text specialNumbers
  | .str s => writeString s
  | .arr [] => ['[', ']']
  | .arr (v :: rest) =>
    '[' :: layout.gap (depth + 1) ++ writeAt layout (depth + 1) v ++
      writeItems layout (depth + 1) rest ++ layout.gap depth ++ [']']
  | .obj [] => ['{', '}']
  | .obj ((k, v) :: rest) =>
    '{' :: layout.gap (depth + 1) ++ writeString k ++ ':' :: ' ' :: writeAt layout (depth + 1) v ++
      writeFields layout (depth + 1) rest ++ layout.gap depth ++ ['}']

/-- The items after the first, each behind a comma. -/
def writeItems (layout : Layout) (depth : Nat) : List Json → List Char
  | [] => []
  | v :: rest =>
    layout.comma ++ layout.gap depth ++ writeAt layout depth v ++ writeItems layout depth rest

/-- The fields after the first, each behind a comma. -/
def writeFields (layout : Layout) (depth : Nat) : List (Text × Json) → List Char
  | [] => []
  | (k, v) :: rest =>
    layout.comma ++ layout.gap depth ++ writeString k ++ ':' :: ' ' :: writeAt layout depth v ++
      writeFields layout depth rest

end

/-- A document with every item on a line of its own. -/
def write (v : Json) : Text := .ofChars (writeAt .lines 0 v)

/-- A document on one line. -/
def writeCompact (v : Json) : Text := .ofChars (writeAt .compact 0 v)

end RoutePlugins.Json
