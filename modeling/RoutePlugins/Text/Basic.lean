/-!
# Texts

A text is a sequence of code points. A code point is a character or one half of a surrogate pair.
Documents and file names can hold a half without its partner, so a text keeps it as it is, at its
place in the order of code points. Written text that needs no halves is a `String`, and is read as
a text wherever one is expected.
-/

namespace RoutePlugins

/-- A character, or one half of a surrogate pair. -/
inductive CodePoint where
  | char (c : Char)
  /-- The half with this distance from the first one. -/
  | half (h : Fin 0x800)
  deriving DecidableEq, Repr, Inhabited

namespace CodePoint

/-- A character is a code point. -/
instance : Coe Char CodePoint := ⟨.char⟩

/-- The number of a code point. -/
def code : CodePoint → Nat
  | .char c => c.toNat
  | .half h => 0xd800 + h.val

/-- The code point with a number. -/
def ofCode (n : Nat) : CodePoint :=
  if h : 0xd800 ≤ n ∧ n < 0xe000 then .half ⟨n - 0xd800, by omega⟩ else .char (Char.ofNat n)

/-- Whether a code point is half a pair. -/
def isHalf : CodePoint → Bool
  | .char _ => false
  | .half _ => true

/-- A character itself. -/
def char? : CodePoint → Option Char
  | .char c => some c
  | .half _ => none

/-- The character of a pair of halves: a first half and, after it, a second one. -/
def join? : CodePoint → CodePoint → Option CodePoint
  | .half a, .half b =>
    if a.val < 0x400 && 0x400 ≤ b.val then some (ofCode (0x10000 + a.val * 0x400 + (b.val - 0x400)))
    else none
  | _, _ => none

end CodePoint

/-- A sequence of code points. -/
structure Text where
  points : List CodePoint
  deriving DecidableEq, Repr, Inhabited

namespace Text

/-- The text of characters. -/
def ofChars (cs : List Char) : Text := ⟨cs.map .char⟩

/-- The text of a string. -/
def ofString (s : String) : Text := ofChars s.toList

/-- A string is a text. -/
instance : Coe String Text := ⟨ofString⟩

/-- One text after another. -/
instance : Append Text := ⟨fun s t => ⟨s.points ++ t.points⟩⟩

/-- How many code points a text has. -/
def length (t : Text) : Nat := t.points.length

/-- Whether a text has no code points. -/
def isEmpty (t : Text) : Bool := t.points.isEmpty

/-- Whether a text begins with another. -/
def startsWith (t front : Text) : Bool := front.points.isPrefixOf t.points

/-- Whether a text ends with another. -/
def endsWith (t back : Text) : Bool := back.points.isSuffixOf t.points

/-- Whether a code point occurs in a text. -/
def contains (t : Text) (p : CodePoint) : Bool := t.points.contains p

/-- A text without its first `n` code points. -/
def drop (t : Text) (n : Nat) : Text := ⟨t.points.drop n⟩

/-- The first `n` code points of a text. -/
def take (t : Text) (n : Nat) : Text := ⟨t.points.take n⟩

/-- Texts one after another. -/
def concat (ts : List Text) : Text := ⟨ts.flatMap (·.points)⟩

/-- Code points with every pair of halves put together. -/
def joinHalves : List CodePoint → List CodePoint
  | a :: b :: rest =>
    match a.join? b with
    | some c => c :: joinHalves rest
    | none => a :: joinHalves (b :: rest)
  | ps => ps

/-- A text with every pair of halves put together. -/
def joined (t : Text) : Text := ⟨joinHalves t.points⟩

/-- A text in lower case, as far as ASCII letters go. -/
def toLower (t : Text) : Text :=
  ⟨t.points.map fun p => match p with
    | .char c => .char c.toLower
    | .half h => .half h⟩

/-- The characters of a text, with a question mark for every half. -/
def chars (t : Text) : List Char := t.points.map fun p => p.char?.getD '?'

/-- The string of a text, with a question mark for every half. -/
def toString (t : Text) : String := String.ofList t.chars

end Text

end RoutePlugins
