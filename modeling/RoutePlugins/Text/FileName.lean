import RoutePlugins.Text.Utf8

/-!
# Names of files

The name of a file is a string of bytes, which need not be well formed. Its text has a half for
every byte that belongs to no character, so the bytes can be told from the text. Several texts can
have the same bytes, and they name the same file.
-/

namespace RoutePlugins.Text

/-- The byte that a half stands for in a name. -/
def nameByte? : CodePoint → Option UInt8
  | .char _ => none
  | .half h => if 0x480 ≤ h.val && h.val < 0x500 then some (.ofNat (h.val - 0x400)) else none

/-- The half that stands for a byte in a name. -/
def byteHalf (b : UInt8) : CodePoint := .ofCode (0xdc00 + b.toNat)

/-- The bytes of a code point in a name. -/
def namePointBytes : CodePoint → Bytes
  | .char c => String.utf8EncodeChar c
  | .half h => (nameByte? (.half h)).toList

/-- The bytes of a name. Halves that stand for no byte have none. -/
def nameBytes (t : Text) : Bytes := t.points.flatMap namePointBytes

/-- The first run in a name that has no bytes. -/
def unnameable? (t : Text) : Option Utf8.Unencodable :=
  Utf8.refusedRun? (fun p => p.isHalf && (nameByte? p).isNone) 0 t.points

/-- How many bytes a name takes. -/
def nameSize (t : Text) : Nat := t.points.foldl (fun n p => n + (namePointBytes p).length) 0

/-- The code points of the bytes of a name, which begin with these groups. -/
def namePoints : Bytes → List Utf8.Group → List CodePoint
  | _, [] => []
  | bs, g :: gs =>
    let points :=
      match g.result with
      | .ok c => [.char c]
      | .error _ => (bs.take g.size).map byteHalf
    points ++ namePoints (bs.drop g.size) gs

/-- The text of the bytes of a name. -/
def ofNameBytes (bs : Bytes) : Text := ⟨namePoints bs (Utf8.groups bs)⟩

/-- The text under which a name is found again: that of its bytes. Halves that make up the bytes of
a character become that character. -/
def asName (t : Text) : Text :=
  if t.points.any CodePoint.isHalf then ofNameBytes t.nameBytes else t

end RoutePlugins.Text
