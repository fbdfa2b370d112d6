import RoutePlugins.Text.Printable

/-!
# Quoted text

A text between quotes, as messages show it: single quotes, unless the text has a single quote and
no double quote. The quote in use, the backslash and the code points without a printable form are
escaped.
-/

namespace RoutePlugins.Text

/-- `n` in lowercase hexadecimal with at least `width` digits. -/
def hexPadded (width n : Nat) : List Char :=
  let digits := Nat.toDigits 16 n
  List.replicate (width - digits.length) '0' ++ digits

/-- The quote to put around a text. -/
def quoteFor (ps : List CodePoint) : Char :=
  if ps.contains '\'' && !ps.contains '"' then '"' else '\''

/-- The escape of a code point without a printable form. -/
def codeEscape (n : Nat) : List Char :=
  if n < 0x100 then '\\' :: 'x' :: hexPadded 2 n
  else if n < 0x10000 then '\\' :: 'u' :: hexPadded 4 n
  else '\\' :: 'U' :: hexPadded 8 n

/-- The two-character escapes shared by texts and byte strings. -/
def shortEscape? (quote c : Char) : Option (List Char) :=
  if c == quote || c == '\\' then some ['\\', c]
  else if c == '\n' then some ['\\', 'n']
  else if c == '\r' then some ['\\', 'r']
  else if c == '\t' then some ['\\', 't']
  else none

/-- One code point of a quoted text. -/
def quotePoint (quote : Char) : CodePoint → List Char
  | .char c =>
    (shortEscape? quote c).getD (if isPrintable c then [c] else codeEscape c.toNat)
  | .half h => codeEscape (CodePoint.half h).code

/-- A text between quotes. -/
def quoted (t : Text) : Text :=
  let q := quoteFor t.points
  .ofChars (q :: t.points.flatMap (quotePoint q) ++ [q])

/-- One byte of a quoted byte string: only the printable ASCII characters stand for themselves. -/
def quoteByte (quote : Char) (b : UInt8) : List Char :=
  let c := Char.ofNat b.toNat
  (shortEscape? quote c).getD
    (if 0x20 ≤ b.toNat && b.toNat < 0x7f then [c] else codeEscape b.toNat)

/-- A byte string between quotes, with its mark in front. -/
def quotedBytes (bytes : List UInt8) : Text :=
  let q := quoteFor (bytes.map fun b => .char (Char.ofNat b.toNat))
  .ofChars ('b' :: q :: bytes.flatMap (quoteByte q) ++ [q])

end RoutePlugins.Text
