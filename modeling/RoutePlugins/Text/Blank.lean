import RoutePlugins.Text.Basic

/-!
# Blank code points

The code points that count as blank around a word or a line: the ASCII blanks, the four
information separators, and the space characters of Unicode. Trimming removes them from both ends.
-/

namespace RoutePlugins.Text

/-- A space character, a line end or an information separator. -/
def isBlank (p : CodePoint) : Bool :=
  let n := p.code
  (9 ≤ n && n ≤ 13) || (0x1c ≤ n && n ≤ 0x20) || n == 0x85 || n == 0xa0 || n == 0x1680 ||
    (0x2000 ≤ n && n ≤ 0x200a) || n == 0x2028 || n == 0x2029 || n == 0x202f || n == 0x205f ||
    n == 0x3000

/-- Drop the code points satisfying `f` from both ends. -/
def trimWhile (f : CodePoint → Bool) (t : Text) : Text :=
  ⟨((t.points.dropWhile f).reverse.dropWhile f).reverse⟩

/-- A text without the blanks at its ends. -/
def trim (t : Text) : Text := t.trimWhile isBlank

/-- A text without the slashes at its ends. -/
def trimSlashes (t : Text) : Text := t.trimWhile (· == '/')

end RoutePlugins.Text
