import RoutePlugins.Text.Basic

/-!
# Lines

Splitting a text at its line ends, and reading the three ways of ending a line as one.
-/

namespace RoutePlugins.Text

/-- A code point that ends a line. A carriage return with a line feed after it is one end. -/
def isLineEnd (p : CodePoint) : Bool :=
  let n := p.code
  (10 ≤ n && n ≤ 13) || (0x1c ≤ n && n ≤ 0x1e) || n == 0x85 || n == 0x2028 || n == 0x2029

/-- The lines of `ps` after the code points `line` (in reverse) of the first one. -/
private def linesFrom (line : List CodePoint) : List CodePoint → List Text
  | [] => if line.isEmpty then [] else [⟨line.reverse⟩]
  | .char '\r' :: .char '\n' :: ps => ⟨line.reverse⟩ :: linesFrom [] ps
  | p :: ps => if isLineEnd p then ⟨line.reverse⟩ :: linesFrom [] ps else linesFrom (p :: line) ps

/-- The lines of a text without their ends. A text that ends in a line end has no empty last
line. -/
def splitLines (t : Text) : List Text := linesFrom [] t.points

/-- Code points in which every carriage return, alone or before a line feed, is one line feed. -/
def unifiedPoints : List CodePoint → List CodePoint
  | [] => []
  | .char '\r' :: .char '\n' :: ps => .char '\n' :: unifiedPoints ps
  | .char '\r' :: ps => .char '\n' :: unifiedPoints ps
  | p :: ps => p :: unifiedPoints ps

/-- A text in which every carriage return, alone or before a line feed, is one line feed. -/
def unifyLineEnds (t : Text) : Text := ⟨unifiedPoints t.points⟩

end RoutePlugins.Text
