import RoutePlugins.Text.Basic

/-!
# Searching texts

Splitting at a code point, finding a word, and replacing every occurrence of one, from left to
right.
-/

namespace RoutePlugins.Text

/-- The pieces of `ps` between the occurrences of `sep`; one more than there are occurrences. -/
def piecesBetween (sep : CodePoint) : List CodePoint → List (List CodePoint)
  | [] => [[]]
  | p :: ps =>
    if p == sep then [] :: piecesBetween sep ps
    else match piecesBetween sep ps with
      | [] => [[p]]
      | piece :: pieces => (p :: piece) :: pieces

/-- The pieces of a text between the occurrences of `sep`. -/
def split (t : Text) (sep : CodePoint) : List Text := (piecesBetween sep t.points).map .mk

/-- Split at the first `sep`: what is before it and what is after it. -/
def cutPoints? (sep : CodePoint) : List CodePoint → Option (List CodePoint × List CodePoint)
  | [] => none
  | p :: ps =>
    if p == sep then some ([], ps) else (cutPoints? sep ps).map fun (a, b) => (p :: a, b)

/-- What is before and after the first `sep` of a text. -/
def cut? (t : Text) (sep : CodePoint) : Option (Text × Text) :=
  (cutPoints? sep t.points).map fun (a, b) => (⟨a⟩, ⟨b⟩)

/-- Replace the occurrences of `word` found after skipping `skip` code points. -/
def replaceFrom (word new : List CodePoint) : Nat → List CodePoint → List CodePoint
  | _, [] => []
  | skip + 1, _ :: ps => replaceFrom word new skip ps
  | 0, p :: ps =>
    if word.isPrefixOf (p :: ps) then new ++ replaceFrom word new (word.length - 1) ps
    else p :: replaceFrom word new 0 ps

/-- Replace every occurrence of the non-empty word `word`, from left to right, by `new`. -/
def replace (t word new : Text) : Text := ⟨replaceFrom word.points new.points 0 t.points⟩

/-- Whether `word` stands somewhere in `ps`. -/
def holdsPoints (word : List CodePoint) : List CodePoint → Bool
  | [] => word.isEmpty
  | p :: ps => word.isPrefixOf (p :: ps) || holdsPoints word ps

/-- Whether a word stands somewhere in a text. -/
def holds (t word : Text) : Bool := holdsPoints word.points t.points

/-- The texts with `sep` between them. -/
def joinWith (sep : Text) : List Text → Text
  | [] => ""
  | [t] => t
  | t :: rest => t ++ sep ++ joinWith sep rest

end RoutePlugins.Text
