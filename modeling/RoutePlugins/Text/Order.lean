import RoutePlugins.Text.Basic

/-!
# Order of texts

Texts are ordered by their code points, and lists of texts by their first difference.
-/

namespace RoutePlugins

/-- The order of code points: the first difference decides, and a list comes after its fronts. -/
def pointsLe : List CodePoint → List CodePoint → Bool
  | [], _ => true
  | _ :: _, [] => false
  | p :: ps, q :: qs => p.code < q.code || (p == q && pointsLe ps qs)

/-- The order of texts. -/
def Text.le (s t : Text) : Bool := pointsLe s.points t.points

/-- The order of lists of texts: the first difference decides, and a list comes after its fronts. -/
def textsLe : List Text → List Text → Bool
  | [], _ => true
  | _ :: _, [] => false
  | s :: ss, t :: ts => if s == t then textsLe ss ts else s.le t

/-- Put a text in its place among texts in ascending order. -/
def insertText (t : Text) : List Text → List Text
  | [] => [t]
  | s :: rest => if t.le s then t :: s :: rest else s :: insertText t rest

/-- Texts in ascending order. -/
def sortTexts (texts : List Text) : List Text := texts.foldr insertText []

/-- Texts in ascending order, each once. -/
def sortDistinct (texts : List Text) : List Text := sortTexts texts.eraseDups

end RoutePlugins
