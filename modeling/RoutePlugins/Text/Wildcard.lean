import RoutePlugins.Text.Basic

/-!
# Wildcard patterns

A star stands for any run of code points, slashes included; a question mark for one code point; a
bracketed class for one code point of the class, or of its complement after an exclamation mark. A
bracket that is never closed stands for itself. A range whose ends are in the wrong order is empty.
-/

namespace RoutePlugins.Wildcard

/-- The code points from `low` to `high`. -/
structure Span where
  low : CodePoint
  high : CodePoint

/-- One place of a pattern. -/
inductive Token where
  /-- Any run of code points. -/
  | star
  /-- Any one code point. -/
  | any
  /-- This code point. -/
  | literal (p : CodePoint)
  /-- A code point in one of the spans, or in none of them when `negated`. -/
  | oneOf (negated : Bool) (spans : List Span)
  /-- No code point at all. -/
  | never

/-- Split a class at the dashes that make ranges. The next `skip` code points make none, and `piece`
holds the code points since the last one, in reverse. -/
def rangePieces : Nat → List CodePoint → List CodePoint → List (List CodePoint)
  | _, piece, [] => [piece.reverse]
  | 0, piece, .char '-' :: ps => piece.reverse :: rangePieces 2 [] ps
  | skip, piece, p :: ps => rangePieces (skip - 1) (p :: piece) ps

/-- A dash at the very end of a class stands for itself. -/
def closePieces : List (List CodePoint) → List (List CodePoint)
  | [] => []
  | [piece, []] => [piece ++ [.char '-']]
  | piece :: pieces => piece :: closePieces pieces

/-- Remove the ranges whose ends are in the wrong order, from the last one to the first. -/
def dropEmptyRanges : List (List CodePoint) → List (List CodePoint)
  | [] => []
  | piece :: pieces =>
    match dropEmptyRanges pieces with
    | [] => [piece]
    | next :: others =>
      match piece.getLast?, next.head? with
      | some low, some high =>
        if high.code < low.code then (piece.dropLast ++ next.tail) :: others
        else piece :: next :: others
      | _, _ => piece :: next :: others

/-- The members of a class: its code points, and `none` for each dash that makes a range. -/
def classMembers (body : List CodePoint) : List (Option CodePoint) :=
  if body.contains '-' then
    let pieces := rangePieces (if body.head? == some (.char '!') then 2 else 1) [] body
    (((dropEmptyRanges (closePieces pieces)).map (·.map some)).intersperse [none]).flatten
  else body.map some

/-- Read single code points and ranges. A dash with nothing in front of it stands for itself. -/
def spansOf : List (Option CodePoint) → List Span
  | some low :: none :: some high :: rest => ⟨low, high⟩ :: spansOf rest
  | some p :: rest => ⟨p, p⟩ :: spansOf rest
  | none :: rest => ⟨'-', '-'⟩ :: spansOf rest
  | [] => []

/-- The token of a bracketed class. -/
def classToken (body : List CodePoint) : Token :=
  match classMembers body with
  | [] => .never
  | [some (.char '!')] => .any
  | some (.char '!') :: members => .oneOf true (spansOf members)
  | members => .oneOf false (spansOf members)

/-- The text of a class up to its closing bracket, and what follows. A bracket in front, after an
exclamation mark too, belongs to the class. -/
def classBody? (ps : List CodePoint) : Option (List CodePoint × List CodePoint) :=
  let (mark, ps) := if ps.head? == some (.char '!') then ([.char '!'], ps.tail) else ([], ps)
  let (bracket, ps) := if ps.head? == some (.char ']') then ([.char ']'], ps.tail) else ([], ps)
  match ps.dropWhile (· != .char ']') with
  | _ :: rest => some (mark ++ bracket ++ ps.takeWhile (· != .char ']'), rest)
  | [] => none

/-- Read a pattern, skipping the `skip` code points that belong to a class already read. -/
def tokensFrom : Nat → List CodePoint → List Token
  | _, [] => []
  | skip + 1, _ :: ps => tokensFrom skip ps
  | 0, .char '*' :: ps => .star :: tokensFrom 0 ps
  | 0, .char '?' :: ps => .any :: tokensFrom 0 ps
  | 0, .char '[' :: ps =>
    match classBody? ps with
    | some (body, _) => classToken body :: tokensFrom (body.length + 1) ps
    | none => .literal '[' :: tokensFrom 0 ps
  | 0, p :: ps => .literal p :: tokensFrom 0 ps

/-- The tokens of a pattern. -/
def tokens (pattern : Text) : List Token := tokensFrom 0 pattern.points

/-- Whether a token that stands for one code point stands for `p`. -/
def Token.accepts (p : CodePoint) : Token → Bool
  | .star => false
  | .any => true
  | .literal d => p == d
  | .oneOf negated spans =>
    negated != spans.any fun s => s.low.code ≤ p.code && p.code ≤ s.high.code
  | .never => false

/-- Whether some suffix of a list satisfies `f`. -/
def someSuffix (f : List CodePoint → Bool) : List CodePoint → Bool
  | [] => f []
  | p :: ps => f (p :: ps) || someSuffix f ps

/-- Whether tokens stand for exactly these code points. -/
def matchTokens : List Token → List CodePoint → Bool
  | [], ps => ps.isEmpty
  | .star :: ts, ps => someSuffix (matchTokens ts) ps
  | t :: ts, p :: ps => t.accepts p && matchTokens ts ps
  | _ :: _, [] => false

/-- A list and what is left of it after each of its items. -/
def suffixes : List CodePoint → List (List CodePoint)
  | [] => [[]]
  | p :: ps => (p :: ps) :: suffixes ps

/-- For every suffix of a text, whether no tokens stand for it. -/
def emptyRow : List CodePoint → List Bool
  | [] => [true]
  | _ :: ps => false :: emptyRow ps

/-- For every place in a row, whether it is true there or further on. -/
def starRow : List Bool → List Bool
  | [] => []
  | b :: row =>
    let after := starRow row
    (b || after.headD false) :: after

/-- For every suffix of a text, whether a token stands for its first code point and the row is true
after it. -/
def tokenRow (t : Token) : List CodePoint → List Bool → List Bool
  | p :: ps, _ :: row => (t.accepts p && row.headD false) :: tokenRow t ps row
  | _, _ => [false]

/-- For every suffix of a text, whether the tokens stand for it. Each token takes one pass over the
text, so a match takes time proportional to the product of the two lengths. -/
def matchRow (ps : List CodePoint) : List Token → List Bool
  | [] => emptyRow ps
  | .star :: ts => starRow (matchRow ps ts)
  | t :: ts => tokenRow t ps (matchRow ps ts)

/-- Whether a pattern stands for the whole of a text. -/
def fullMatch (pattern text : Text) : Bool :=
  (matchRow text.points (tokens pattern)).headD false

private theorem emptyRow_eq (ps : List CodePoint) :
    emptyRow ps = (suffixes ps).map (matchTokens []) := by
  induction ps with
  | nil => rfl
  | cons p ps ih => simp [emptyRow, suffixes, matchTokens, ih]

private theorem headD_suffixes (f : List CodePoint → Bool) (ps : List CodePoint) :
    ((suffixes ps).map f).headD false = f ps := by
  cases ps <;> rfl

private theorem starRow_eq (ts : List Token) (ps : List CodePoint) :
    starRow ((suffixes ps).map (matchTokens ts)) =
      (suffixes ps).map (matchTokens (.star :: ts)) := by
  induction ps with
  | nil => simp [suffixes, starRow, matchTokens, someSuffix]
  | cons p ps ih =>
    simp only [suffixes, List.map_cons, starRow, ih, headD_suffixes]
    simp [matchTokens, someSuffix]

private theorem tokenRow_eq {t : Token} (h : t ≠ .star) (ts : List Token) (ps : List CodePoint) :
    tokenRow t ps ((suffixes ps).map (matchTokens ts)) =
      (suffixes ps).map (matchTokens (t :: ts)) := by
  induction ps with
  | nil => cases t <;> simp_all [suffixes, tokenRow, matchTokens]
  | cons p ps ih =>
    simp only [suffixes, List.map_cons, tokenRow, ih, headD_suffixes]
    cases t <;> simp_all [matchTokens]

/-- The row of a pattern holds the answer for every suffix of the text. -/
theorem matchRow_eq (ts : List Token) (ps : List CodePoint) :
    matchRow ps ts = (suffixes ps).map (matchTokens ts) := by
  induction ts with
  | nil => exact emptyRow_eq ps
  | cons t ts ih =>
    cases t with
    | star => simpa [matchRow, ih] using starRow_eq ts ps
    | _ => simpa [matchRow, ih] using tokenRow_eq (by simp) ts ps

/-- A full match is a match of the tokens. -/
theorem fullMatch_eq (pattern text : Text) :
    fullMatch pattern text = matchTokens (tokens pattern) text.points := by
  rw [fullMatch, matchRow_eq, headD_suffixes]

end RoutePlugins.Wildcard
