import RoutePlugins.Text.Basic

/-!
# JSON with comments

Removing line comments and block comments from text that is JSON apart from them. Nothing inside a
string is a comment. A line comment leaves its line end, a block comment leaves nothing, and a
comment that is never closed takes the rest of the text.
-/

namespace RoutePlugins.Json

/-- Where a reader of commented text stands. -/
inductive Zone where
  | code
  | string
  /-- In a string, after a backslash. -/
  | escaped
  | lineComment
  | blockComment
  deriving DecidableEq, Repr

/-- The text without its comments, read from a zone on. -/
def stripFrom : Zone → List CodePoint → List CodePoint
  | _, [] => []
  | .escaped, p :: ps => p :: stripFrom .string ps
  | .string, p :: ps =>
    p :: stripFrom (if p == '\\' then .escaped else if p == '"' then .code else .string) ps
  | .lineComment, p :: ps =>
    if p == '\n' then p :: stripFrom .code ps else stripFrom .lineComment ps
  | .blockComment, .char '*' :: .char '/' :: ps => stripFrom .code ps
  | .blockComment, _ :: ps => stripFrom .blockComment ps
  | .code, .char '/' :: .char '/' :: ps => stripFrom .lineComment ps
  | .code, .char '/' :: .char '*' :: ps => stripFrom .blockComment ps
  | .code, p :: ps => p :: stripFrom (if p == '"' then .string else .code) ps

/-- Commented text without its comments. -/
def stripComments (text : Text) : Text := ⟨stripFrom .code text.points⟩

end RoutePlugins.Json
