import RoutePlugins.Text.Blank
import RoutePlugins.Text.Lines
import RoutePlugins.Text.Search
import RoutePlugins.Text.Wildcard

/-!
# Ignore patterns

The patterns of an ignore file, the form in which they are matched, and matching. A pattern without
a star in its last two names stands for a directory and all that is in it.
-/

namespace RoutePlugins.Ignore

/-- The patterns of an ignore file: its lines without blank ones, remarks and exceptions. -/
def patternsOf (text : Text) : List Text :=
  ((Text.splitLines text).map Text.trim).filter fun line =>
    match line.points with
    | [] => false
    | p :: _ => p != '#' && p != '!'

/-- Whether a star is in one of the last two names of a pattern. -/
def hasFinalStar (pattern : Text) : Bool :=
  ((pattern.split '/').reverse.take 2).any (·.contains '*')

/-- The matched form of a pattern: without slashes at its ends, and recursive if it has no star in
its last two names. Nothing is left of a pattern of slashes. -/
def fixPattern? (pattern : Text) : Option Text :=
  let p := Text.trimSlashes pattern
  if p.isEmpty then none else if hasFinalStar p then some p else some (p ++ "/**")

/-- The matched forms of some patterns. -/
def fixPatterns (patterns : List Text) : List Text := patterns.filterMap fixPattern?

/-- The directory that a recursive pattern is about. -/
def directoryOf? (pattern : Text) : Option Text :=
  if pattern.endsWith "/**" then some (pattern.take (pattern.length - 3)) else none

/-- Whether a pattern matches a path, from its beginning or from any slash in it on. A recursive
pattern matches its directory too. -/
def matchesPattern (path pattern : Text) : Bool :=
  Wildcard.fullMatch pattern path || Wildcard.fullMatch ("*/" ++ pattern) path ||
    directoryOf? pattern == some path

/-- Whether one of the patterns matches a path. -/
def matchesAny (path : Text) (patterns : List Text) : Bool := patterns.any (matchesPattern path)

end RoutePlugins.Ignore
