import RoutePlugins.Imports.Resolution
import RoutePlugins.Value.Forms

/-!
# Aliases as a record

Aliases can also be given as a record of any form. Of its patterns only those that fit a specifier
are looked at, so what is wrong with the others does no harm.
-/

namespace RoutePlugins.Imports

/-- Whether a pattern fits a specifier. -/
def fits (specifier pattern : Text) : Bool :=
  match pattern.cut? '*' with
  | some (front, back) => (starToken? front back specifier).isSome
  | none => specifier == pattern

/-- The text of a target. A target of a pattern with a star has to have a place for it, and any
other has to be something below a path. -/
def targetText (pattern : Text) : Value → Except Fault Text
  | .str s => .ok s
  | v =>
    if pattern.contains '*' then .error (.noMember v.kindName "replace")
    else .error (.kind (.notBelowPath v.kindName))

/-- The patterns of a record that fit a specifier, with their targets. -/
def fittingPaths (specifier : Text) : List (Text × Json) →
    Except Fault (List (Text × List Text))
  | [] => .ok []
  | (pattern, v) :: rest => do
    if fits specifier pattern then
      let targets ← (← (Value.ofJson v).elements).mapM (targetText pattern)
      return (pattern, targets) :: (← fittingPaths specifier rest)
    else fittingPaths specifier rest

/-- The candidates that a record of patterns gives for a specifier. -/
def recordCandidates (specifier : Text) (base : Path) : Json → Except Fault (List Path)
  | .obj fields => do return aliasCandidates specifier base (← fittingPaths specifier fields)
  | v => .error (.noMember (Value.ofJson v).kindName "items")

/-- The aliases that a record gives for a specifier: its base directory and its patterns, whatever
else is in it. An empty record gives none, and a specifier that begins with a dot needs none. -/
def aliasesOf (specifier : Text) (record : Json) : Except Fault (Option Aliases) :=
  if specifier.startsWith "." || !(Value.ofJson record).truthy then .ok none
  else
    match record with
    | .obj fields => do
      let base := ((Json.fieldOf? "baseUrl" fields).map fun v => (Value.ofJson v).display).getD "."
      let paths ← match Json.fieldOf? "paths" fields with
        | some (.obj patterns) => fittingPaths specifier patterns
        | _ => pure []
      return some ⟨base, paths, ""⟩
    | v => .error (.noMember (Value.ofJson v).kindName "get")

end RoutePlugins.Imports
