import RoutePlugins.Fault
import RoutePlugins.Text.Digit

/-!
# Templates without anything to fill them

A template is a text with fields in braces, where doubled braces stand for themselves. To fill a
template with nothing works only if it has no field. Otherwise the first field that is not well
formed is at fault, or else what the first field asks for.
-/

namespace RoutePlugins.Cli.Template

/-- A template that is not well formed. -/
def malformed {α : Type} (text : Text) : Except Fault α := .error (.raised "ValueError" text)

/-- The greatest number of an item that a field can ask for. -/
def maxItem : Nat := 0x7fffffffffffffff

/-- The fault of a field that asks for something: for an item by its number, where a field without a
name asks for the first, or else for something with a name. What follows a point or an opening
bracket asks for a part of it. -/
def lookUp (field : List CodePoint) : Fault :=
  let first := field.takeWhile fun p => p != .char '.' && p != .char '['
  match Text.decimalNumber? first with
  | none => .missingKey (.str ⟨first⟩)
  | some n =>
    if maxItem < n then .raised "ValueError" "Too many decimal digits in format string"
    else .raised "IndexError" s!"Replacement index {n} out of range for positional args tuple"

/-- Look for the end of a field whose form follows, inside this many opened braces. -/
def endForm (depth : Nat) : List CodePoint → Except Fault Unit
  | [] => malformed "unmatched '\x7b' in format spec"
  | p :: rest =>
    if p == .char '\x7b' then endForm (depth + 1) rest
    else if p == .char '\x7d' then
      match depth with
      | depth + 1 => endForm depth rest
      | 0 => .ok ()
    else endForm depth rest

/-- Look for the end of a field in which a conversion follows. -/
def endConversion : List CodePoint → Except Fault Unit
  | [] => malformed "end of string while looking for conversion specifier"
  | [_] => endForm 0 []
  | _ :: p :: rest =>
    if p == .char '\x7d' then .ok ()
    else if p == .char ':' then endForm 0 rest
    else malformed "expected ':' after conversion specifier"

/-- The fault of the field that begins here; `before` is what it asks for so far, from the last to
the first, and `inBrackets` says whether brackets are open, where nothing else ends it. -/
def fieldFault (before : List CodePoint) (inBrackets : Bool) : List CodePoint → Except Fault Unit
  | [] => malformed "expected '\x7d' before end of string"
  | p :: rest =>
    if inBrackets then fieldFault (p :: before) (p != .char ']') rest
    else if p == .char '\x7b' then malformed "unexpected '\x7b' in field name"
    else if p == .char '\x7d' then .error (lookUp before.reverse)
    else if p == .char ':' then do
      endForm 0 rest
      throw (lookUp before.reverse)
    else if p == .char '!' then do
      endConversion rest
      throw (lookUp before.reverse)
    else fieldFault (p :: before) (p == .char '[') rest

/-- Fill a template with nothing. -/
def fill : List CodePoint → Except Fault Unit
  | [] => .ok ()
  | [p] =>
    if p == .char '\x7b' then malformed "Single '\x7b' encountered in format string"
    else if p == .char '\x7d' then malformed "Single '\x7d' encountered in format string"
    else .ok ()
  | p :: q :: rest =>
    if p == .char '\x7b' then if q == p then fill rest else fieldFault [] false (q :: rest)
    else if p == .char '\x7d' then
      if q == p then fill rest else malformed "Single '\x7d' encountered in format string"
    else fill (q :: rest)

end RoutePlugins.Cli.Template
