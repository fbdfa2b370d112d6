import RoutePlugins.Files.Contained
import RoutePlugins.Text.Preview

/-!
# Showing records

A record of the ledger as a box of text, with its message, its place and its source, and as one
line. Records are read leniently: a missing field has a stand-in, and any value is shown.
-/

namespace RoutePlugins.Ledger

/-- The stand-in for what is not known. -/
def unknown : Text := "unknown"

/-- The width of a box. -/
def boxWidth : Nat := 78

/-- A field of a record as it is shown, or a stand-in. -/
def shown (fields : List (Value × Value)) (key standIn : Text) : Text :=
  ((Value.entry? key fields).map Value.display).getD standIn

/-- A file as it is shown from a root: the rest of its path, if it is below the root. -/
def shownFile (file : Text) (root : Path) : Text :=
  match (Path.parse file).relativeTo? root with
  | some rest => rest.text
  | none => file

/-- A line of dashes. -/
def dashes (n : Nat) : Text := Text.ofChars (List.replicate n '-')

/-- A record as a box. -/
def box (fields : List (Value × Value)) (kind : Text) (root : Option Path) : Text :=
  let file := shown fields "file" unknown
  let file := (root.map (shownFile file)).getD file
  let header := "+-- " ++ kind ++ " [" ++ shown fields "plugin" unknown ++ "] "
  let top := header ++ dashes (max (boxWidth - header.length) 4)
  let message : List Text := match Text.splitLines (shown fields "message" "") with
    | [] => [""]
    | lines => lines
  let place := file ++ ":" ++ shown fields "line" unknown ++ ":" ++ shown fields "column" unknown
  let source := shown fields "source" unknown
  let sourceLines : List Text :=
    if source == unknown then []
    else "|" :: (Text.splitLines (Text.preview 400 source)).map ("|   " ++ ·)
  let placeLines : List Text := ["|", "| at " ++ place]
  let bottom := "+" ++ dashes (boxWidth - 1)
  Text.joinWith "\n" (top :: message.map ("| " ++ ·) ++ placeLines ++ sourceLines ++ [bottom])

/-- A file as it is shown from the resolved form of a root. -/
def shownFrom (fs : Files) (file : Text) (root : Path) : Except Fault Text :=
  match fs.resolve root with
  | .ok root => .ok (shownFile file root)
  | .error e => if e.isValueFault then .ok file else .error e

/-- A record as one line. -/
def reportLine (fs : Files) (fields : List (Value × Value)) (root : Path) :
    Except Fault Text := do
  let file ← shownFrom fs (shown fields "file" "") root
  let part (key : Text) := shown fields key "None"
  return file ++ ":" ++ part "line" ++ ":" ++ part "column" ++ ": [" ++ part "plugin" ++ "] " ++
    part "message"

end RoutePlugins.Ledger
