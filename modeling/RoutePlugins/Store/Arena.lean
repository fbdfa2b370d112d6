import RoutePlugins.Store.AccessPath
import RoutePlugins.Text.Digit

/-!
# Arenas

What an open store holds: the parsed files, under a path of their own, and a JSON value at every
other registered path. A read may be at a registered path, inside the value of one, or above some of
them; above, it gathers what is below into an object.
-/

namespace RoutePlugins

/-- The parsed files of a store, by path. -/
abbrev ParseCache := List (Text × ParsedFile)

/-- The registered paths of a store with their values. -/
structure Arena where
  /-- The parsed files; there are none to read if a start failed over them. -/
  cache : Option ParseCache
  slots : List (AccessPath × Json)

/-- The path under which the parsed files are read. -/
def parsedPath : AccessPath := ["parsed"]

/-- The parsed files as a value. -/
def ParseCache.toValue (cache : ParseCache) : Value :=
  .map (cache.map fun (path, file) => (.str path, .parsed file))

/-- The parsed file of an entry, by its path. -/
def ParseCache.entryOf? : Value × Value → Option (Text × ParsedFile)
  | (.str path, .parsed file) => some (path, file)
  | _ => none

/-- The parsed files in a value that can be made into a map; a value that counts as false has none.
Entries of other kinds, which nothing looks for, are left out. -/
def ParseCache.ofValue (v : Value) : Except Fault ParseCache :=
  if v.truthy then do return (← v.toEntries).filterMap entryOf? else .ok []

/-- The number that a segment made of digits writes. There is none if it begins with too many
decimal digits, or if one of its digits has no value. -/
def segmentNumber (segment : Text) : Except Fault Nat :=
  let decimals := (segment.points.takeWhile fun p => (Text.decimalValue? p).isSome).length
  if Json.maxDigits < decimals then .error (.range (.digits decimals))
  else
    match Text.decimalNumber? segment.points with
    | none => .error (.range (.notNumber segment))
    | some n => .ok n

/-- Follow segments into a value: by the keys of an object and by the places of a list. There is
nothing where a step leads nowhere. A segment made of digits counts as a place only if those digits
write a number; otherwise following it is an error. -/
def Json.descend : Json → List Text → Except Fault Json
  | v, [] => .ok v
  | .obj fields, s :: rest => ((Assoc.get? s fields).getD .null).descend rest
  | .arr items, s :: rest =>
    if !s.isEmpty && s.points.all Text.isDigit then
      match segmentNumber s with
      | .error e => .error e
      | .ok n =>
        match items[n]? with
        | some v => v.descend rest
        | none => .ok .null
    else .ok .null
  | _, _ :: _ => .ok .null

namespace Arena

/-- The registered paths in the order of their registration. -/
def paths (a : Arena) : List AccessPath :=
  (a.cache.map fun _ => parsedPath).toList ++ a.slots.map Prod.fst

/-- Set a value at the end of a chain of nested objects. -/
def graft : List Text → Json → List (Text × Json) → List (Text × Json)
  | [], _, fields => fields
  | [key], v, fields => Assoc.insert key v fields
  | key :: rest, v, fields =>
    let inner := match Assoc.get? key fields with
      | some (.obj inner) => inner
      | _ => []
    Assoc.insert key (.obj (graft rest v inner)) fields

/-- The registered values below a path, gathered into an object in the order of their paths. -/
def gather (a : Arena) (path : AccessPath) : List (Text × Json) :=
  let nested := (a.slots.filter fun e => path.isFront e.1).mergeSort fun e f => textsLe e.1 f.1
  nested.foldl (fun fields e => graft (e.1.drop path.length) e.2 fields) []

/-- Read inside the parsed files: a file by its path, and nothing inside a file. -/
def readParsed (cache : ParseCache) : List Text → Value
  | [] => cache.toValue
  | [key] =>
    match Assoc.get? key cache with
    | some file => .parsed file
    | none => .null
  | _ => .null

/-- Read a path among the slots. -/
def readSlots (a : Arena) (path : AccessPath) : Except Fault Value :=
  match Assoc.get? path a.slots with
  | some v => .ok (.ofJson v)
  | none =>
    match a.slots.find? fun e => e.1.isFront path with
    | some (registered, v) => (v.descend (path.drop registered.length)).map .ofJson
    | none =>
      if a.slots.any fun e => path.isFront e.1 then .ok (.ofJson (.obj (a.gather path)))
      else .error (.store (.unregistered path))

/-- Read a path. -/
def read (a : Arena) (path : AccessPath) : Except Fault Value :=
  match a.cache, parsedPath.isFront path with
  | some cache, true => .ok (readParsed cache (path.drop parsedPath.length))
  | _, _ => a.readSlots path

end Arena

end RoutePlugins
