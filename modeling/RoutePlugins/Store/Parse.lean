import RoutePlugins.Files.Contained
import RoutePlugins.Store.Basic
import RoutePlugins.Tree.Walk

/-!
# Parsing through a store

A store parses each file once. Files are known by their resolved paths.
-/

namespace RoutePlugins

/-- Files together with a parser for them. -/
structure Sources where
  files : Files
  parser : Parser

/-- Work on a store that may fail. What was done before a failure stays done. -/
abbrev StoreM := EStateM Fault Store

namespace StoreM

/-- Raise the fault of a result. -/
def lift {α : Type} : Except Fault α → StoreM α := Files.lift

/-- Replace the store. -/
def put (s : Store) : StoreM Unit := fun _ => .ok () s

/-- Change the store by an operation that may fail. -/
def change (f : Store → Except Fault Store) : StoreM Unit := do put (← lift (f (← get)))

/-- Read from the store. -/
def read {α : Type} (f : Store → Except Fault α) : StoreM α := do lift (f (← get))

end StoreM

/-- Parse the file at a resolved path. -/
def Sources.parseFile (src : Sources) (p : Path) : Except Fault ParsedFile := do
  if !(← src.files.isFile p) then throw (.notParsable p.text)
  return Parser.parse src.parser p.text (← src.files.readBytes p)

/-- Parse a file, or take it from the parsed files of the store. -/
def Store.parse (src : Sources) (file : Text) : StoreM ParsedFile := do
  let (name, arena) ← StoreM.read Store.require
  let p ← StoreM.lift (src.files.resolve (Path.parse file))
  let cache ← StoreM.read Store.parseCache
  match Assoc.get? p.text cache with
  | some parsed => return parsed
  | none =>
    let parsed ← StoreM.lift (src.parseFile p)
    StoreM.put (.active name { arena with cache := Assoc.insert p.text parsed cache })
    return parsed

/-- Start a store with any value for the parsed files. The store is cleared before the value is
looked at. -/
def Store.startWith (name preparsed : Value) : StoreM Unit := do
  StoreM.change fun _ => Store.clear name none
  let cache ← StoreM.lift (ParseCache.ofValue preparsed)
  StoreM.change fun _ => Store.start name cache

end RoutePlugins
