import RoutePlugins.Store.Arena

/-!
# Stores

A store belongs to one run of one plugin. It is started under a name, and ended once; only between
the two can it be used. A path has to be registered before it is used, and no registered path
overlaps another. Values are written only at registered paths, and only values that can be kept.

Every operation that changes a store gives the changed store or a fault, so a failure changes
nothing, apart from starting it with parsed files that cannot be made into a map: then the store is
empty already. Ending a store leaves a snapshot of it.
-/

namespace RoutePlugins

/-- A store. -/
inductive Store where
  | fresh
  | active (name : Text) (arena : Arena)
  | ended (name : Text)

/-- What a store held when it was ended. -/
structure Snapshot where
  name : Text
  arena : Arena

namespace Snapshot

/-- Read a path of a snapshot. -/
def get (s : Snapshot) (path : Value) : Except Fault Value := do
  s.arena.read (← AccessPath.ofValue path)

/-- The registered paths of a snapshot in ascending order. -/
def paths (s : Snapshot) : List AccessPath := AccessPath.sort s.arena.paths

end Snapshot

namespace Store

/-- The word for where a store is in its life. -/
def state : Store → Text
  | .fresh => "uninitialized"
  | .active .. => "open"
  | .ended _ => "ended"

/-- The name under which a store was last started. -/
def name? : Store → Option Text
  | .fresh => none
  | .active name _ | .ended name => some name

/-- The name and the arena of an open store. -/
def require : Store → Except Fault (Text × Arena)
  | .fresh => .error (.store .notStarted)
  | .active name arena => .ok (name, arena)
  | .ended name => .error (.store (.ended name))

/-- Clear a store and open it under a name, with parsed files or without. -/
def clear (name : Value) (cache : Option ParseCache) : Except Fault Store :=
  match AccessPath.segment? name with
  | some s => .ok (.active s ⟨cache, []⟩)
  | none => .error (.store .nameless)

/-- Start a store afresh under a name, with parsed files from elsewhere. -/
def start (name : Value) (cache : ParseCache) : Except Fault Store := clear name cache

/-- End an open store. -/
def finish (s : Store) : Except Fault (Snapshot × Store) := do
  let (name, arena) ← s.require
  return (⟨name, arena⟩, .ended name)

/-- The registered paths in ascending order. -/
def registrations (s : Store) : Except Fault (List AccessPath) := do
  return AccessPath.sort (← s.require).2.paths

/-- Whether a path is registered. -/
def isRegistered (s : Store) (path : Value) : Except Fault Bool := do
  let key ← AccessPath.ofValue path
  return (← s.require).2.paths.contains key

/-- Why a value is not written to a path: one that lies too deep is a fault of its own. -/
def refusal (path : AccessPath) : NotJson → Fault
  | .depth => .notJson .depth
  | cause => .unkept path cause

/-- The kept form of a value written to a path. -/
def checked (path : AccessPath) (v : Value) : Except Fault Json := v.keep.mapError (refusal path)

/-- Register a path with a first value. -/
def register (s : Store) (path initial : Value) : Except Fault (AccessPath × Store) := do
  let (name, arena) ← s.require
  let key ← AccessPath.ofValue path
  if let some existing := arena.paths.find? fun p => p.overlaps key then
    throw (.store (.overlap key existing))
  let v ← checked key initial
  return (key, .active name { arena with slots := arena.slots ++ [(key, v)] })

/-- Read a path. -/
def get (s : Store) (path : Value) : Except Fault Value := do
  let (_, arena) ← s.require
  arena.read (← AccessPath.ofValue path)

/-- A registered path that may be written, with its value. -/
structure Slot where
  name : Text
  arena : Arena
  key : AccessPath
  value : Json

/-- The slot of a path. -/
def slot (s : Store) (path : Value) : Except Fault Slot := do
  let (name, arena) ← s.require
  let key ← AccessPath.ofValue path
  match Assoc.get? key arena.slots with
  | some v => if key == parsedPath then throw (.store .parseCache) else return ⟨name, arena, key, v⟩
  | none => throw (.store (if arena.paths.contains key then .parseCache else .notExact key))

/-- The store with a new value in a slot. -/
def Slot.write (s : Slot) (v : Json) : Store :=
  .active s.name { s.arena with slots := Assoc.insert s.key v s.arena.slots }

/-- Replace the value of a path. -/
def set (s : Store) (path v : Value) : Except Fault Store := do
  let slot ← s.slot path
  return slot.write (← checked slot.key v)

/-- The items of a slot that holds a list. -/
def Slot.items (s : Slot) (verb : Text) : Except Fault (List Json) :=
  match s.value with
  | .arr items => .ok items
  | _ => .error (.store (.notArray verb s.key))

/-- Add an item at the end of a list. -/
def push (s : Store) (path v : Value) : Except Fault Store := do
  let slot ← s.slot path
  let items ← slot.items "push"
  return slot.write (.arr (items ++ [← checked slot.key v]))

/-- Add an item at the front of a list. -/
def unshift (s : Store) (path v : Value) : Except Fault Store := do
  let slot ← s.slot path
  let items ← slot.items "unshift"
  return slot.write (.arr ((← checked slot.key v) :: items))

/-- Set the fields of an object. -/
def merge (s : Store) (path v : Value) : Except Fault Store := do
  let slot ← s.slot path
  match slot.value, v with
  | .obj fields, .map entries =>
    match ← checked slot.key (.map entries) with
    | .obj new => return slot.write (.obj (Assoc.update fields new))
    | _ => return s
  | .obj _, v => throw (.store (.notMergeable v.kindName slot.key))
  | _, _ => throw (.store (.notMap slot.key))

/-- The fault of parsed files that a store of some name does not have. -/
def uncached (name : Text) : Fault :=
  .missingKey (.tuple [.str name, .tuple (parsedPath.map .str)])

/-- The parsed files. -/
def parseCache (s : Store) : Except Fault ParseCache := do
  let (name, arena) ← s.require
  match arena.cache with
  | some cache => return cache
  | none => throw (uncached name)

end Store

end RoutePlugins
