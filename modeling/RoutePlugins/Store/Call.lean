import RoutePlugins.Store.Parse

/-!
# Store calls

The operations of a store as data, and what each of them answers. Stores that are ended leave their
snapshots in a shared history, newest first.
-/

namespace RoutePlugins

/-- An operation of a store. -/
inductive StoreCall where
  | state
  | name
  | start (title preparsed : Value)
  | finish
  | registrations
  | isRegistered (path : Value)
  | register (path initial : Value)
  | get (path : Value)
  | set (path value : Value)
  | push (path value : Value)
  | unshift (path value : Value)
  | merge (path value : Value)
  | parse (file : Text)
  | parseCache
  | history
  | snapshot (index : Int) (path : Value)

/-- A store with the history that it shares. -/
structure StoreState where
  store : Store
  history : List Snapshot

/-- A snapshot as a record of its name and its paths. -/
def Snapshot.toValue (s : Snapshot) : Value :=
  .map [(.str "namespace", .str s.name), (.str "paths", .list (s.paths.map AccessPath.toValue))]

/-- The item at a place; a negative place counts from the end. -/
def itemAt? {α : Type} (items : List α) (index : Int) : Option α :=
  if 0 ≤ index then items[index.toNat]?
  else if index.natAbs ≤ items.length then items[items.length - index.natAbs]? else none

/-- The fault of a place that a list does not have. -/
def Fault.noSuchItem : Fault := .raised "IndexError" "list index out of range"

namespace StoreCall

/-- Work that may fail on a store with its history. -/
abbrev CallM := EStateM Fault StoreState

/-- Work on the store alone. -/
def onStore {α : Type} (m : StoreM α) : CallM α := fun s =>
  match m s.store with
  | .ok a store => .ok a { s with store }
  | .error e store => .error e { s with store }

/-- Change the store, with nothing to answer. -/
def change (f : Store → Except Fault Store) : CallM Value := do
  onStore (StoreM.change f)
  return .null

/-- Read from the store. -/
def read {α : Type} (f : Store → Except Fault α) : CallM α := onStore (StoreM.read f)

/-- End the store and put its snapshot in front of the history. -/
def endStore : CallM Snapshot := do
  let (taken, store) ← Files.lift ((← MonadState.get).store.finish)
  modify fun s => ⟨store, taken :: s.history⟩
  return taken

/-- Perform a call. -/
def run (src : Sources) : StoreCall → CallM Value
  | .state => do return .str (← MonadState.get).store.state
  | .name => do return (((← MonadState.get).store.name?).map Value.str).getD .null
  | .start title preparsed => do
    onStore (Store.startWith title preparsed)
    return .null
  | .finish => do return (← endStore).toValue
  | .registrations => do return .list ((← read Store.registrations).map AccessPath.toValue)
  | .isRegistered path => do return .bool (← read (·.isRegistered path))
  | .register path initial => do
    let (key, store) ← read (·.register path initial)
    onStore (StoreM.put store)
    return AccessPath.toValue key
  | .get path => read (·.get path)
  | .set path v => change (·.set path v)
  | .push path v => change (·.push path v)
  | .unshift path v => change (·.unshift path v)
  | .merge path v => change (·.merge path v)
  | .parse file => do return .parsed (← onStore (Store.parse src file))
  | .parseCache => do return ParseCache.toValue (← read Store.parseCache)
  | .history => do return .list ((← MonadState.get).history.map Snapshot.toValue)
  | .snapshot index path => do
    match itemAt? (← MonadState.get).history index with
    | some s => Files.lift (s.get path)
    | none => throw .noSuchItem

end StoreCall

end RoutePlugins
