import RoutePlugins.Imports.Graph
import RoutePlugins.Ledger.Box

/-!
# Ledgers

A ledger keeps the errors and the warnings of one plugin in its store, newest first. A report that
differs from a kept record in nothing but its time is not kept again.
-/

namespace RoutePlugins

/-- Gives the times of records, in milliseconds, in the order in which they are asked for. -/
structure Clock where
  times : Nat → UInt64
  /-- How many were asked for. -/
  asked : Nat

/-- A clock that shows one time. -/
def Clock.still (time : UInt64) : Clock := ⟨fun _ => time, 0⟩

/-- The next time, and the clock after giving it. -/
def Clock.tick (c : Clock) : Nat × Clock :=
  ((c.times c.asked).toNat, { c with asked := c.asked + 1 })

/-- The two kinds of record. -/
inductive ReportKind where
  | error
  | warning
  deriving DecidableEq, Repr

/-- The kind with a name. -/
def ReportKind.ofName? (name : Text) : Option ReportKind :=
  if name == "error" then some .error
  else if name == "warning" then some .warning
  else none

/-- The kind that a value names. A value that cannot be looked up is a fault of its own, and one
that names no kind is the fault `unknown`. -/
def ReportKind.ofValue (unknown : Fault) (v : Value) : Except Fault ReportKind :=
  match v with
  | .str name =>
    match ReportKind.ofName? name with
    | some kind => .ok kind
    | none => .error unknown
  | v => do
    v.checkKey
    throw unknown

/-- The name of a kind. -/
def ReportKind.name : ReportKind → Text
  | .error => "error"
  | .warning => "warning"

/-- Where records of a kind are kept. -/
def ReportKind.path : ReportKind → AccessPath
  | .error => ["errors"]
  | .warning => ["warnings"]

/-- Whose records a ledger keeps, and the root that messages leave out. -/
structure Ledger where
  plugin : Value
  root : Path

/-- What a ledger works on. -/
structure LedgerState where
  store : Store
  clock : Clock

/-- Work on a ledger that may fail. What was done before a failure stays done. -/
abbrev LedgerM := EStateM Fault LedgerState

namespace LedgerM

/-- Work on the store of a ledger. -/
def onStore {α : Type} (m : StoreM α) : LedgerM α := fun s =>
  match m s.store with
  | .ok a store => .ok a { s with store }
  | .error e store => .error e { s with store }

/-- The next time. -/
def tick : LedgerM Nat := fun s =>
  let (now, clock) := s.clock.tick
  .ok now { s with clock }

end LedgerM

namespace Ledger

/-- A ledger over a store. -/
def attach (fs : Files) (plugin : Value) (root : Path) : StoreM Ledger := do
  let root ← StoreM.lift (fs.resolve root)
  ImportGraph.ensureRegistered ReportKind.error.path (.list [])
  ImportGraph.ensureRegistered ReportKind.warning.path (.list [])
  return ⟨plugin, root⟩

/-- A message without the project root: paths below it are shown from it, and the root itself as a
dot. -/
def scrub (root message : Text) : Text :=
  (message.replace (root ++ "/") "").replace root "."

/-- A record without its time. -/
def fingerprint (fields : List (Text × Json)) : List (Text × Json) :=
  fields.filter (·.1 != "timestamp")

/-- The line, the column, the source and the place of a mark; all unknown without one. -/
def placeOf : Option Mark → Json × Json × Json × Json
  | none => (.str unknown, .str unknown, .str unknown, .str unknown)
  | some m =>
    (.int (m.start.row + 1), .int m.start.column,
      .str ((m.content.map Utf8.decodeReplacing).getD unknown), m.toJson)

/-- The fields of a record. -/
def recordFields (plugin : Json) (file : Text) (mark : Option Mark) (message : Text)
    (now : Nat) : List (Text × Json) :=
  let (line, column, source, loc) := placeOf mark
  [("plugin", plugin), ("file", .str file), ("line", line), ("column", column), ("source", source),
    ("message", .str message), ("loc", loc), ("timestamp", .int now)]

/-- The record of a report. The file has to exist, and the record has to have a JSON form. -/
def record (l : Ledger) (fs : Files) (message : Value) (file : Text) (mark : Option Mark) :
    LedgerM (List (Text × Json)) := do
  let path := Path.parse file
  if !(← Files.lift (fs.isPresent path)) then throw (.reportTarget file)
  let resolved ← Files.lift (fs.resolve path)
  let now ← LedgerM.tick
  match l.plugin.toJson? with
  | some plugin =>
    return recordFields plugin resolved.text mark (scrub l.root.text message.display) now
  | none => throw (.record file)

/-- Whether a record with this fingerprint is among some values, which have to be records as far as
they are looked at. -/
def isKnown (print : List (Text × Json)) : List Value → Except Fault Bool
  | [] => .ok false
  | v :: rest => do
    let entries ← v.asRecord "items"
    let known := match (Value.map entries).toJson? with
      | some (.obj fields) => (Json.obj (fingerprint fields)).same (.obj print)
      | _ => false
    if known then return true else isKnown print rest

/-- Keep a record of a kind, and say whether it is new. -/
def report (l : Ledger) (fs : Files) (kind : ReportKind) (message : Value) (file : Text)
    (mark : Option Mark) : LedgerM Bool := do
  let fields ← l.record fs message file mark
  LedgerM.onStore do
    let kept ← StoreM.read (·.get kind.path.toValue)
    let known ← StoreM.lift do isKnown (fingerprint fields) (← kept.elements)
    if known then return false
    StoreM.change (·.unshift kind.path.toValue (.ofJson (.obj fields)))
    return true

/-- `report` for a kind given by its name. -/
def reportNamed (l : Ledger) (fs : Files) (kind message : Value) (file : Text)
    (mark : Option Mark) : LedgerM Bool := do
  let kind ← Files.lift (ReportKind.ofValue (.reportKind kind) kind)
  l.report fs kind message file mark

/-- The kept records of a kind. -/
def records (kind : ReportKind) (s : Store) : Except Fault Value := s.get kind.path.toValue

/-- The boxes of some records, up to the first value that is no record, and its fault. -/
def boxes (kind : Text) (root : Option Path) : List Value → List Text × Option Fault
  | [] => ([], none)
  | v :: rest =>
    match v.asRecord "get" with
    | .ok fields =>
      let (lines, fault) := boxes kind root rest
      (box fields kind root :: lines, fault)
    | .error e => ([], some e)

/-- The boxes of the records in a value. -/
def boxesOf (kind : ReportKind) (root : Option Path) (records : Value) :
    List Text × Option Fault :=
  match records.elements with
  | .ok items => boxes kind.name root items
  | .error e => ([], some e)

end Ledger

end RoutePlugins
