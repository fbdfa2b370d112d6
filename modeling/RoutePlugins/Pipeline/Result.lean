import RoutePlugins.Plugin.Session

/-!
# Results of runs

What a run gives: whether it was committed, the texts that were staged, and for each plugin its
records, its failure and its data.
-/

namespace RoutePlugins

/-- The result of a run. -/
structure RunResult where
  committed : Bool
  /-- The new text of each file. -/
  staged : List (Text × Json)
  errors : List (Text × Value)
  warnings : List (Text × Value)
  failures : List (Text × Text)
  data : List (Text × Json)

/-- The word for how a run ended. -/
def RunResult.state (r : RunResult) : Text := if r.committed then "committed" else "aborted"

namespace PluginSession

/-- The record of a failed phase. -/
def failureRecord (plugin phase text : Text) : Value :=
  let unknown : Value := .str Ledger.unknown
  .map [(.str "plugin", .str plugin), (.str "file", unknown), (.str "line", unknown),
    (.str "column", unknown), (.str "source", unknown),
    (.str "message", .str (phase ++ " phase failed: " ++ text)), (.str "loc", unknown),
    (.str "phase", .str phase)]

/-- The kept records of a kind. -/
def records (s : PluginSession) (kind : ReportKind) : Except Fault Value :=
  Ledger.records kind s.store

/-- The error records to leave behind: the kept ones, after the record of a failed phase. -/
def persistedErrors (s : PluginSession) : Except Fault Value := do
  let kept ← s.records .error
  match s.failure with
  | none => return kept
  | some (phase, text) =>
    match kept with
    | .list items => return .list (failureRecord s.plugin.name phase text :: items)
    | v => throw (.noMember v.kindName "insert")

/-- A table of the session. -/
def table? (s : PluginSession) (path : AccessPath) : Except Fault Value := s.store.get path.toValue

/-- The texts that the session has staged. -/
def stagedTexts (s : PluginSession) : Except Fault (List (Text × Json)) := do
  let entries ← (← s.table? stagedPath).asRecord "items"
  return match (Value.map entries).toJson? with
    | some (.obj fields) => fields
    | _ => []

/-- Whether the session stands in the way of a commit. -/
def hasFailed (s : PluginSession) : Except Fault Bool := do
  if s.failure.isSome then return true
  return (← s.records .error).truthy

end PluginSession

end RoutePlugins
