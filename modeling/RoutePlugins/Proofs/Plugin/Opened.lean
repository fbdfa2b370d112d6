import RoutePlugins.Plugin.Session
import RoutePlugins.Proofs.Store.Steps

/-!
# The store of a session that was just opened

Whatever the plugin and the project, a session is opened with the same tables in its store, each
with its first value, and with the files parsed before it.
-/

namespace RoutePlugins

variable {cache : ParseCache} {root : Path} {path : AccessPath} {initial : Value} {v : Json}
  {name : Text} {slots : List (AccessPath × Json)} {q : Path} {fs : Files} {project : Project}
  {table : RouteTable} {plugin : Plugin}

/-- Registering a path apart from the others adds a slot. -/
theorem register_apply (hp : path.Proper)
    (ha : ∀ p ∈ parsedPath :: slots.map Prod.fst, p.Apart path) (hv : initial.keep = .ok v) :
    StoreM.change (fun s => (s.register path.toValue initial).map Prod.snd)
        (.active name ⟨cache, slots⟩) =
      .ok () (.active name ⟨cache, slots ++ [(path, v)]⟩) := by
  have hr := Store.register_eq_ok.mpr
    ⟨name, ⟨cache, slots⟩, v, rfl, AccessPath.ofValue_toValue hp, ha, hv, rfl⟩
  rw [StoreM.change_apply, hr]
  rfl

theorem ensureRegistered_apply (hp : path.Proper)
    (ha : ∀ p ∈ parsedPath :: slots.map Prod.fst, p.Apart path) (hv : initial.keep = .ok v) :
    ImportGraph.ensureRegistered path initial (.active name ⟨cache, slots⟩) =
      .ok () (.active name ⟨cache, slots ++ [(path, v)]⟩) := by
  have hnew : (parsedPath :: slots.map Prod.fst).contains path = false := by
    simpa using fun h => (ha path h).ne rfl
  have hread : StoreM.read (fun s => s.isRegistered path.toValue) (.active name ⟨cache, slots⟩) =
      .ok false (.active name ⟨cache, slots⟩) := by
    rw [StoreM.read_apply, Store.isRegistered, AccessPath.ofValue_toValue hp]
    change Files.lift (.ok ((parsedPath :: slots.map Prod.fst).contains path)) _ = _
    rw [hnew]
    rfl
  unfold ImportGraph.ensureRegistered
  rw [bind_of_ok hread]
  exact register_apply hp ha hv

/-- The tables with which a session is opened. -/
def firstSlots : List (AccessPath × Json) :=
  [(ReportKind.error.path, .arr []), (ReportKind.warning.path, .arr []),
    (ImportGraph.importsPath, .obj []), (ImportGraph.reachedPath, .obj []),
    (collectionPath, .arr []), (savedPath, .null), (savedHistoryPath, .arr []),
    (stagedPath, .obj []), (stagedHistoryPath, .arr [])]

/-- Two tables are registered in a store that was just opened. -/
theorem Ledger.attach_apply (fs : Files) (plugin : Value) (hq : fs.resolve root = .ok q)
    (name : Text) (cache : ParseCache) :
    Ledger.attach fs plugin root (.active name ⟨cache, []⟩) =
      .ok ⟨plugin, q⟩ (.active name ⟨cache, firstSlots.take 2⟩) := by
  have hresolve (s : Store) : StoreM.lift (fs.resolve root) s = .ok q s :=
    lift_eq_ok.mpr ⟨hq, rfl⟩
  rw [Ledger.attach, bind_of_ok (hresolve _),
    bind_of_ok (ensureRegistered_apply (by decide) (by decide) rfl),
    bind_of_ok (ensureRegistered_apply (by decide) (by decide) rfl)]
  rfl

/-- Two further tables are registered after those of the reports. -/
theorem ImportGraph.attach_apply (fs : Files) (hq : fs.resolve root = .ok q)
    (aliases : Option Aliases) (name : Text) (cache : ParseCache) :
    ImportGraph.attach fs root aliases (.active name ⟨cache, firstSlots.take 2⟩) =
      .ok ⟨q, aliases⟩ (.active name ⟨cache, firstSlots.take 4⟩) := by
  have hresolve (s : Store) : StoreM.lift (fs.resolve root) s = .ok q s :=
    lift_eq_ok.mpr ⟨hq, rfl⟩
  rw [ImportGraph.attach, bind_of_ok (hresolve _),
    bind_of_ok (ensureRegistered_apply (by decide) (by decide) rfl),
    bind_of_ok (ensureRegistered_apply (by decide) (by decide) rfl)]
  rfl

theorem registerTables_apply (name : Text) (cache : ParseCache) :
    PluginSession.registerTables PluginSession.tables (.active name ⟨cache, firstSlots.take 4⟩) =
      .ok () (.active name ⟨cache, firstSlots⟩) := by
  change (StoreM.change _ >>= fun _ => StoreM.change _ >>= fun _ => StoreM.change _ >>= fun _ =>
    StoreM.change _ >>= fun _ => StoreM.change _ >>= fun _ => pure ()) _ = _
  rw [bind_of_ok (register_apply (by decide) (by decide) rfl),
    bind_of_ok (register_apply (by decide) (by decide) rfl),
    bind_of_ok (register_apply (by decide) (by decide) rfl),
    bind_of_ok (register_apply (by decide) (by decide) rfl),
    bind_of_ok (register_apply (by decide) (by decide) rfl)]
  rfl

/-- Opening a session for a plugin with a name resolves the project root and reads the
configuration, and all else of the session is given. -/
theorem PluginSession.start_eq (fs : Files) (project : Project) (table : RouteTable)
    (cache : ParseCache) (plugin : Plugin) :
    PluginSession.start fs project table cache plugin =
      if plugin.name.isEmpty then .error (.store .nameless)
      else do
        let root ← fs.resolve project.root
        let config ← plugin.config.toEntries
        return ⟨plugin, project, table, ⟨.str plugin.name, root⟩, ⟨root, project.aliases⟩,
          .active plugin.name ⟨cache, firstSlots⟩, config, .null, none, .null⟩ := by
  unfold PluginSession.start
  dsimp only
  cases hn : plugin.name.isEmpty with
  | true =>
    have hstart : StoreM.change (fun _ => Store.start (.str plugin.name) cache) .fresh =
        .error (.store .nameless) .fresh := by
      rw [StoreM.change_apply, Store.start, Store.clear, AccessPath.segment?, hn]
      rfl
    rw [bind_of_error hstart]
    rfl
  | false =>
    have hstart : StoreM.change (fun _ => Store.start (.str plugin.name) cache) .fresh =
        .ok () (.active plugin.name ⟨cache, []⟩) := by
      rw [StoreM.change_apply, Store.start, Store.clear, AccessPath.segment?, hn]
      rfl
    rw [bind_of_ok hstart]
    cases hroot : fs.resolve project.root with
    | error e =>
      have hledger : Ledger.attach fs (.str plugin.name) project.root
          (.active plugin.name ⟨cache, []⟩) = .error e (.active plugin.name ⟨cache, []⟩) := by
        rw [Ledger.attach, hroot]
        rfl
      rw [bind_of_error hledger]
      rfl
    | ok root =>
      rw [bind_of_ok (Ledger.attach_apply fs _ hroot _ cache),
        bind_of_ok (ImportGraph.attach_apply fs hroot _ _ cache),
        bind_of_ok (registerTables_apply _ cache)]
      rfl

theorem PluginSession.start_eq_ok {s : PluginSession}
    (h : PluginSession.start fs project table cache plugin = .ok s) :
    ∃ root config, fs.resolve project.root = .ok root ∧ plugin.config.toEntries = .ok config ∧
      s = ⟨plugin, project, table, ⟨.str plugin.name, root⟩, ⟨root, project.aliases⟩,
        .active plugin.name ⟨cache, firstSlots⟩, config, .null, none, .null⟩ := by
  rw [start_eq] at h
  split at h
  · cases h
  · obtain ⟨root, hroot, h⟩ := bind_ok_iff.mp h
    obtain ⟨config, hconfig, h⟩ := bind_ok_iff.mp h
    cases h
    exact ⟨root, config, hroot, hconfig, rfl⟩

/-- A session can be opened for a plugin with a name, once the project root is resolved and the
configuration is read. -/
theorem PluginSession.start_of_ok {config : List (Value × Value)} (hn : plugin.name.isEmpty = false)
    (hroot : fs.resolve project.root = .ok root) (hconfig : plugin.config.toEntries = .ok config) :
    PluginSession.start fs project table cache plugin =
      .ok ⟨plugin, project, table, ⟨.str plugin.name, root⟩, ⟨root, project.aliases⟩,
        .active plugin.name ⟨cache, firstSlots⟩, config, .null, none, .null⟩ := by
  rw [start_eq, hn, hroot, hconfig]
  rfl

end RoutePlugins
