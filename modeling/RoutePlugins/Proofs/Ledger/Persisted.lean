import RoutePlugins.Proofs.Ledger.DataListing
import RoutePlugins.Proofs.Ledger.Shown
import RoutePlugins.Proofs.Pipeline.ServedTexts

/-!
# Reports that outlive a run

A run leaves five artifacts of each plugin behind, and reports are loaded from them. After a run of
a project that had no data directory, each artifact is read as what the session has ended with, and
the reports of a level are the records of the result, plugin by plugin in the order of the names.

A staged text may be written over an artifact. Then the file holds that text, and reports are loaded
that no plugin has made.
-/

namespace RoutePlugins

namespace Pipeline

open World Files

/-! ### What a run adds -/

/-- A run that returns adds the artifacts of its plugins, and the staged texts if it writes them. -/
theorem added_of_run {r : Setup} {w w' : World} (hw : w.files.WellFormed) {result : RunResult}
    (h : r.run w = .ok result w') :
    Added (fun p => IsArtifact r.project r.names p ∨ IsStaged r result p) w.files w'.files := by
  obtain ⟨sessions, w1, settled, failed, w2, w3, hs, hset, hsame, hend⟩ := run_eq_ok h
  have hbefore : OnFiles (Adds fun p => IsArtifact r.project r.names p ∨ IsStaged r result p)
      w1 w2 := by
    refine (moves_settleAll_of (fun _ _ h => OnFiles.of_sameSources h)
      fun s hm artifact ha v => Run.moves_changeFiles (adds_writeValue _ ?_ v)).of_ok hset
    exact .inl ⟨s.plugin.name, name_of_sessions hs s hm, artifact, ha, rfl⟩
  have hafter : OnFiles (Adds fun p => IsArtifact r.project r.names p ∨ IsStaged r result p)
      w2 w3 := by
    obtain ⟨-, hconc⟩ | ⟨-, hshow⟩ := hend
    · have hstaged : result.committed = true ∧ result.staged = settled.staged := by
        obtain ⟨rfl, -⟩ := conclude_eq_ok hconc
        exact ⟨rfl, rfl⟩
      refine (moves_conclude_of (fun _ _ h => OnFiles.of_sameSources h) (fun hon => ?_)
        sessions).of_ok hconc
      refine moves_writeTexts_of fun e he j => ?_
      have hpath : IsStaged r result (Path.parse e.1) := ⟨hon, hstaged.1, e, hstaged.2 ▸ he, rfl⟩
      exact moves_writeStaged_of (adds_writeText _ (.inr hpath))
        (adds_ensureDirectories (onWay_parent (.inr hpath)))
    · exact OnFiles.of_sameSources ((moves_showAbort _ _ _).of_ok hshow)
  have hfirst : w1.files = w.files := congrArg Sources.files ((moves_sessions r).of_ok hs)
  have hlast : w'.files = w3.files := congrArg Sources.files hsame
  rw [← hfirst] at hw ⊢
  rw [hlast]
  exact trans_of (OnFiles (Adds _)) hbefore hafter hw

/-! ### What is read afterwards -/

/-- No text is staged for a file whose way passes the data directory. -/
def SparesData (fs : Files) (root : Location) (texts : List (Text × Json)) : Prop :=
  ∀ e ∈ texts, ∀ l, fs.Passes (Path.parse e.1) l → ¬ dataPlace root <+: l

instance (fs : Files) (root : Location) (texts : List (Text × Json)) :
    Decidable (SparesData fs root texts) :=
  decidable_of_iff (∀ e ∈ texts, ∀ front ∈ (Path.parse e.1).names.inits,
      ∀ l ∈ CompileHook.placeOf? fs ⟨(Path.parse e.1).anchor, front⟩,
        ¬ (dataPlace root).isPrefixOf l = true) <| by
    simp only [SparesData, Passes, CompileHook.leads_iff, List.mem_inits, Option.mem_def,
      List.isPrefixOf_iff_prefix]
    constructor
    · rintro hall e he l ⟨front, hf, hl⟩
      exact hall e he front hf l hl
    · exact fun hall e he front hf l hl => hall e he l ⟨front, hf, hl⟩

/-- The files are read as what a session has left behind, with halves put together. In what it has
built there are none, nor in its tables if its plugin neither starts the store nor ends it. -/
structure Persisted (fs : Files) (project : Project) (s : PluginSession)
    (rows : List (Text × Value)) : Prop where
  artifacts : s.artifacts = .ok rows
  reads : ∀ e ∈ rows, ∃ j, e.2 = .ofJson j ∧ (Json.Legible Json.maxDepth j →
    fs.readJson ((project.pluginDir s.plugin.name).child e.1) = .ok j.joined)
  data : s.derived.Whole
  whole : s.plugin.Lasting → ∀ e ∈ rows, (e.1 = "errors.json" → s.failure = none) →
    ∀ j, e.2 = .ofJson j → j.Whole

theorem whole_of_artifacts {s : PluginSession} (hstore : s.store.HoldsWhole)
    (hd : s.derived.Whole) {rows : List (Text × Value)} (h : s.artifacts = .ok rows) :
    ∀ e ∈ rows, (e.1 = "errors.json" → s.failure = none) → ∀ j, e.2 = .ofJson j → j.Whole := by
  obtain ⟨errors, warnings, collection, staged, he, hw, hc, hs, rfl⟩ :=
    PluginSession.artifacts_eq_ok h
  intro e hm hnone j hj
  simp only [artifactNames, List.zip_cons_cons, List.zip_nil_left, List.mem_cons,
    List.not_mem_nil, or_false] at hm
  obtain rfl | rfl | rfl | rfl | rfl := hm
  · exact hstore.get (by decide) (hc.trans (congrArg Except.ok hj))
  · exact Value.ofJson_injective hj ▸ hd
  · rw [persistedErrors_of_none (hnone rfl)] at he
    exact hstore.get (by decide) (he.trans (congrArg Except.ok hj))
  · exact hstore.get (by decide) (hw.trans (congrArg Except.ok hj))
  · exact hstore.get (by decide) (hs.trans (congrArg Except.ok hj))

section

variable {r : Setup} {w w' : World} {root : Location} {result : RunResult}
  (hfresh : Fresh w.files r.project root) (hnames : ∀ name ∈ r.names, DirectoryName name)
  (hnodup : r.names.Nodup) (h : r.run w = .ok result w')
  (hspare : r.writesFiles = true → result.committed = true →
    SparesData w'.files root result.staged)

include hfresh hnames hnodup h hspare

/-- What each session of a run has left behind is in the files, if no staged text is written into
the data directory. -/
theorem documents_of_run :
    ∃ sessions w1, r.sessions w = .ok sessions w1 ∧ Reports result sessions ∧
      ∀ s ∈ sessions, ∃ rows, s.artifacts = .ok rows ∧ ∀ e ∈ rows, ∀ j, e.2 = .ofJson j →
        w'.files.HoldsDocument ((r.project.pluginDir s.plugin.name).child e.1) j := by
  have hwf := hfresh.toWellFormed
  have hadd := added_of_run hwf h
  obtain ⟨sessions, w1, hs, hreports, hholds⟩ := held_of_run hnodup hwf h
  refine ⟨sessions, w1, hs, hreports, fun s hm => ?_⟩
  obtain ⟨rows, hrows, hheld⟩ := hholds s hm
  have hname := name_of_sessions hs s hm
  refine ⟨rows, hrows, fun e he => hheld e he ?_ ?_⟩
  all_goals
    have ha : e.1 ∈ artifactNames := by
      rw [← PluginSession.names_of_artifacts hrows]
      exact List.mem_map_of_mem he
  · exact hfresh.alone hadd.grows hadd.wellFormed hnames hname ha
  · rintro q ⟨hon, hc, staged, hstaged, rfl⟩ l hl hlq
    rw [hfresh.path_eq (hnames _ hname)] at hl
    have hplace := hfresh.eq_of_leads hadd.grows ((hnames _ hname).trail ha) hadd.wellFormed hl
    exact hspare hon hc staged hstaged l hlq.passes (hplace ▸ List.prefix_append _ _)

/-- What each session of a run has left behind is read afterwards. -/
theorem persisted_of_run :
    ∃ sessions w1, r.sessions w = .ok sessions w1 ∧ Reports result sessions ∧
      ∀ s ∈ sessions, ∃ rows, Persisted w'.files r.project s rows := by
  have hadd := added_of_run hfresh.toWellFormed h
  obtain ⟨sessions, w1, hs, hreports, hdocs⟩ :=
    documents_of_run hfresh hnames hnodup h hspare
  refine ⟨sessions, w1, hs, hreports, fun s hm => ?_⟩
  obtain ⟨rows, hrows, hheld⟩ := hdocs s hm
  obtain ⟨table, cache, -, -, -, -, hlives⟩ := lives_of_sessions (C := fun _ => True) hs
  obtain ⟨plugin, -, hlife⟩ :=
    exists_of_forall₂_left (hlives trivial fun _ _ _ _ _ _ => trivial).flip hm
  have hplugin : s.plugin = plugin := hlife.opened_for.1
  refine ⟨rows, hrows, fun e he => ?_, hlife.whole_derived, fun hlasting => ?_⟩
  · obtain ⟨j, hj⟩ := PluginSession.ofJson_of_artifacts hrows e he
    have hbytes := (hheld e he j hj).readBytes hadd.wellFormed
    exact ⟨j, hj, readJson_of_readBytes hbytes⟩
  · exact whole_of_artifacts (hlife.holdsWhole (hplugin ▸ hlasting)) hlife.whole_derived hrows

/-- The data directory that a run has made holds the documents of its result, and nothing that is
not on the way to an artifact. -/
theorem stocked_of_run : Stocked w'.files r.project root r.names result.document := by
  have hwf := hfresh.toWellFormed
  have hadd := added_of_run hwf h
  obtain ⟨sessions, w1, hs, hreports, hdocs⟩ :=
    documents_of_run hfresh hnames hnodup h hspare
  have hplugins : sessions.map (·.plugin.name) = r.names := by
    rw [Setup.names, ← plugins_of_sessions hs, List.map_map]
    rfl
  refine ⟨fun kind name hn => ?_, fun l hl hsome => ?_, hadd.distinct hfresh.distinct⟩
  · rw [← hplugins] at hn hnodup
    obtain ⟨s, hm, rfl⟩ := List.mem_map.mp hn
    obtain ⟨rows, hrows, hheld⟩ := hdocs s hm
    obtain ⟨row, -, -, hleft⟩ := exists_of_forall₂_left (hreports.rows kind) hm
    have hmem := PluginSession.mem_artifacts_of_left hrows hleft
    obtain ⟨j, hj⟩ := PluginSession.ofJson_of_artifacts hrows _ hmem
    obtain ⟨-, hdocument⟩ := hreports.document hnodup hm (hleft.trans (congrArg Except.ok hj))
    rw [hdocument]
    exact hheld _ hmem j hj
  · refine hfresh.on_way hadd.grows hadd.wellFormed hadd hnames (fun p hp => ?_) hl hsome
    refine hp.imp_right ?_
    rintro ⟨hon, hc, e, he, rfl⟩
    exact hspare hon hc e he

end

end Pipeline

/-- The file that a record is about. -/
def Ledger.fileOf? (fields : List (Text × Json)) : Option Text :=
  (Json.fieldOf? "file" fields).bind Json.str?

/-- The records of a file are those of its level that are about what its path resolves to. -/
theorem Ledger.reportsForFile_eq {fs : Files} {root : Path} {level : Value}
    {plugins : Option Value} {records : List (List (Text × Json))}
    (h : loadReports fs root level plugins = .ok records) (file : Text) :
    reportsForFile fs root file level plugins =
      (fs.resolve (Path.parse file)).map fun target =>
        records.filter fun fields => fileOf? fields == some target.text := by
  unfold reportsForFile
  cases fs.resolve (Path.parse file) with
  | error e => rfl
  | ok target =>
    rw [h]
    rfl

namespace Pipeline

open World Files

/-- Persisted reports agree with the run. Each artifact is read as what its session has ended with,
and the reports of a level are the records of the result. -/
theorem persisted_reports {r : Setup} {w w' : World} {root : Location} {result : RunResult}
    (hfresh : Fresh w.files r.project root) (hnames : ∀ name ∈ r.names, DirectoryName name)
    (hdistinct : Plugin.checkDistinct r.plugins = .ok ()) (h : r.run w = .ok result w')
    (hspare : r.writesFiles = true → result.committed = true →
      SparesData w'.files root result.staged) :
    (∃ sessions w1, r.sessions w = .ok sessions w1 ∧ sessions.map (·.plugin) = r.plugins ∧
      Reports result sessions ∧ ∀ s ∈ sessions, ∃ rows, Persisted w'.files r.project s rows) ∧
    ∀ kind, Assoc.keys (result.rows kind) = r.names ∧
      (∀ row ∈ result.rows kind, ∃ j, row.2 = .ofJson j ∧
        result.document kind row.1 = j ∧
        row.2.elements = .ok ((Ledger.recordsIn j).map fun fields => .ofJson (.obj fields))) ∧
      ((∀ name ∈ r.names, Json.Legible Json.maxDepth (result.document kind name)) →
        Ledger.loadReports w'.files r.project.root (.str kind.name) none =
          .ok (result.reports kind) ∧
        ∀ file, Ledger.reportsForFile w'.files r.project.root file (.str kind.name) none =
          (w'.files.resolve (Path.parse file)).map fun target =>
            (result.reports kind).filter fun fields =>
              Ledger.fileOf? fields == some target.text) := by
  have hnodup : r.names.Nodup := Plugin.nodup_of_checkDistinct hdistinct
  have hadd := added_of_run hfresh.toWellFormed h
  obtain ⟨sessions, w1, hs, hreports, hpersisted⟩ :=
    persisted_of_run hfresh hnames hnodup h hspare
  have hplugins := plugins_of_sessions hs
  have hsessions : sessions.map (·.plugin.name) = r.names := by
    rw [Setup.names, ← hplugins, List.map_map]
    rfl
  refine ⟨⟨sessions, w1, hs, hplugins, hreports, hpersisted⟩, fun kind => ?_⟩
  have hkeys : Assoc.keys (result.rows kind) = r.names := (hreports.keys kind).trans hsessions
  refine ⟨hkeys, fun row hrow => ?_, fun hlegible => ?_⟩
  · obtain ⟨s, hm, hname, hleft⟩ := exists_of_forall₂_left (hreports.rows kind).flip hrow
    obtain ⟨rows, hread⟩ := hpersisted s hm
    obtain ⟨j, hj⟩ := PluginSession.ofJson_of_artifacts hread.artifacts _
      (PluginSession.mem_artifacts_of_left hread.artifacts hleft)
    obtain ⟨-, hdocument⟩ :=
      hreports.document (hsessions ▸ hnodup) hm (hleft.trans (congrArg Except.ok hj))
    obtain ⟨shownAt, u, v, hshown⟩ := shown_of_run h kind row hrow
    have hrecords := elements_of_shown (hj ▸ hshown)
    exact ⟨j, hj, hname ▸ hdocument, hj ▸ hrecords⟩
  · have hstocked := stocked_of_run hfresh hnames hnodup h hspare
    have hload := hstocked.loadReports hfresh hadd.grows hadd.wellFormed hnames hnodup kind
      hlegible
    rw [← hkeys] at hload
    exact ⟨hload, Ledger.reportsForFile_eq hload⟩

namespace Sample

open CompileHook.Sample

/-- A plugin that warns about a file, and stages a text for it. -/
def warns (name file : Text) : Plugin :=
  ⟨name, .map [], some (.ask (.report .warning (.str "odd") file none) fun _ => .done .null), none,
    none, some (stageAll [(file, "x")])⟩

/-- A run of two plugins that warn, not in the order of their names. -/
def warningRun : Setup :=
  { stagesOne builtFile "x" with plugins := [warns "b" "/proj/b.ts", warns "a" "/proj/a.ts"] }

/-- A project with the files that they warn about. -/
def twoFiles : World :=
  { emptyWorld with files := ⟨[(["proj"], .directory), (["proj", "a.ts"], .file []),
    (["proj", "b.ts"], .file [])], ["proj"]⟩ }

theorem fresh_twoFiles : Fresh twoFiles.files warningRun.project ["proj"] where
  toTidy := by decide
  root_eq := rfl
  directory := by decide
  absent := rfl
  fits := by decide

/-- The file of errors of the plugin that stages a text. -/
def errorsFile : Text := "/proj/.routecast/p/errors.json"

/-- A run in which it stages a list with a record for that file. -/
def forgingRun : Setup := stagesOne errorsFile "[\x7b\"a\": 1\x7d]"

/-- The directory of the plugin. -/
def onlyDir : Path := ⟨.root, ["proj", ".routecast", "p"]⟩

/-- There is nothing but that directory in the data directory. -/
def ListsOnly (fs : Files) : Prop :=
  (fs.resolve ⟨.root, ["proj"]⟩).toOption = some ⟨.root, ["proj"]⟩ ∧
    (fs.isDirectory ⟨.root, ["proj", ".routecast"]⟩).toOption = some true ∧
    (fs.list ⟨.root, ["proj", ".routecast"]⟩).toOption = some [onlyDir]

instance (fs : Files) : Decidable (ListsOnly fs) := inferInstanceAs (Decidable (_ ∧ _ ∧ _))

/-- Then its records are loaded. -/
theorem ListsOnly.loadReports {fs : Files} (h : ListsOnly fs) :
    Ledger.loadReports fs ⟨.root, ["proj"]⟩ (.str "error") none =
      Ledger.recordsBelow fs .error none [onlyDir] := by
  obtain ⟨hresolve, hdir, hlist⟩ := h
  have hkind : ReportKind.ofValue (.configuration (.reportLevel (.str "error")))
      (.str "error") = .ok .error := rfl
  have hdata : (⟨.root, ["proj"]⟩ : Path).child Project.dataDirName =
      ⟨.root, ["proj", ".routecast"]⟩ := rfl
  have hsort : Path.sort [onlyDir] = [onlyDir] := List.mergeSort_singleton _
  simp only [Ledger.loadReports, hkind, ok_of_toOption hresolve, hdata, ok_of_toOption hdir,
    ok_of_toOption hlist, hsort, bind, Except.bind]
  rfl

/-- The texts of the records below some directories. -/
def textsBelow (fs : Files) (dirs : List Path) : Option (List Text) :=
  (Ledger.recordsBelow fs .error none dirs).toOption.map
    (·.map fun fields => (Json.obj fields).write)

end Sample

open Sample CompileHook.Sample

/-- The warnings of two plugins are loaded in the order of their names, and those of one file are
found by its path. -/
theorem persisted_reports_two_plugins :
    ∃ result w', warningRun.run twoFiles = .ok result w' ∧ result.committed = true ∧
      (result.reports .warning).map Ledger.fileOf? =
        [some ("/proj/a.ts" : Text), some ("/proj/b.ts" : Text)] ∧
      Ledger.loadReports w'.files warningRun.project.root (.str "warning") none =
        .ok (result.reports .warning) ∧
      ∃ records, Ledger.reportsForFile w'.files warningRun.project.root "/proj/b.ts"
          (.str "warning") none = .ok records ∧
        records.map Ledger.fileOf? = [some ("/proj/b.ts" : Text)] := by
  have hout : observe (fun result w' => (result.committed,
      (result.reports .warning).map Ledger.fileOf?,
      decide (SparesData w'.files ["proj"] result.staged),
      decide (∀ name ∈ warningRun.names, Json.Within Json.FewDigits (fun _ => False) Json.maxDepth
        (result.document .warning name)),
      (w'.files.resolve (Path.parse "/proj/b.ts")).toOption.map Path.text))
      (warningRun.run twoFiles) =
      some (true, [some ("/proj/a.ts" : Text), some ("/proj/b.ts" : Text)], true, true,
        some ("/proj/b.ts" : Text)) := by
    decide +kernel
  obtain ⟨result, w', hrun, hview⟩ := ok_of_observe hout
  simp only [Prod.mk.injEq] at hview
  obtain ⟨hcommitted, hfiles, hspare, hwithin, hresolve⟩ := hview
  obtain ⟨target, htarget, htext⟩ := Option.map_eq_some_iff.mp hresolve
  have hlegible : ∀ name ∈ warningRun.names,
      Json.Legible Json.maxDepth (result.document .warning name) := by
    intro name hn
    exact (of_decide_eq_true hwithin name hn).imp (fun _ h => h) (fun _ h => h.elim) (Nat.le_refl _)
  obtain ⟨-, hkinds⟩ := persisted_reports fresh_twoFiles (by decide) (by rfl) hrun
    fun _ _ => of_decide_eq_true hspare
  obtain ⟨-, -, hload⟩ := hkinds .warning
  obtain ⟨hload, hforFile⟩ := hload hlegible
  refine ⟨result, w', hrun, hcommitted, hfiles, hload, _,
    (hforFile "/proj/b.ts").trans (congrArg _ (ok_of_toOption htarget)), ?_⟩
  have hfilter (records : List (List (Text × Json))) (file : Option Text) :
      (records.filter fun fields => Ledger.fileOf? fields == file).map Ledger.fileOf? =
        (records.map Ledger.fileOf?).filter (· == file) := by
    rw [List.filter_map]
    rfl
  rw [hfilter, hfiles, htext]
  decide

/-- A plugin stages a list with a record for its file of errors. The run is committed and tells of
no error, but the list is written over those of the plugin, and the record is loaded as an error. -/
theorem staged_text_loaded_as_report :
    ∃ result w', forgingRun.run emptyWorld = .ok result w' ∧ result.committed = true ∧
      result.reports .error = [] ∧
      ∃ fields, Ledger.loadReports w'.files forgingRun.project.root (.str "error") none =
          .ok [fields] ∧
        (Json.obj fields).write = Json.write (.obj [("a", .int 1)]) := by
  have hout : observe (fun result w' => (result.committed, (result.reports .error).isEmpty,
      decide (ListsOnly w'.files), textsBelow w'.files [onlyDir])) (forgingRun.run emptyWorld) =
      some (true, true, true, some [Json.write (.obj [("a", .int 1)])]) := by
    decide +kernel
  obtain ⟨result, w', hrun, hview⟩ := ok_of_observe hout
  simp only [Prod.mk.injEq] at hview
  obtain ⟨hcommitted, hnone, honly, hbelow⟩ := hview
  obtain ⟨records, hrecords, htexts⟩ := Option.map_eq_some_iff.mp hbelow
  obtain ⟨fields, rfl, htext⟩ := List.map_eq_singleton_iff.mp htexts
  have hload := (of_decide_eq_true honly).loadReports.trans (ok_of_toOption hrecords)
  exact ⟨result, w', hrun, hcommitted, List.isEmpty_iff.mp hnone, fields, hload, htext⟩

end Pipeline

end RoutePlugins
