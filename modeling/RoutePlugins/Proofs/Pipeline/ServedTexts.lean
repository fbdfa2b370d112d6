import RoutePlugins.Proofs.Pipeline.HookFailures
import RoutePlugins.Proofs.Pipeline.LeftArtifacts
import RoutePlugins.Proofs.Store.WholeValues

/-!
# What a hook serves after a restart

A hook that has run the plugins serves the texts of the result. A new hook of the same plugins whose
first run is skipped has no result: it reads what the plugins left behind. Both serve the same
texts, because a plugin leaves errors behind if and only if it stood in the way of the commit, and
because the documents are read as what was written.

It can be otherwise only if the run itself writes to these files a second time: a plugin may stage a
text for the table of staged texts.
-/

namespace RoutePlugins

/-! ### Kept texts read back -/

namespace Tallies

variable {fs : Files} {log : StagingLog} {s : Store} (h : Tallies fs log s)

include h in
/-- A table of staged texts has no pairs of halves left. -/
theorem joined_kept : (Json.obj log.kept).joined = .obj log.kept := by
  refine Json.whole_obj_of (Assoc.nodup_keys_ofList _) fun e he => ?_
  obtain ⟨e', he', rfl⟩ := List.mem_map.mp (Assoc.mem_of_mem_ofList he)
  obtain ⟨p, q, hq, htext⟩ := h.resolved e' he'
  refine ⟨?_, congrArg Json.str (Text.joined_joined e'.2)⟩
  rw [← htext]
  exact Files.joined_of_resolve hq

omit h in
theorem legible_kept (log : StagingLog) : Json.Legible Json.maxDepth (.obj log.kept) := by
  refine ⟨by decide, Json.withinFields_iff.mpr fun e he => ?_⟩
  obtain ⟨e', -, rfl⟩ := List.mem_map.mp (Assoc.mem_of_mem_ofList he)
  trivial

end Tallies

/-! ### Entries of texts -/

namespace Value

theorem insertEntry_ofJsonFields (key : Text) (j : Json) (fields : List (Text × Json)) :
    insertEntry (.str key) (.ofJson j) (ofJsonFields fields) =
      ofJsonFields (Assoc.insert key j fields) := by
  induction fields with
  | nil => rfl
  | cons e rest ih =>
    obtain ⟨k, v⟩ := e
    have hsame : sameKey (.str k) (.str key) = (k == key) := by
      simp [sameKey, toJson?, Json.same, Json.sameScalar]
    rw [ofJsonFields, insertEntry, hsame, Assoc.insert]
    split
    · rfl
    · rw [ih, ofJsonFields]

/-- Entries under texts are updated as the fields they come from. -/
theorem updateEntries_ofJsonFields (m new : List (Text × Json)) :
    updateEntries (ofJsonFields m) (ofJsonFields new) = ofJsonFields (Assoc.update m new) := by
  induction new generalizing m with
  | nil => rfl
  | cons e rest ih =>
    change updateEntries (insertEntry (.str e.1) (.ofJson e.2) (ofJsonFields m))
      (ofJsonFields rest) = _
    rw [insertEntry_ofJsonFields, ih]
    rfl

end Value

/-! ### Distinct plugins -/

theorem sortTexts_eq_nil {texts : List Text} (h : sortTexts texts = []) : texts = [] := by
  cases texts with
  | nil => rfl
  | cons t rest =>
    have hne (texts : List Text) : insertText t texts ≠ [] := by
      cases texts with
      | nil => simp [insertText]
      | cons s rest =>
        rw [insertText]
        split
        · simp
        · simp
    exact absurd h (hne _)

/-- Plugins that are not refused have distinct names. -/
theorem Plugin.nodup_of_checkDistinct {plugins : List Plugin}
    (h : checkDistinct plugins = .ok ()) : (plugins.map (·.name)).Nodup := by
  unfold checkDistinct at h
  split at h
  · next hnone =>
    have hdups := sortTexts_eq_nil hnone
    have hfilter : (plugins.map (·.name)).filter
        (fun name => decide (1 < (plugins.map (·.name)).count name)) = [] := by
      cases hf : (plugins.map (·.name)).filter
        (fun name => decide (1 < (plugins.map (·.name)).count name)) with
      | nil => rfl
      | cons name rest =>
        rw [hf, List.eraseDups_cons] at hdups
        cases hdups
    rw [List.nodup_iff_count_le_one]
    intro name
    by_contra hcount
    have hmem : name ∈ plugins.map (·.name) := List.count_pos_iff.mp (by omega)
    have := List.filter_eq_nil_iff.mp hfilter name hmem
    simp at this
    omega
  · cases h

namespace CompileHook

open World Files Pipeline

/-! ### What a new hook finds -/

/-- What a new hook finds of a session: errors, if and only if the session stood in the way of a
commit, and the texts that the session has staged. -/
structure Finds (fs : Files) (project : Project) (s : Watched) : Prop where
  errors : ∃ items,
    fs.isPresent ((project.pluginDir s.1.plugin.name).child "errors.json") = .ok true ∧
    fs.readJson ((project.pluginDir s.1.plugin.name).child "errors.json") = .ok (.arr items) ∧
    s.1.hasFailed = .ok (!items.isEmpty)
  staged : fs.isPresent ((project.pluginDir s.1.plugin.name).child "rewrites.json") = .ok true ∧
    fs.readJson ((project.pluginDir s.1.plugin.name).child "rewrites.json") = .ok (.obj s.2.kept)

variable {fs : Files} {project : Project} {sessions : List Watched}

/-- What a session has left behind is found, as long as the bytes of its files are the same. -/
theorem finds_of_left {fs0 gs : Files} (hw : fs.WellFormed) {s : Watched}
    (hfiled : Filed s.1.ledger s.1.store) (htallied : Tallied fs0 s) (hleft : Left fs project s.1)
    (hsame : ∀ telltale ∈ telltales,
      gs.readBytes ((project.pluginDir s.1.plugin.name).child telltale) =
        fs.readBytes ((project.pluginDir s.1.plugin.name).child telltale)) :
    Finds gs project s := by
  obtain ⟨items, hitems, hshallow, hfailed⟩ := hfiled.persistedErrors
  have herrors := (hleft.errors _ hitems).readBytes hw
  rw [← hsame _ (by decide)] at herrors
  have htable : s.1.table? stagedPath = .ok (.ofJson (.obj s.2.kept)) :=
    Store.get_of_slotAt (by decide) (by decide) htallied.tallies.staged
  have hstaged := (hleft.staged _ htable).readBytes hw
  rw [← hsame _ (by decide)] at hstaged
  refine ⟨⟨Json.joinedItems items, isPresent_of_readBytes herrors, ?_, ?_⟩,
    isPresent_of_readBytes hstaged, ?_⟩
  · exact readJson_of_readBytes herrors (hshallow.legible (by decide))
  · cases items with
    | nil => exact hfailed
    | cons v rest => exact hfailed
  · rw [readJson_of_readBytes hstaged (Tallies.legible_kept s.2), htallied.tallies.joined_kept]

/-- A new hook stops at a session that has failed, and takes over the texts of any other. -/
theorem committedFrom_of_finds {s : Watched} (h : Finds fs project s) {failed : Bool}
    (hf : s.1.hasFailed = .ok failed) (merged : List (Value × Value)) (rest : List Plugin) :
    committedFrom fs project merged (s.1.plugin :: rest) = if failed then .ok [] else
      committedFrom fs project (Value.updateEntries merged (Value.ofJsonFields s.2.kept)) rest := by
  obtain ⟨⟨items, hpresent, herrors, hitems⟩, hthere, hstaged⟩ := h
  rw [hf] at hitems
  cases hitems
  rw [committedFrom]
  simp only [hthere, hpresent, herrors, hstaged, bind, Except.bind, Except.map, Value.truthy_arr]
  cases items with
  | nil => rfl
  | cons v rest => rfl

/-- After a committed run a new hook takes over the texts of all sessions in turn. -/
theorem committedFrom_of_committed (h : ∀ s ∈ sessions, Finds fs project s)
    (hok : ∀ s ∈ sessions, s.1.hasFailed = .ok false) (m : List (Text × Json)) :
    committedFrom fs project (Value.ofJsonFields m) ((sessions.map Prod.fst).map (·.plugin)) =
      .ok (Value.ofJsonFields (Assoc.update m
        ((sessions.flatMap Prod.snd).map fun e => (e.1, .str e.2.joined)))) := by
  induction sessions generalizing m with
  | nil => rfl
  | cons s rest ih =>
    rw [List.map_cons, List.map_cons,
      committedFrom_of_finds (h s (by simp)) (hok s (by simp)), if_neg (by simp),
      Value.updateEntries_ofJsonFields,
      ih (fun t ht => h t (by simp [ht])) fun t ht => hok t (by simp [ht]), List.flatMap_cons,
      List.map_append, Assoc.update_append, StagingLog.kept, Assoc.update_ofList]

/-- After an aborted run a new hook finds a session that has failed, and takes over nothing. -/
theorem committedFrom_of_aborted (h : ∀ s ∈ sessions, Finds fs project s)
    (hex : ∃ s ∈ sessions, s.1.hasFailed = .ok true) (merged : List (Value × Value)) :
    committedFrom fs project merged ((sessions.map Prod.fst).map (·.plugin)) = .ok [] := by
  induction sessions generalizing merged with
  | nil => simp at hex
  | cons s rest ih =>
    obtain ⟨items, -, -, hitems⟩ := (h s (by simp)).errors
    rw [List.map_cons, List.map_cons, committedFrom_of_finds (h s (by simp)) hitems]
    split
    · rfl
    · next hnot =>
      refine ih (fun t ht => h t (by simp [ht])) ?_ _
      obtain ⟨t, ht, hfailed⟩ := hex
      obtain rfl | ht := List.mem_cons.mp ht
      · rw [hitems] at hfailed
        exact absurd (Except.ok.inj hfailed) hnot
      · exact ⟨t, ht, hfailed⟩

/-! ### Two hooks -/

/-- A run that gives a result ran the plugins, and the hook serves what the result lets it serve. -/
theorem run_eq_some {h h' : CompileHook} {w w' : World} {result : RunResult}
    (hrun : run (w, h) = .ok (some result) (w', h')) :
    Plugin.checkDistinct h.setup.plugins = .ok () ∧
      Gate.runIfChanged h.setup.project pluginsDigestKey h.setup.run none w =
        .ok (some result) w' ∧
      h' = { h with lastResult := some result, served := servedOf result } := by
  dsimp only [run] at hrun
  split at hrun
  · cases hrun
  next hdistinct =>
  split at hrun
  · cases hrun
  · next hgate =>
    cases hrun
    exact ⟨hdistinct, hgate, rfl⟩
  · split at hrun
    · cases hrun
    · split at hrun
      · cases hrun
      · split at hrun
        · cases hrun
        · cases hrun

/-- A new hook whose run is skipped serves what was left behind. -/
theorem run_new {r : Setup} {w : World} {served : List (Value × Value)}
    (hdistinct : Plugin.checkDistinct r.plugins = .ok ())
    (hskip : Gate.runIfChanged r.project pluginsDigestKey r.run none w = .ok none w)
    (hserved : committedFrom w.files r.project [] r.plugins = .ok served) :
    ∃ w', run (w, .new r) = .ok none (w', ⟨r, none, served⟩) := by
  obtain ⟨w', hdone, hfiles⟩ : ∃ w', Run.done "Sources unchanged, skipping plugins" w = .ok () w' ∧
      w'.files = w.files := ⟨_, rfl, rfl⟩
  refine ⟨w', ?_⟩
  unfold run
  simp only [new, hdistinct, hskip, hdone, committedTexts, hfiles, hserved]
  rfl

/-- What a result lets a hook serve is what a new hook finds. -/
theorem committedFrom_eq_servedOf (h : ∀ s ∈ sessions, Finds fs project s) {result : RunResult}
    (hend : Decides result sessions) :
    committedFrom fs project [] ((sessions.map Prod.fst).map (·.plugin)) =
      .ok (servedOf result) := by
  obtain ⟨hc, hok, hstaged⟩ | ⟨hc, hex⟩ := hend
  · have hall := committedFrom_of_committed h hok []
    have htexts : result.staged = Assoc.update []
        ((sessions.flatMap Prod.snd).map fun e => (e.1, .str e.2.joined)) := by
      rw [hstaged]
      exact Assoc.update_mapValues (fun _ (code : Text) => Json.str code.joined) [] _
    rw [← htexts] at hall
    rw [servedOf, if_pos hc]
    exact hall.trans (congrArg Except.ok (Value.ofJsonFields_eq_map result.staged))
  · rw [committedFrom_of_aborted h hex, servedOf, hc]
    rfl

/-- A hook has run the plugins, which do not use their stores directly, whether the run was
committed or aborted. Then a new hook of the same project and the same plugins whose first run is
skipped serves the same text for every file and every code; after an aborted run, both serve every
file as it is given. This is so as long as no other artifact and no text that was written leads to
the files that the new hook reads, and these files still have the bytes that they had after the
run. -/
theorem served_after_restart (h h' : CompileHook) (w w' : World) (result : RunResult)
    (hw : w.files.WellFormed) (hp : ∀ plugin ∈ h.setup.plugins, plugin.Ordinary)
    (hrun : run (w, h) = .ok (some result) (w', h'))
    (hapart : ArtifactsApart w'.files h.setup.project h.setup.names)
    (hspare : h.setup.writesFiles = true → result.committed = true →
      SparesTelltales w'.files h.setup.project h.setup.names result.staged)
    (r : Setup) (hproject : r.project = h.setup.project) (hplugins : r.plugins = h.setup.plugins)
    (w2 : World)
    (hsame : ∀ name ∈ h.setup.names, ∀ telltale ∈ telltales,
      w2.files.readBytes ((r.project.pluginDir name).child telltale) =
        w'.files.readBytes ((r.project.pluginDir name).child telltale))
    (hskip : Gate.runIfChanged r.project pluginsDigestKey r.run none w2 = .ok none w2) :
    ∃ w3 h2, run (w2, .new r) = .ok none (w3, h2) ∧
      (∀ fs file code, h2.sourceFor fs file code = h'.sourceFor fs file code) ∧
      (result.committed = false → ∀ fs file code p, fs.resolve (Path.parse file) = .ok p →
        h'.sourceFor fs file code = .ok code ∧ h2.sourceFor fs file code = .ok code) := by
  obtain ⟨hdistinct, hgate, rfl⟩ := run_eq_some hrun
  obtain ⟨w1, hbegins, hwork⟩ := Gate.runIfChanged_eq_some hgate
  obtain ⟨-, -, -, -, hw1, -⟩ := hbegins.written hw
  have hw' : w'.files.WellFormed := (h.setup.moves_run.of_ok hwork hw1).wellFormed
  obtain ⟨sessions, hsessions, hall, hend⟩ := sessions_of_run hp
    (Plugin.nodup_of_checkDistinct hdistinct) hw1 hwork hapart hspare
  rw [hproject] at hsame
  have hfinds : ∀ s ∈ sessions, Finds w2.files h.setup.project s := by
    intro s hs
    obtain ⟨hfiled, htallied, hleft⟩ := hall s hs
    have hname : s.1.plugin.name ∈ h.setup.names := by
      rw [Setup.names, ← hsessions]
      exact List.mem_map_of_mem (List.mem_map_of_mem (List.mem_map_of_mem hs))
    exact finds_of_left hw' hfiled htallied hleft (hsame _ hname)
  have hserved : committedFrom w2.files r.project [] r.plugins = .ok (servedOf result) := by
    rw [hproject, hplugins, ← hsessions]
    exact committedFrom_eq_servedOf hfinds hend
  rw [← hplugins] at hdistinct
  obtain ⟨w3, hnew⟩ := run_new hdistinct hskip hserved
  refine ⟨w3, _, hnew, fun fs file code => rfl, fun hc fs file code p hresolve => ?_⟩
  have hnone : servedOf result = [] := by
    rw [servedOf, hc]
    rfl
  constructor
  · rw [sourceFor, hresolve, hnone]
    rfl
  · rw [sourceFor, hresolve, hnone]
    rfl

/-! ### Two restarts -/

/-- The place to which a path leads. -/
def placeOf? (fs : Files) (p : Path) : Option Location :=
  match fs.locate .follow p with
  | .ok (l, some _) => some l
  | _ => none

theorem leads_iff {p : Path} {l : Location} : fs.Leads p l ↔ placeOf? fs p = some l := by
  unfold placeOf?
  constructor
  · rintro ⟨e, he⟩
    rw [he]
  · intro h
    split at h
    · next l' e he =>
      cases h
      exact ⟨e, he⟩
    · cases h

instance (fs : Files) (project : Project) (names : List Text) :
    Decidable (ArtifactsApart fs project names) :=
  decidable_of_iff (∀ name ∈ names, ∀ telltale ∈ telltales, ∀ other ∈ names,
      ∀ artifact ∈ artifactNames, ∀ l ∈ placeOf? fs ((project.pluginDir name).child telltale),
        placeOf? fs ((project.pluginDir other).child artifact) = some l →
          other = name ∧ artifact = telltale) <| by
    simp only [ArtifactsApart, leads_iff, Option.mem_def]

instance (fs : Files) (project : Project) (names : List Text) (texts : List (Text × Json)) :
    Decidable (SparesTelltales fs project names texts) :=
  decidable_of_iff (∀ name ∈ names, ∀ telltale ∈ telltales, ∀ e ∈ texts,
      ∀ l ∈ placeOf? fs ((project.pluginDir name).child telltale),
        ¬ placeOf? fs (Path.parse e.1) = some l) <| by
    simp only [SparesTelltales, leads_iff, Option.mem_def]

namespace Sample

/-- A project without files. -/
def emptyWorld : World :=
  ⟨⟨[(["proj"], .directory)], ["proj"]⟩, fun _ _ => default, .still 0, "", [], []⟩

/-- A run of one plugin that stages a text, and writes it. -/
def stagesOne (file code : Text) : Setup :=
  ⟨⟨⟨.root, ["proj"]⟩, none, none, []⟩, [Pipeline.Sample.stages "p" [(file, code)]],
    fun _ _ => .ok [], true⟩

/-- A file of the build output, which does not count for the digest. -/
def builtFile : Text := "/proj/dist/a.js"

/-- The file that holds the table of staged texts of the plugin. -/
def tableFile : Text := "/proj/.routecast/p/rewrites.json"

/-- The text that a hook serves for a file, if it is a text. -/
def textFor (s : World × CompileHook) (file code : Text) : Option Text :=
  match s.2.sourceFor s.1.files file (.str code) with
  | .ok (.str text) => some text
  | _ => none

end Sample

open Sample

/-- A text staged for a file of the build output is served by the hook that ran the plugin, and by a
new hook as well. -/
theorem served_after_restart_built_file :
    ∃ result w' h' s2,
      run (emptyWorld, .new (stagesOne builtFile "x")) = .ok (some result) (w', h') ∧
      result.committed = true ∧ run (w', .new (stagesOne builtFile "x")) = .ok none s2 ∧
      textFor (w', h') builtFile "y" = some ("x" : Text) ∧
      s2.2.sourceFor w'.files builtFile (.str "y") =
        h'.sourceFor w'.files builtFile (.str "y") := by
  have hout : observe (fun result s => (result.map fun result => (result.committed,
        decide (SparesTelltales s.1.files (stagesOne builtFile "x").project
          (stagesOne builtFile "x").names result.staged)),
      decide (ArtifactsApart s.1.files (stagesOne builtFile "x").project
        (stagesOne builtFile "x").names),
      observe (fun again _ => again.isNone) (Gate.runIfChanged (stagesOne builtFile "x").project
        pluginsDigestKey (stagesOne builtFile "x").run none s.1),
      textFor s builtFile "y"))
      (run (emptyWorld, .new (stagesOne builtFile "x"))) =
      some (some (true, true), true, some true, some ("x" : Text)) := by decide +kernel
  obtain ⟨ran, ⟨w', h'⟩, hrun, hview⟩ := ok_of_observe hout
  simp only [Prod.mk.injEq] at hview
  obtain ⟨hran, hapart, hskip, htext⟩ := hview
  obtain ⟨result, rfl, hresult⟩ := Option.map_eq_some_iff.mp hran
  simp only [Prod.mk.injEq] at hresult
  obtain ⟨hcommitted, hspare⟩ := hresult
  obtain ⟨again, w2, hgate, hnone⟩ := ok_of_observe hskip
  obtain rfl : again = none := by simpa using hnone
  obtain ⟨-, -, -, rfl⟩ := Gate.runIfChanged_eq_none hgate
  have hp : ∀ plugin ∈ (stagesOne builtFile "x").plugins, plugin.Ordinary := by
    intro plugin hm
    rw [List.mem_singleton.mp hm]
    exact Pipeline.Sample.ordinary_stages _ _
  obtain ⟨w3, h2, hnew, hsame, -⟩ := served_after_restart (.new (stagesOne builtFile "x")) h'
    emptyWorld w2 result (by decide +kernel) hp hrun (of_decide_eq_true hapart)
    (fun _ _ => of_decide_eq_true hspare) (stagesOne builtFile "x") rfl rfl w2 (fun _ _ _ _ => rfl)
    hgate
  exact ⟨result, w2, h', (w3, h2), hrun, hcommitted, hnew, htext, hsame _ _ _⟩

/-- A plugin stages a text for the file that holds its table of staged texts. The hook that ran it
serves that text; but the run has written it over the table, so a new hook finds no text there, and
serves the file as it is given. -/
theorem restart_forgets_written_table :
    ∃ result s s2, run (emptyWorld, .new (stagesOne tableFile "{}")) = .ok (some result) s ∧
      result.committed = true ∧ run (s.1, .new (stagesOne tableFile "{}")) = .ok none s2 ∧
      textFor s tableFile "x" = some ("{}" : Text) ∧
      textFor s2 tableFile "x" = some ("x" : Text) := by
  have hout : observe (fun result s => (result.map (·.committed), textFor s tableFile "x",
      observe (fun again s2 => (again.isNone, textFor s2 tableFile "x"))
        (run (s.1, .new (stagesOne tableFile "{}")))))
      (run (emptyWorld, .new (stagesOne tableFile "{}"))) =
      some (some true, some ("{}" : Text), some (true, some ("x" : Text))) := by decide +kernel
  obtain ⟨ran, s, hrun, hview⟩ := ok_of_observe hout
  simp only [Prod.mk.injEq] at hview
  obtain ⟨hran, hfirst, hskip⟩ := hview
  obtain ⟨result, rfl, hcommitted⟩ := Option.map_eq_some_iff.mp hran
  obtain ⟨again, s2, hnew, hagain⟩ := ok_of_observe hskip
  obtain ⟨hnone, hsecond⟩ := Prod.mk.inj hagain
  obtain rfl : again = none := by simpa using hnone
  exact ⟨result, s, s2, hrun, hcommitted, hnew, hfirst, hsecond⟩

end CompileHook

end RoutePlugins
