import RoutePlugins.Proofs.Json.RoundTrip
import RoutePlugins.Proofs.Pipeline.LeftArtifacts
import RoutePlugins.Proofs.Plugin.AnalysedFiles
import RoutePlugins.Proofs.Plugin.CollectorPhase

/-!
# The calls that a run collects

A run of a collector alone opens a session, collects, builds and stages nothing. If no phase fails,
the data of the run is the collection, and its errors are the records of the session. So the result
can be told from the sites of the calls: each gives an entry, for every route that has its file, and
each offence gives a record, however often it is met. The run is committed if there is no offence.

The last holds whatever the function is called. That offences have one record each does not: a path
may come to have a pair of halves when the project root is left out of it.
-/

namespace RoutePlugins

variable {cache : ParseCache} {table : RouteTable} {o : Offence}

theorem Files.checkPath_of_writeText {fs gs : Files} {root p : Path} {text : Text}
    (h : writeText root p text fs = .ok () gs) : checkPath p = .ok () := by
  have hbytes {u v : Files} {content : Bytes}
      (h : change (·.writeBytes p content) u = .ok () v) : checkPath p = .ok () := by
    obtain ⟨found, hfound, -⟩ := bind_ok_iff.mp (change_eq_ok.mp h)
    exact (locate_eq_ok.mp hfound).1
  obtain ⟨fs', u, hget, h⟩ := bind_eq_ok.mp h
  obtain ⟨⟨⟩, u', -, h⟩ := bind_eq_ok.mp h
  obtain ⟨⟨⟩, v, -, h⟩ := bind_eq_ok.mp h
  unfold writeEncoded at h
  cases hcontent : Utf8.encode text with
  | ok content =>
    rw [hcontent] at h
    exact hbytes h
  | error e =>
    rw [hcontent] at h
    obtain ⟨⟨⟩, v', hwrite, -⟩ := bind_eq_ok.mp h
    exact hbytes hwrite

/-! ### Runs of one plugin -/

namespace Pipeline

variable {w w' : World} {r : Setup} {s s' : PluginSession} {phase : Phase Value}
  {sessions : List PluginSession}

/-- A phase after which its session has not failed has ended. -/
theorem run_of_runPhase {name : Text} {v : Value} (h : runPhase s name phase w = .ok (s', v) w')
    (hf : s'.failure = none) : phase.run ⟨w, s⟩ = .ok v ⟨w', s'⟩ := by
  obtain hp | ⟨e, t, -, -, -, rfl, -⟩ := runPhase_eq_ok h
  · exact hp
  · cases hf

/-- A session that has built without a failure had none before, and what its phase gave is kept. -/
theorem built_of_unfailed (hp : s.plugin.buildPhase = some phase)
    (h : buildUnlessFailed s w = .ok s' w') (hf : s'.failure = none) :
    s.failure = none ∧ ∃ u v t b derived, phase.run ⟨u, s⟩ = .ok v t ∧
      builtValue t.session v = .ok b ∧ b.keepBuilt = .ok derived ∧
        s' = { t.session with derived } := by
  obtain ⟨hs, rfl⟩ | ⟨u, t, v, u', hs, -, hbuilder, hkeep⟩ := buildUnlessFailed_eq_ok h
  · rw [hf] at hs
    cases hs
  · obtain ⟨hnone, -⟩ | ⟨phase', hphase, hrun⟩ := runBuilder_eq_ok hbuilder
    · rw [hp] at hnone
      cases hnone
    · cases hp.symm.trans hphase
      obtain ⟨ht, rfl⟩ | ⟨ht, b, hb, ⟨derived, hkept, rfl⟩ | ⟨cause, -, rfl⟩⟩ :=
        keepBuilt_eq_ok hkeep
      · rw [hf] at ht
        cases ht
      · exact ⟨hs, u, v, _, b, derived, run_of_runPhase hrun ht, hb, hkept, rfl⟩
      · cases hf

/-- The session of a plugin that collects and builds, alone in a run, if it has not failed. -/
theorem phases_of_sessions {plugin : Plugin} {collect build : Phase Value}
    (hr : r.plugins = [plugin]) (hcollector : plugin.collector = some collect)
    (hbuild : plugin.buildPhase = some build) (hstager : plugin.stager = none)
    (h : r.sessions w = .ok sessions w') (hf : ∀ s ∈ sessions, s.failure = none) :
    ∃ table cache u opened u1 v t u2 v2 t2 b derived, r.routes w = .ok (table, cache) u ∧
      PluginSession.start u.files r.project table cache plugin = .ok opened ∧
      u1.sources = u.sources ∧ collect.run ⟨u1, opened⟩ = .ok v t ∧
      build.run ⟨u2, t.session⟩ = .ok v2 t2 ∧ builtValue t2.session v2 = .ok b ∧
      b.keepBuilt = .ok derived ∧ sessions = [{ t2.session with derived }] := by
  obtain ⟨⟨table, cache⟩, u, hroutes, h⟩ := bind_eq_ok.mp h
  obtain ⟨collected, v, hcollect, h⟩ := bind_eq_ok.mp h
  obtain ⟨built, v', hbuilds, hstages⟩ := bind_eq_ok.mp h
  rw [hr] at hcollect
  obtain ⟨s, x, hopen, hcollect⟩ := bind_eq_ok.mp hcollect
  obtain ⟨cache', x', -, hcollect⟩ := bind_eq_ok.mp hcollect
  obtain ⟨rest, x'', hnil, hcollect⟩ := bind_eq_ok.mp hcollect
  cases hnil
  cases hcollect
  cases Moves.forall₂_of_mapM moves_buildUnlessFailed hbuilds with
  | @cons _ s1 _ _ hs1 hnil =>
    cases hnil
    cases Moves.forall₂_of_mapM moves_stageUnlessFailed hstages with
    | @cons _ s2 _ _ hs2 hnil =>
      cases hnil
      obtain ⟨x1, y1, -, hs1⟩ := hs1
      obtain ⟨x2, y2, -, hs2⟩ := hs2
      have hopened := opened_for_of_openAndCollect hopen
      have hname : s1.plugin = plugin := (aged_of_build hs1).plugin.trans hopened.1
      obtain ⟨-, rfl⟩ | ⟨phase, -, -, -, hphase, -, -⟩ := stageUnlessFailed_eq_ok hs2
      · have hbuildPhase : s.plugin.buildPhase = some build := by rw [hopened.1, hbuild]
        obtain ⟨hs, u2, v2, t2, b, derived, hrun2, hb, hkept, rfl⟩ :=
          built_of_unfailed hbuildPhase hs1 (hf _ (by simp))
        obtain ⟨opened, hstart, ⟨hnone, -⟩ | ⟨phase, v, u1, hphase, hsay, hrun⟩⟩ :=
          openAndCollect_eq_ok hopen
        · rw [hcollector] at hnone
          cases hnone
        · cases hcollector.symm.trans hphase
          exact ⟨table, cache, u, opened, u1, v, _, u2, v2, t2, b, derived, hroutes, hstart,
            (Run.moves_say _).of_ok hsay, run_of_runPhase hrun hs, hrun2, hb, hkept, rfl⟩
      · rw [hname, hstager] at hphase
        cases hphase

/-- The routes of a run are resolved over its files. -/
theorem resolved_of_routes (h : r.routes w = .ok (table, cache) w') :
    ∃ snapshot s, resolveRoutes r.project r.convention w.sources .fresh =
      .ok (table, cache, snapshot) s := by
  obtain ⟨t, u, ht, hprepare⟩ := routes_eq_ok h
  rw [← ht]
  exact prepare_eq_ok hprepare

theorem mem_of_foldlM_eq_ok {ε σ α β : Type} {f : β → α → EStateM ε σ β} {l : List α} {b b' : β}
    {s t : σ} (h : l.foldlM f b s = .ok b' t) {a : α} (ha : a ∈ l) :
    ∃ c u c' u', f c a u = .ok c' u' := by
  induction l generalizing b s with
  | nil => cases ha
  | cons first l ih =>
    rw [List.foldlM_cons] at h
    obtain ⟨c, u, hfirst, h⟩ := bind_eq_ok.mp h
    obtain rfl | ha := List.mem_cons.mp ha
    · exact ⟨b, s, c, u, hfirst⟩
    · exact ih h ha

/-- A run writes to the directory of a plugin, and so the name of the plugin can name a file. -/
theorem settled_name_of_run {result : RunResult} {w1 : World} (hrun : r.run w = .ok result w')
    (hsessions : r.sessions w = .ok sessions w1) (hs : s ∈ sessions)
    (hname : Plugin.isName s.plugin.name = true) : s.plugin.name.Settled := by
  obtain ⟨sessions', w2, settled, failed, w3, w4, hsessions', hsettle, -, -⟩ := run_eq_ok hrun
  cases hsessions.symm.trans hsessions'
  obtain ⟨merged, u, -, hsettle⟩ := bind_eq_ok.mp hsettle
  obtain ⟨result', u', hfold, -⟩ := bind_eq_ok.mp hsettle
  obtain ⟨c, v, c', v', hone⟩ := mem_of_foldlM_eq_ok hfold hs
  obtain ⟨rows, hrows, hput⟩ := settle_eq_ok hone
  obtain ⟨_, _, _, _, -, -, -, -, rfl⟩ := PluginSession.artifacts_eq_ok hrows
  obtain ⟨x, y, hput⟩ := mem_of_forM_eq_ok hput List.mem_cons_self
  obtain ⟨j, z, -, hwrite⟩ := bind_eq_ok.mp (Run.changeFiles_eq_ok hput)
  have htext := Text.settled_of_nameable
    (Files.checkPath_eq_ok (Files.checkPath_of_writeText hwrite)).1
  rw [r.project.pluginDir_child hname] at htext
  exact Path.settled_names htext _ (by simp)

section

variable {s : PluginSession} (hf : s.failure = none) {done : List Filing}
  (hfollows : Ledger.Follows done s.store)

include hf hfollows

/-- The errors of one session that has not failed are its records. -/
theorem errors_of_reports {result : RunResult} (h : Reports result [s]) :
    result.errors = [(s.plugin.name, .ofJson (.arr (Ledger.kept .error done)))] := by
  obtain ⟨⟨name, errors⟩, rest, ⟨hname, herrors⟩, hnil, hresult⟩ :=
    List.forall₂_cons_left_iff.mp h.errors
  cases hnil
  rw [persistedErrors_of_none hf] at herrors
  cases (hfollows.records_eq .error).symm.trans herrors
  rw [hresult, ← hname]
  rfl

/-- A session that has not failed blocks exactly if it has a record of an error. -/
theorem blocks_iff_kept : Blocks s ↔ Ledger.kept .error done ≠ [] := by
  have hrecords : s.records .error = .ok (.ofJson (.arr (Ledger.kept .error done))) :=
    hfollows.records_eq .error
  have hitems : Value.ofJsonItems (Ledger.kept .error done) ≠ [] ↔
      Ledger.kept .error done ≠ [] := by
    simp [Value.ofJsonItems_eq_map]
  constructor
  · rintro (hfailed | ⟨v, items, hv, hitem, hne⟩)
    · rw [hf] at hfailed
      cases hfailed
    · cases hrecords.symm.trans hv
      cases hitem
      exact hitems.mp hne
  · intro hne
    exact .inr ⟨_, _, hrecords, rfl, hitems.mpr hne⟩

end

end Pipeline

namespace CallCollector

/-! ### Sites and offences -/

variable {target : Text} {exportName : Value} {site : Site} {fs : Files} {allowed : List Text}

theorem mem_preorder_of_calls {facts : Facts} {call : Node}
    (h : call ∈ facts.calls target exportName) : call ∈ facts.parsed.root.preorder := by
  unfold Facts.calls at h
  split at h
  · exact (List.mem_filter.mp h).1
  · cases h

theorem mem_offences :
    o ∈ site.offences fs allowed ↔ ∃ arg ∈ argumentsOf site.call, arg.kind ∉ allowed ∧
      offenceOf fs site.parsed site.call arg = o := by
  simp [Site.offences, offencesIn, and_assoc]

/-- There are no offences exactly if all arguments are allowed. -/
theorem offences_eq_nil_iff {found : List Site} :
    found.flatMap (Site.offences fs allowed) = [] ↔
      ∀ site ∈ found, ∀ arg ∈ argumentsOf site.call, arg.kind ∈ allowed := by
  rw [List.flatMap_eq_nil_iff]
  refine forall₂_congr fun site _ => ?_
  simp [Site.offences, offencesIn, List.filter_eq_nil_iff]

/-- Where an offence is, and of which kind: the file, where the call begins and ends, and the kind
of the argument. -/
def Offence.place (o : Offence) : Text × Point × Point × Text := (o.file, o.start, o.stop, o.kind)

section

variable {src : Sources} {g : ImportGraph} {routes : List Route} {facts : Text → Facts}
  (hfacts : ∀ route ∈ routes, ∀ file ∈ route.files, (facts file).Hold src g file)
  {target : Text} {exportName : Value} {allowed : List Text}

include hfacts

/-- The tree of a site is that of a file of a route, at its resolved path. -/
theorem parsed_of_mem_sites {site : Site} (h : site ∈ sites facts target exportName routes) :
    ∃ file ∈ routes.flatMap (·.files), ∃ p, src.files.resolve (Path.parse file) = .ok p ∧
      src.parseFile p = .ok site.parsed ∧ site.parsed.path = p.text ∧
      site.call ∈ site.parsed.root.preorder := by
  simp only [sites, sitesIn, List.mem_flatMap, List.mem_map] at h
  obtain ⟨route, hroute, file, hfile, call, hcall, rfl⟩ := h
  obtain ⟨p, hp, hparsed⟩ := bind_ok_iff.mp (hfacts route hroute file hfile).parsed
  obtain ⟨source, hsource⟩ := Sources.parseFile_eq_ok hparsed
  refine ⟨file, List.mem_flatMap.mpr ⟨route, hroute, hfile⟩, p, hp, hparsed, ?_,
    mem_preorder_of_calls hcall⟩
  change (facts file).parsed.path = _
  rw [hsource]
  rfl

/-- The texts of an offence are kept as they are. -/
theorem plain_of_mem_sites (hkinds : src.parser.NamesKinds) {site : Site}
    (h : site ∈ sites facts target exportName routes) (ho : o ∈ site.offences src.files allowed) :
    o.Plain := by
  obtain ⟨file, -, p, hp, hparsed, hpath, hcall⟩ := parsed_of_mem_sites hfacts h
  obtain ⟨arg, harg, -, rfl⟩ := mem_offences.mp ho
  refine ⟨?_, (site.parsed.settled_text site.call).joined,
    isRuleName_of_argument hkinds hparsed hcall harg⟩
  change (reportedAs src.files site.parsed).joined = reportedAs src.files site.parsed
  unfold reportedAs
  split
  · next hq => exact Files.joined_of_resolve hq
  · rw [hpath]
    exact Files.joined_of_resolve hp

/-- Offences in files that are reported under their own paths are told apart by their places. -/
theorem eq_of_place_eq (hn : src.files.StartsProper) {site site' : Site}
    (h : site ∈ sites facts target exportName routes)
    (h' : site' ∈ sites facts target exportName routes)
    (hown : reportedAs src.files site.parsed = site.parsed.path)
    (hown' : reportedAs src.files site'.parsed = site'.parsed.path) {o' : Offence}
    (ho : o ∈ site.offences src.files allowed) (ho' : o' ∈ site'.offences src.files allowed)
    (hplace : o.place = o'.place) : o = o' := by
  obtain ⟨file, -, p, hp, hparsed, hpath, -⟩ := parsed_of_mem_sites hfacts h
  obtain ⟨file', -, p', hp', hparsed', hpath', -⟩ := parsed_of_mem_sites hfacts h'
  obtain ⟨arg, -, -, rfl⟩ := mem_offences.mp ho
  obtain ⟨arg', -, -, rfl⟩ := mem_offences.mp ho'
  simp only [Offence.place, offenceOf, Prod.mk.injEq] at hplace
  obtain ⟨hfile, hstart, hstop, hkind⟩ := hplace
  rw [hown, hown', hpath, hpath'] at hfile
  have hsame : p = p' := by
    rw [← Files.parse_text_of_resolve hn hp, hfile, Files.parse_text_of_resolve hn hp']
  rw [hsame] at hparsed
  have htree : site.parsed = site'.parsed := Except.ok.inj (hparsed.symm.trans hparsed')
  rw [htree] at hstart hstop ⊢
  have hbytes := site'.parsed.bytes_eq_of_points hstart hstop
  simp only [offenceOf, ParsedFile.text, hstart, hstop, hbytes, hkind]

/-- Offences in files that are reported under their own paths have one record for each place, if
the function has a name that is kept as it is. -/
theorem nodup_places (hn : src.files.StartsProper) {label : Text} (hlabel : label.joined = label)
    (hown : ∀ site ∈ sites facts target exportName routes,
      reportedAs src.files site.parsed = site.parsed.path) :
    ((Offence.listed label ((sites facts target exportName routes).flatMap
      (Site.offences src.files allowed))).map Offence.place).Nodup := by
  refine List.Nodup.map_on (fun o ho o' ho' hplace => ?_) ?_
  · obtain ⟨site, hsite, ho⟩ := List.mem_flatMap.mp (Offence.mem_listed.mp ho)
    obtain ⟨site', hsite', ho'⟩ := List.mem_flatMap.mp (Offence.mem_listed.mp ho')
    exact eq_of_place_eq hfacts hn hsite hsite' (hown site hsite) (hown site' hsite') ho ho' hplace
  · rw [Offence.listed, if_pos hlabel]
    exact List.nodup_dedup _

end

/-! ### The session of a collector -/

theorem withConfig_eq_ok {name : Text} {config : Value} {plugin : Plugin}
    (h : withConfig name config = .ok plugin) :
    Plugin.isName name = true ∧
      plugin = ⟨name, config, some collector, none, some reducer, none⟩ := by
  unfold withConfig Plugin.check at h
  cases hname : Plugin.isName name with
  | false => simp [hname] at h
  | true =>
    simp only [hname, Bool.not_true, Bool.false_eq_true, if_false, Option.isSome_none,
      Bool.false_and] at h
    cases h
    exact ⟨rfl, rfl⟩

/-- The phase that builds gives the collection. -/
theorem reducer_run {s : PhaseState} {items : List Json}
    (h : s.session.store.slotAt? collectionPath = some (.arr items)) :
    reducer.run s = .ok (.ofJson (.arr items)) s := by
  rw [reducer, Phase.run_call]
  change PhaseM.table collectionPath s = _
  unfold PhaseM.table PhaseM.onStore
  rw [StoreM.read_apply, Store.get_of_slotAt (by decide) (by decide) h]
  rfl

/-- What is built from entries is the entries. -/
theorem derived_of_entries {s : PluginSession} {found : List Site} {b : Value} {derived : Json}
    (hb : Pipeline.builtValue s (.ofJson (.arr (found.map Site.entry))) = .ok b)
    (hkeep : b.keepBuilt = .ok derived) : derived = .arr (found.map Site.entry) := by
  cases hb
  obtain ⟨j, hj, -, rfl⟩ := Value.keepWithin_eq_ok.mp hkeep
  rw [← Value.ofJson_injective hj]
  exact Json.whole_arr.mpr (List.forall_mem_map.mpr fun site _ =>
    Value.whole_of_keep (keep_callRecord site.parsed site.routeName site.call))

/-- Every file of a route was parsed. -/
theorem parsed_of_resolveRoutes {src : Sources} (hn : src.files.StartsProper) {project : Project}
    {convention : Routes.Convention} {snapshot : Snapshot} {s : Store}
    (h : Pipeline.resolveRoutes project convention src .fresh = .ok (table, cache, snapshot) s) :
    ∀ route ∈ table.routes, ∀ file ∈ route.files,
      ∃ parsed, src.files.resolve (Path.parse file) >>= src.parseFile = .ok parsed := by
  intro route hroute file hfile
  obtain ⟨g, s0, t, hroot, hblank, hsound, hbuild⟩ := RouteTable.build_of_resolveRoutes h
  obtain ⟨groups, -, hbuild⟩ := lift_bind_eq_ok.mp hbuild
  obtain ⟨routes, u', hroutes, hbuild⟩ := bind_eq_ok.mp hbuild
  cases hbuild
  have hmade := Routes.build_eq_ok hn (Imports.isRoot_of_resolve hn hroot) hblank.ready
    (.refl hblank.ready) (fun f b hb => by cases hb) hroutes
  obtain ⟨group, -, hgroup⟩ := exists_of_forall₂_left hmade.flip hroute
  obtain ⟨parsed, hparsed, -⟩ := hgroup.mem_clientFiles hfile
  rw [ImportGraph.outcome_parse_of_sound hn hblank.ready hsound] at hparsed
  exact ⟨parsed, hparsed⟩

/-- A session that is opened for the routes of a run is one in which the phase can begin. -/
theorem opened_of_start {r : Pipeline.Setup} {w u v : World} {plugin : Plugin}
    {opened : PluginSession} (hn : w.files.StartsProper) (hkinds : w.parser.NamesKinds)
    (hroutes : r.routes w = .ok (table, cache) u)
    (hstart : PluginSession.start u.files r.project table cache plugin = .ok opened)
    (hv : v.sources = u.sources) : Opened plugin.name ⟨v, opened⟩ := by
  have hu : u.sources = w.sources := (Pipeline.moves_routes r).of_ok hroutes
  have hsources : v.sources = w.sources := hv.trans hu
  have hfiles : v.files = w.files := congrArg Sources.files hsources
  obtain ⟨root, config, hroot, -, rfl⟩ := PluginSession.start_eq_ok hstart
  have hstarted : u.files = w.files := congrArg Sources.files hu
  rw [hstarted] at hroot
  obtain ⟨snapshot, s, hresolved⟩ := Pipeline.resolved_of_routes hroutes
  have hisRoot := Imports.isRoot_of_resolve hn hroot
  refine ⟨?_, ?_, hisRoot, rfl, cache, rfl, ?_⟩
  · change v.files.StartsProper
    rwa [hfiles]
  · have hparser : v.parser = w.parser := congrArg Sources.parser hsources
    change v.parser.NamesKinds
    rwa [hparser]
  · change v.sources.Sound cache
    rw [hsources]
    exact Pipeline.sound_of_resolveRoutes hn hresolved

/-- In a project whose links are in sight, files are reported under their own paths. -/
theorem reportedAs_of_placed {r : Pipeline.Setup} {w u : World}
    (hplaced : Pipeline.Placed w.files r.project) (hconvention : r.convention = Routes.appRouter)
    (hroutes : r.routes w = .ok (table, cache) u) {g : ImportGraph} {facts : Text → Facts}
    (hfacts : ∀ route ∈ table.routes, ∀ file ∈ route.files,
      (facts file).Hold w.sources g file) {site : Site}
    (h : site ∈ sites facts target exportName table.routes) :
    reportedAs w.files site.parsed = site.parsed.path := by
  obtain ⟨file, hfile, p, hp, -, hpath, -⟩ := parsed_of_mem_sites hfacts h
  obtain ⟨t, v, ht, hprepare⟩ := Pipeline.routes_eq_ok hroutes
  have hfiles : t.files = w.files := congrArg Sources.files ht
  rw [hconvention] at hprepare
  rw [← hfiles] at hplaced
  obtain ⟨q, hq, -, hself, -⟩ :=
    Pipeline.resolve_of_analysed hplaced hprepare (mem_sortDistinct.mpr hfile)
  rw [hfiles] at hplaced hq hself
  cases hp.symm.trans hq
  rw [reportedAs, hpath, Files.parse_text_of_resolve hplaced.names hp, hself]

/-- The result of a run of a collector accounts for the sites of the calls that are asked for. The
data is one entry for each site. The records of errors are those of the offences at the sites, the
newest first: each offence has one record, if the name of the function is kept as it is, and one for
each time that it is met otherwise. In files that are reported under their own paths an offence is
known by its place, so in the first case there is one record for each place; all files are in a
project whose links are in sight. The run is committed exactly if all arguments are allowed. -/
def AccountsForSites (r : Pipeline.Setup) (w : World) (name : Text) (config : Value)
    (result : RunResult) : Prop :=
  ∃ table cache u root entries, ∃ q : Query, ∃ facts : Text → Facts,
    r.routes w = .ok (table, cache) u ∧ w.files.resolve r.project.root = .ok root ∧
    config.toEntries = .ok entries ∧ q.Asked w.files r.project entries ∧
    (∀ route ∈ table.routes, ∀ file ∈ route.files,
      (facts file).Hold w.sources ⟨root, r.project.aliases⟩ file) ∧
    let found := sites facts q.target q.exportName table.routes
    let offences := found.flatMap (Site.offences w.files q.allowed)
    let shown := Ledger.scrub root.text q.label
    result.data = [(name, .arr (found.map Site.entry))] ∧
    (∃ records, result.errors = [(name, .ofJson (.arr records))] ∧
      List.Forall₂ (fun o record => ∃ now, record = Offence.record name shown.joined o now)
        (Offence.listed shown offences) records) ∧
    (shown.joined = shown →
      (∀ site ∈ found, reportedAs w.files site.parsed = site.parsed.path) ∨
        r.convention = Routes.appRouter ∧ Pipeline.Placed w.files r.project →
      ((Offence.listed shown offences).map Offence.place).Nodup) ∧
    (result.committed = true ↔
      ∀ site ∈ found, ∀ arg ∈ argumentsOf site.call, arg.kind ∈ q.allowed)

section

variable {r : Pipeline.Setup} {w : World} {name : Text} {config : Value} {plugin : Plugin}
  (hn : ∀ name ∈ w.files.workingDirectory, Files.ProperName name) (hkinds : w.parser.NamesKinds)
  (hplugin : withConfig name config = .ok plugin) (hr : r.plugins = [plugin])

include hn hkinds hplugin hr

/-- The session of a collector that has not failed: what it has built is the entries of the sites,
and what was reported to it is the offences. -/
theorem session_of_run {w' : World} {sessions : List PluginSession}
    (hs : r.sessions w = .ok sessions w') (hf : ∀ s ∈ sessions, s.failure = none) :
    ∃ table cache u root entries, ∃ q : Query, ∃ facts : Text → Facts, ∃ s done,
      r.routes w = .ok (table, cache) u ∧ w.files.resolve r.project.root = .ok root ∧
      config.toEntries = .ok entries ∧ q.Asked w.files r.project entries ∧
      (∀ route ∈ table.routes, ∀ file ∈ route.files,
        (facts file).Hold w.sources ⟨root, r.project.aliases⟩ file) ∧
      let found := sites facts q.target q.exportName table.routes
      sessions = [s] ∧ s.plugin.name = name ∧ s.derived = .arr (found.map Site.entry) ∧
      Ledger.Follows done s.store ∧ (∀ f ∈ done, f.kind = .error) ∧
      done.map Filing.print = (found.flatMap (Site.offences w.files q.allowed)).map
        (Offence.print name (Ledger.scrub root.text q.label)) := by
  obtain ⟨-, rfl⟩ := withConfig_eq_ok hplugin
  obtain ⟨table, cache, u, opened, u1, v, t, u2, v2, t2, b, derived, hroutes, hstart, hu1, hrun,
    hrun2, hb, hkeep, rfl⟩ := Pipeline.phases_of_sessions hr rfl rfl rfl hs hf
  have h0 := opened_of_start hn hkinds hroutes hstart hu1
  obtain ⟨q, hq, himports, hprogress⟩ := h0.collector hrun
  have hu : u.sources = w.sources := (Pipeline.moves_routes r).of_ok hroutes
  obtain ⟨root, entries, hroot, hentries, rfl⟩ := PluginSession.start_eq_ok hstart
  have hstarted : u.files = w.files := congrArg Sources.files hu
  obtain ⟨snapshot, z, hresolved⟩ := Pipeline.resolved_of_routes hroutes
  have hsources : u1.sources = w.sources := hu1.trans hu
  have hfiles : u1.files = w.files := congrArg Sources.files hsources
  dsimp only at hq himports hprogress
  rw [hfiles] at hq
  rw [hsources] at himports
  obtain ⟨done, hfollows, hdone, hprints⟩ := hprogress.reported
  have hcollected := hprogress.collected
  dsimp only at hcollected hprints
  rw [hsources] at hcollected hprints
  rw [hfiles] at hprints
  have hreduced := reducer_run (s := ⟨u2, t.session⟩) hcollected
  cases hreduced.symm.trans hrun2
  have haged := (Pipeline.aged_of_frame hprogress.frame).plugin
  refine ⟨table, cache, u, root, entries, q, factsOf w.sources ⟨root, r.project.aliases⟩, _, done,
    hroutes, ?_, hentries, hq, ?_, rfl, ?_, derived_of_entries hb hkeep, hfollows, hdone, hprints⟩
  · rwa [hstarted] at hroot
  · intro route hroute file hfile
    obtain ⟨parsed, hparsed⟩ := parsed_of_resolveRoutes hn hresolved route hroute file hfile
    refine ⟨?_, himports route hroute file hfile⟩
    rw [factsOf_parsed hparsed, hparsed]
  · exact congrArg Plugin.name haged

/-- A run of a collector alone in which no phase fails accounts for the sites. -/
theorem run_accounts_for_sites {result : RunResult} {w' : World} (hrun : r.run w = .ok result w')
    (hfailures : result.failures = []) : AccountsForSites r w name config result := by
  obtain ⟨sessions, w1, hsessions, hreports, hcommitted⟩ := Pipeline.committed_eq_false_iff hrun
  have hunfailed : ∀ s ∈ sessions, s.failure = none := by
    have hnone := hreports.failures
    rw [hfailures, eq_comm, List.filterMap_eq_nil_iff] at hnone
    intro s hs
    exact Option.map_eq_none_iff.mp (hnone s hs)
  obtain ⟨table, cache, u, root, entries, q, facts, s, done, hroutes, hroot, hentries, hq, hfacts,
    rfl, hname, hderived, hfollows, hdone, hprints⟩ :=
    session_of_run hn hkinds hplugin hr hsessions hunfailed
  refine ⟨table, cache, u, root, entries, q, facts, hroutes, hroot, hentries, hq, hfacts, ?_⟩
  intro found offences shown
  have hf := hunfailed s (List.mem_singleton_self s)
  have hsettled : name.joined = name := by
    have hisName := (withConfig_eq_ok hplugin).1
    rw [← hname] at hisName ⊢
    exact (Pipeline.settled_name_of_run hrun hsessions (by simp) hisName).joined
  have hplain : ∀ o ∈ offences, o.Plain := by
    intro o ho
    obtain ⟨site, hm, ho⟩ := List.mem_flatMap.mp ho
    exact plain_of_mem_sites hfacts hkinds hm ho
  have hrecords := kept_reports hsettled hfollows hdone hplain hprints
  refine ⟨?_, ⟨_, ?_, hrecords⟩, fun hlabel hown => nodup_places hfacts hn hlabel ?_, ?_⟩
  · rw [hreports.data, List.map_singleton, hname, hderived]
  · rw [Pipeline.errors_of_reports hf hfollows hreports, hname]
  · exact hown.elim id fun ⟨hconvention, hplaced⟩ _ =>
      reportedAs_of_placed hplaced hconvention hroutes hfacts
  · have hkept : Ledger.kept .error done = [] ↔ offences = [] := by
      rw [← List.length_eq_zero_iff, ← hrecords.length_eq, List.length_eq_zero_iff]
      simp only [List.eq_nil_iff_forall_not_mem, Offence.mem_listed]
    rw [← offences_eq_nil_iff, ← Bool.not_eq_false, hcommitted, ← hkept]
    simp [Pipeline.blocks_iff_kept hf hfollows]

end

namespace Sample

/-- The page `import f from'./l';f('a',f(1,2))`. -/
def page : Bytes :=
  [105, 109, 112, 111, 114, 116, 32, 102, 32, 102, 114, 111, 109, 39, 46, 47, 108, 39, 59, 102, 40,
    39, 97, 39, 44, 102, 40, 49, 44, 50, 41, 41]

def leaf (kind : Text) (field : Option Text) (start stop : Nat) : Node :=
  ⟨kind, true, field, start, stop, []⟩

/-- The call of `f` that begins at an offset. -/
def callAt (start stop : Nat) (args : List Node) : Node :=
  ⟨"call_expression", true, none, start, stop,
    [leaf "identifier" (some "function") start (start + 1),
      ⟨"arguments", true, some "arguments", start + 1, stop, args⟩]⟩

def pageTree : Node :=
  let clause : Node := ⟨"import_clause", true, none, 7, 8, [leaf "identifier" none 7 8]⟩
  let specifier : Node :=
    ⟨"string", true, some "source", 13, 18, [leaf "string_fragment" none 14 17]⟩
  let text : Node := ⟨"string", true, none, 21, 24, [leaf "string_fragment" none 22 23]⟩
  let inner := callAt 25 31 [leaf "number" none 27 28, leaf "number" none 29 30]
  ⟨"program", true, none, 0, 32,
    [⟨"import_statement", true, none, 0, 18, [clause, specifier]⟩, callAt 19 32 [text, inner]]⟩

/-- A page, the file that it imports, and a link that leads to itself. -/
def world : World :=
  ⟨⟨[(["proj"], .directory), (["proj", "p.tsx"], .file page), (["proj", "l.ts"], .file []),
      (["proj", "loop"], .link "loop")], ["proj"]⟩,
    fun _ source => if source = page then pageTree else leaf "program" none 0 0,
    .still 0, "", [], []⟩

/-- A route of the page. -/
def routeOf (name : Text) : Value :=
  .map [(.str "name", .str name), (.str "entries", .list [.str "/proj/p.tsx"])]

def configOf (path : Text) : Value := .map [(.str "path", .str path)]

/-- Two routes that share the page, with a collector for the default export of a path. -/
def setup (path : Text) : Pipeline.Setup :=
  ⟨⟨⟨.root, ["proj"]⟩, none, none, []⟩,
    [⟨"calls", configOf path, some collector, none, some reducer, none⟩],
    fun _ _ => .ok [routeOf "/", routeOf "/b"], false⟩

/-- The records of errors without their times, as they are written. -/
def prints (result : RunResult) : List Text :=
  result.errors.flatMap fun row =>
    match row.2.toJson? with
    | some (.arr records) => records.map fun record =>
      match record with
      | .obj fields => (Json.obj (Ledger.fingerprint fields)).write
      | j => j.write
    | _ => []

theorem namesKinds_world : world.parser.NamesKinds := by
  have hpage : ∀ n ∈ pageTree.preorder, n.kind.IsRuleName := by decide
  have hleaf : ∀ n ∈ (leaf "program" none 0 0).preorder, n.kind.IsRuleName := by decide
  intro grammar source n hn _
  change n ∈ (if source = page then pageTree else leaf "program" none 0 0).preorder at hn
  split at hn
  · exact hpage n hn
  · exact hleaf n hn

end Sample

open Sample

/-- The page of two routes has two calls, one in the other. There are four entries. Three arguments
are refused, two of them of one kind in one call, and there are two records. -/
theorem run_accounts_for_sites_shared_page :
    ∃ result w', (setup "l.ts").run world = .ok result w' ∧ result.failures = [] ∧
      result.committed = false ∧ (prints result).length = 2 ∧ (prints result).Nodup ∧
      AccountsForSites (setup "l.ts") world "calls" (configOf "l.ts") result := by
  have hview : observe (fun result _ => (result.failures, result.committed,
      (prints result).length, decide (prints result).Nodup)) ((setup "l.ts").run world) =
      some ([], false, 2, true) := by decide +kernel
  obtain ⟨result, w', hrun, hresult⟩ := ok_of_observe hview
  simp only [Prod.mk.injEq, decide_eq_true_eq] at hresult
  obtain ⟨hfailures, hcommitted, hlength, hnodup⟩ := hresult
  exact ⟨result, w', hrun, hfailures, hcommitted, hlength, hnodup,
    run_accounts_for_sites (by decide) namesKinds_world rfl rfl hrun hfailures⟩

/-- If the project root stands between the halves of a pair, in a path through a circle of links, a
record is kept each time an argument is refused. -/
theorem parted_path_reported_again :
    ∃ result w', (setup ("loop/" ++ ⟨[.ofCode 0xd83d]⟩ ++ "/proj/" ++ ⟨[.ofCode 0xde00]⟩ ++
        "/../../../../l.ts")).run world = .ok result w' ∧ result.failures = [] ∧
      (prints result).length = 6 ∧ ¬ (prints result).Nodup := by
  have hview : observe (fun result _ => (result.failures, (prints result).length,
      decide (prints result).Nodup)) ((setup ("loop/" ++ ⟨[.ofCode 0xd83d]⟩ ++ "/proj/" ++
        ⟨[.ofCode 0xde00]⟩ ++ "/../../../../l.ts")).run world) = some ([], 6, false) := by
    decide +kernel
  obtain ⟨result, w', hrun, hresult⟩ := ok_of_observe hview
  simp only [Prod.mk.injEq, decide_eq_false_iff_not] at hresult
  exact ⟨result, w', hrun, hresult⟩

end CallCollector

end RoutePlugins
