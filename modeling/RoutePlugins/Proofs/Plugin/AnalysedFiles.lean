import RoutePlugins.Proofs.Plugin.SessionTables
import RoutePlugins.Proofs.Routes.Entries
import RoutePlugins.Proofs.Routes.Partition

/-!
# Analysed files

The files of a route table are those that plugins read and rewrite. A route starts from files that
are spelled below the app directory, and goes on to imported files that are spelled below the root.
A text is staged for a file if its resolved path is below the root. So every analysed file may be
rewritten, unless a link leads out of the project: the analysis follows it, and staging refuses what
it leads to.
-/

namespace RoutePlugins

open Files

variable {p : Path} {f : Text}

/-- Loading a project resolves its root, which is a directory, and looks for an app directory in
it. -/
theorem Project.load_eq_ok {fs : Files} {start : Path} {project : Project}
    (h : load fs start = .ok project) :
    fs.resolve start = .ok project.root ∧ fs.isDirectory project.root = .ok true ∧
      ∀ dir, project.appDir = some dir → Along project.root dir := by
  obtain ⟨root, hroot, h⟩ := bind_ok_iff.mp h
  obtain ⟨isDir, hisDir, h⟩ := bind_ok_iff.mp h
  cases isDir with
  | false => cases h
  | true =>
    obtain ⟨⟨aliases, excludes⟩, -, h⟩ := bind_ok_iff.mp h
    obtain ⟨appDir, happ, h⟩ := bind_ok_iff.mp h
    obtain ⟨patterns, -, h⟩ := bind_ok_iff.mp h
    cases h
    refine ⟨hroot, hisDir, fun dir hdir => ?_⟩
    obtain rfl : appDir = some dir := hdir
    obtain ⟨hm, -⟩ := mem_of_findM? happ
    have happName : EntryName "app" := by decide
    have hsrcName : EntryName "src" := by decide
    obtain rfl | rfl : dir = _ ∨ dir = _ := by simpa using hm
    · exact ((Along.refl root).child hsrcName).child happName
    · exact (Along.refl root).child happName

theorem Files.Along.trans {root dir : Path} (h : Along root dir) (h' : Along dir p) :
    Along root p := by
  obtain ⟨names, hnames, rfl⟩ := h
  obtain ⟨rest, hrest, rfl⟩ := h'
  refine ⟨names ++ rest, fun n hm => ?_, by rw [List.append_assoc]⟩
  exact (List.mem_append.mp hm).elim (hnames n) (hrest n)

/-! ### Where analysed files come from -/

namespace ImportGraph

/-- A file that is entered is a file, and is spelled below the root. -/
theorem isEntered_eq_true {g : ImportGraph} {fs : Files} (h : g.isEntered fs p = .ok true) :
    fs.isFile p = .ok true ∧ p.Below g.root := by
  unfold isEntered at h
  split at h
  · cases h
  · obtain ⟨b, hb, h⟩ := bind_ok_iff.mp h
    cases b with
    | false => cases h
    | true =>
      refine ⟨hb, ?_⟩
      rw [Path.Below]
      cases hrest : p.relativeTo? g.root with
      | some rest => rfl
      | none =>
        rw [hrest] at h
        cases h

end ImportGraph

namespace RouteTable

open ImportGraph Routes

/-- The routes of a project are resolved in a store that is new to the graph. -/
theorem build_of_resolveRoutes {project : Project} {convention : Convention} {src : Sources}
    {table : RouteTable} {cache : ParseCache} {snapshot : Snapshot} {s : Store}
    (h : Pipeline.resolveRoutes project convention src .fresh = .ok (table, cache, snapshot) s) :
    ∃ g s0 t, src.files.resolve project.root = .ok g.root ∧ Blank s0 ∧ s0.Sound src ∧
      build project convention src g s0 = .ok table t := by
  obtain ⟨⟨⟩, s1, h1, h⟩ := bind_eq_ok.mp h
  obtain ⟨g, s2, h2, h⟩ := bind_eq_ok.mp h
  obtain ⟨table', s3, h3, h⟩ := bind_eq_ok.mp h
  obtain ⟨⟨⟩, s4, -, h⟩ := bind_eq_ok.mp h
  obtain ⟨cache', s5, -, h⟩ := bind_eq_ok.mp h
  obtain ⟨⟨snapshot', s'⟩, s6, -, h⟩ := bind_eq_ok.mp h
  cases h
  rw [StoreM.change_apply] at h1
  cases h1
  have hsound : s2.Sound src := (sound_attach _ _ _).of_ok h2 (Store.sound_active.mpr .nil)
  have hw : (Store.active Pipeline.prepareName ⟨some [], []⟩).WellFormed :=
    Arena.wellFormed_empty _
  obtain ⟨hblank, hroot, -, -⟩ := blank_of_attach hw rfl (by decide) (by decide) h2
  exact ⟨g, s2, s3, hroot, hblank, hsound, h3⟩

/-- A file that is parsed resolves to a file. -/
theorem isFile_of_parse {src : Sources} (hn : src.files.StartsProper) {s : Store} (hs : Blank s)
    (hsound : s.Sound src) {parsed : ParsedFile} (h : outcome (Store.parse src f s) = .ok parsed) :
    ∃ q, src.files.resolve (Path.parse f) = .ok q ∧ src.files.isFile q = .ok true := by
  obtain ⟨name, cache, slots, rfl⟩ := hs.ready.exists_active
  obtain ⟨e, -, he⟩ | ⟨_, after, hparse, -, -⟩ :=
    Store.parse_of_sound hn (Store.sound_active.mp hsound) f
  · rw [he] at h
    cases h
  · obtain ⟨q, hq, hparse⟩ := bind_ok_iff.mp hparse
    obtain ⟨b, hb, hparse⟩ := bind_ok_iff.mp hparse
    cases b with
    | true => exact ⟨q, hq, hb⟩
    | false => cases hparse

section

variable {project : Project} {src : Sources} {table : RouteTable} {g : ImportGraph} {s t : Store}
  (ht : src.files.Tidy) (hroot : src.files.resolve project.root = .ok g.root) (hs : Blank s)
  (h : build project appRouter src g s = .ok table t)

include ht hroot hs h

/-- A file of the table was parsed. It is what an entry of a route resolves to, or an import that is
entered. -/
theorem origin_of_build (hf : f ∈ table.sourceFiles) :
    (∃ parsed, outcome (Store.parse src f s) = .ok parsed) ∧
    ((∃ dir p q q', project.appDir = some dir ∧ EntryFile src.files dir p ∧
      src.files.resolve (Path.parse p.text) = .ok q ∧
      src.files.resolve (Path.parse q.text) = .ok q' ∧ f = q'.text) ∨
    g.isEntered src.files (Path.parse f) = .ok true ∧ (Path.parse f).Flat) := by
  have hn := ht.names
  have hisRoot := Imports.isRoot_of_resolve hn hroot
  obtain ⟨groups, hgroups, h1⟩ := lift_bind_eq_ok.mp h
  obtain ⟨routes, u', hroutes, h2⟩ := bind_eq_ok.mp h1
  cases h2
  obtain ⟨gs, hgs, hgroups⟩ := bind_ok_iff.mp hgroups
  cases hgroups
  obtain ⟨dir, hdir, hentries⟩ := entryFile_of_groups ht hgs
  have hmade := Routes.build_eq_ok hn hisRoot hs.ready (.refl hs.ready) (fun f b hb => by cases hb)
    hroutes
  obtain ⟨route, hm, hf⟩ := List.mem_flatMap.mp (mem_sortDistinct.mp hf)
  obtain ⟨_, hgroup, hof⟩ := exists_of_forall₂_left hmade.flip hm
  obtain ⟨group, hg, rfl⟩ := List.mem_map.mp hgroup
  obtain ⟨parsed, hparsed, -⟩ := hof.mem_clientFiles hf
  refine ⟨⟨parsed, hparsed⟩, ?_⟩
  obtain ⟨closures, hclosures, hfiles⟩ := hof.files
  rw [hfiles, List.mem_eraseDups, List.mem_flatten] at hf
  obtain ⟨closure, hclosure, hf⟩ := hf
  obtain ⟨entry, hentry, hclosure⟩ := exists_of_forall₂_left hclosures.flip hclosure
  obtain ⟨p, hp, q, hq, rfl⟩ := mem_resolveEntries hof.entries entry hentry
  cases hq' : src.files.resolve (Path.parse q.text) with
  | error e =>
    have hgiven := hclosure.given
    rw [reached_of_error hq'] at hgiven
    cases hgiven
  | ok q' =>
    have hnone : outcome (remembered reachedPath q'.text s) = .ok .null := by
      rw [remembered_apply hs.wellFormed hs.reached (isKey_of_resolve hn hq')]
      rfl
    cases ((hclosure.found q' hq' hnone).mem_iff f).mp hf with
    | refl => exact .inl ⟨dir, p, q, q', hdir, hentries group hg p hp, hq, hq', rfl⟩
    | tail _ hfollows =>
      obtain ⟨children, hc, hm⟩ := hfollows
      obtain ⟨found, hfound, hc⟩ := bind_ok_iff.mp hc
      cases hc
      obtain ⟨hm, he⟩ := List.mem_filter.mp hm
      obtain ⟨i, hi, rfl⟩ := List.mem_map.mp hm
      exact .inr ⟨enters_iff.mp he, hs.flat hn hisRoot hfound i hi⟩

end

end RouteTable

/-! ### What analysed files resolve to -/

namespace Pipeline

open Routes RouteTable PluginSession

/-- A project at its resolved root, whose links are all in sight. -/
structure Placed (fs : Files) (project : Project) : Prop extends fs.Tidy where
  loads : Project.load fs project.root = .ok project
  sight : ∀ p : Path, p.isAbsolute = true → fs.InSight p

namespace Placed

variable {fs : Files} {project : Project} (h : Placed fs project)

include h

theorem resolve_root : fs.resolve project.root = .ok project.root :=
  (Project.load_eq_ok h.loads).1

theorem proper_root : ∀ n ∈ project.root.names, ProperName n :=
  (proper_of_resolve h.names h.resolve_root).2

/-- The root runs through no link. -/
theorem traces_root : ∃ links, Traces fs ⟨.root, []⟩ project.root.names project.root links ∧
    Rooted project.root ∧ Direct fs project.root := by
  obtain ⟨hroot, hdir, -⟩ := Project.load_eq_ok h.loads
  obtain ⟨e, he⟩ := stat_of_foundWith hdir
  have habs := (proper_of_resolve h.names hroot).1
  exact traces_of_resolve h.toWellFormed (isPlain_of_resolve h.names hroot) habs
    (h.sight _ habs) he hroot

/-- A file that is spelled below the root resolves to a path that resolves to itself. If no link
leads out of the root, that path is below the root too. -/
theorem resolve_of_below {q : Path} (hp : p.IsPlain) (hb : p.Below project.root)
    (hfile : fs.isFile p = .ok true) (hq : fs.resolve p = .ok q) :
    fs.resolve q = .ok q ∧ (p.Flat → fs.KeepsLinks project.root → q.Below project.root) := by
  obtain ⟨_, hroot, hrooted, -⟩ := h.traces_root
  obtain ⟨e, he⟩ := stat_of_foundWith hfile
  have habs : p.isAbsolute = true := by
    rw [Path.isAbsolute, (Path.below_iff.mp hb).1, hrooted.root]
    rfl
  obtain ⟨_, htrace, hq', hdirect⟩ :=
    traces_of_resolve h.toWellFormed hp habs (h.sight p habs) he hq
  refine ⟨resolve_of_direct h.toWellFormed hq' hdirect hq, fun hflat hkeeps => ?_⟩
  exact below_of_keepsLinks hkeeps hrooted hroot htrace hb (hflat habs)

end Placed

/-- A file of the table of a project resolves to a file. It is spelled below the root, or it is the
resolved path of an entry that is spelled below the app directory. -/
theorem resolve_of_analysed {project : Project} {w u : World} {table : RouteTable}
    {cache : ParseCache} (h : Placed w.files project)
    (hroutes : prepare project appRouter w = .ok (table, cache) u) (hf : f ∈ table.sourceFiles) :
    ∃ q, w.files.resolve (Path.parse f) = .ok q ∧ w.files.isFile q = .ok true ∧
      w.files.resolve q = .ok q ∧ (w.files.KeepsLinks project.root → q.Below project.root) ∧
      ((Path.parse f).Below project.root ∨ ∃ dir p, project.appDir = some dir ∧
        p.Below dir ∧ w.files.resolve p = .ok q ∧ f = q.text) := by
  have hn := h.names
  obtain ⟨snapshot, s, hresolve⟩ := prepare_eq_ok hroutes
  obtain ⟨g, s0, t, hroot, hblank, hsound, hbuild⟩ := build_of_resolveRoutes hresolve
  have hg : g.root = project.root := Except.ok.inj (hroot.symm.trans h.resolve_root)
  obtain ⟨⟨parsed, hparsed⟩, horigin⟩ := origin_of_build h.toTidy hroot hblank hbuild hf
  obtain ⟨q, hq, hfile⟩ := isFile_of_parse hn hblank hsound hparsed
  refine ⟨q, hq, hfile, ?_⟩
  obtain ⟨dir, p, q1, q2, hdir, hp, hq1, hq2, rfl⟩ | ⟨hentered, hflat⟩ := horigin
  · have halong := ((Project.load_eq_ok h.loads).2.2 dir hdir).trans hp.along
    have hproper := halong.proper h.proper_root
    have hplain : p.IsPlain := fun n hm =>
      ⟨(hproper n hm).nonempty, (hproper n hm).notDot, (hproper n hm).noSlash⟩
    rw [Path.parse_text hplain] at hq1
    obtain ⟨hself, hinside⟩ := h.resolve_of_below hplain halong.below hp.isFile hq1
    -- What is resolved again, and parsed, is the resolved path itself.
    rw [parse_text_of_resolve hn hq1] at hq2
    cases hself.symm.trans hq2
    rw [parse_text_of_resolve hn hq1] at hq
    cases hself.symm.trans hq
    refine ⟨hself, hinside fun _ n hm => (hproper n hm).notDots, .inr ?_⟩
    exact ⟨dir, p, hdir, hp.along.below, hq1, rfl⟩
  · obtain ⟨hisFile, hbelow⟩ := ImportGraph.isEntered_eq_true hentered
    rw [hg] at hbelow
    obtain ⟨hself, hinside⟩ := h.resolve_of_below (Path.isPlain_parse f) hbelow hisFile hq
    exact ⟨hself, hinside hflat, .inl hbelow⟩

/-! ### Staging texts for analysed files -/

/-- The states of a session in the phases of a plugin: it is opened over the files, answers
requests, and is handed on from one phase to the next with other data. -/
inductive AtWork (fs : Files) (project : Project) (table : RouteTable) : PhaseState → Prop
  | opened {cache : ParseCache} {plugin : Plugin} {session : PluginSession} {w : World}
      (h : PluginSession.start fs project table cache plugin = .ok session) (hw : w.files = fs) :
      AtWork fs project table ⟨w, session⟩
  | answered {s : PhaseState} (h : AtWork fs project table s) {q : Request}
      (hq : q.isOrdinary = true) : AtWork fs project table (endState (answer q s))
  | handedOn {s : PhaseState} (h : AtWork fs project table s) {w : World} (hw : w.files = fs)
      (data derived : Json) : AtWork fs project table ⟨w, { s.session with data, derived }⟩

section

variable {fs : Files} {project : Project} {table : RouteTable} {s : PhaseState}
  (h : AtWork fs project table s)

include h

/-- A session at work has the files and the project it was opened with, and its tables of staged
texts are those of requests that it has answered. -/
theorem AtWork.staged : s.world.files = fs ∧ s.session.project = project ∧
    ∃ done, Staged fs project.root done s.session.store := by
  induction h with
  | opened h hw =>
    obtain ⟨hproject, -, -, hstaged⟩ := recorded_start h fs
    exact ⟨hw, hproject, [], hstaged⟩
  | @answered s _ q hq ih =>
    obtain ⟨hfiles, hproject, done, hstaged⟩ := ih
    have hframe := moves_answer q s
    obtain ⟨hok, herror⟩ := staged_answer hfiles (congrArg Project.root hproject) hstaged hq
    refine ⟨(congrArg Sources.files hframe.sources).trans hfiles, ?_, ?_⟩
    · rw [hframe.session]
      exact hproject
    · cases ha : answer q s with
      | ok r t => exact ⟨_, hok r t ha⟩
      | error e t => exact ⟨_, herror e t ha⟩
  | handedOn _ hw data derived ih => exact ⟨hw, ih.2⟩

/-- A text is staged for a resolved path below the root, and refused for any other. -/
theorem AtWork.stage (hroot : fs.resolve project.root = .ok project.root) {q : Path}
    (hf : fs.resolve (Path.parse f) = .ok q) (hq : fs.resolve q = .ok q) (code : Text) :
    (q.Below project.root → ∃ t texts, answer (.stage (.str code) f) s = .ok () t ∧
      outcome (answer .staged t) = .ok (.ofJson (.obj texts)) ∧
      Assoc.get? q.text texts = some (.str code.joined)) ∧
    (¬ q.Below project.root →
      answer (.stage (.str code) f) s = .error (.store (.outsideRoot f)) s) := by
  obtain ⟨hfiles, hproject, done, hstaged⟩ := h.staged
  have hinside := isInside_of_resolved hq hroot
  rw [← hfiles] at hf
  rw [← hfiles, ← hproject] at hinside
  rw [← hproject, Path.Below]
  constructor
  · intro hbelow
    rw [hbelow] at hinside
    obtain ⟨t, ht, hslots⟩ :=
      answer_stage_of_inside hf hstaged.staged hstaged.history hinside code
    refine ⟨_, _, ht, outcome_table (by decide) (by decide) (hslots stagedPath), ?_⟩
    rw [StagingLog.kept_append]
    exact Assoc.get?_insert_self _ _ _
  · intro hout
    rw [Bool.not_eq_true] at hout
    rw [hout] at hinside
    exact answer_stage_of_outside hf hinside code

end

/-- In a project whose links are in sight, every file of the table resolves to a file. It is spelled
below the root, or it is the resolved path of an entry that is spelled below the app directory. A
plugin at work may stage texts for it exactly if the resolved path is below the root, and is told
that it is not otherwise. So it may stage texts for every file of the table if no link leads out of
the root. -/
theorem analysed_files_staged (project : Project) (w u : World) (table : RouteTable)
    (cache : ParseCache) (h : Placed w.files project)
    (hroutes : prepare project appRouter w = .ok (table, cache) u) :
    (∀ f ∈ table.sourceFiles, ∃ q, w.files.resolve (Path.parse f) = .ok q ∧
      w.files.isFile q = .ok true ∧
      ((Path.parse f).Below project.root ∨ ∃ dir p, project.appDir = some dir ∧
        p.Below dir ∧ w.files.resolve p = .ok q ∧ f = q.text) ∧
      ∀ s, AtWork w.files project table s → ∀ code : Text,
        (q.Below project.root → ∃ t texts, answer (.stage (.str code) f) s = .ok () t ∧
          outcome (answer .staged t) = .ok (.ofJson (.obj texts)) ∧
          Assoc.get? q.text texts = some (.str code.joined)) ∧
        (¬ q.Below project.root →
          answer (.stage (.str code) f) s = .error (.store (.outsideRoot f)) s)) ∧
    (w.files.KeepsLinks project.root → ∀ f ∈ table.sourceFiles, ∀ s,
      AtWork w.files project table s → ∀ code : Text,
        ∃ t, answer (.stage (.str code) f) s = .ok () t) := by
  constructor
  · intro f hf
    obtain ⟨q, hq, hfile, hself, -, horigin⟩ := resolve_of_analysed h hroutes hf
    exact ⟨q, hq, hfile, horigin, fun s hs code => hs.stage h.resolve_root hq hself code⟩
  · intro hkeeps f hf s hs code
    obtain ⟨q, hq, -, hself, hbelow, -⟩ := resolve_of_analysed h hroutes hf
    obtain ⟨t, _, ht, -, -⟩ := (hs.stage h.resolve_root hq hself code).1 (hbelow hkeeps)
    exact ⟨t, ht⟩

/-! ### A page that is a link -/

namespace Sample

/-- A project whose page is a link, with files inside and a file outside. -/
def linkedFiles (target : Text) : Files where
  entries := [(["p"], .directory), (["p", "app"], .directory),
    (["p", "app", "page.tsx"], .link target), (["p", "lib"], .directory),
    (["p", "lib", "page.tsx"], .file [39, 46, 47, 98, 39]), (["p", "lib", "b.ts"], .file []),
    (["o"], .directory), (["o", "page.tsx"], .file [])]
  workingDirectory := ["p"]

def linkedProject : Project := ⟨absolute ["p"], some (absolute ["p", "app"]), none, []⟩

def linkedWorld (target : Text) : World :=
  ⟨linkedFiles target, fun _ source => RouteTable.Sample.quotedTree source, .still 0, "", [], []⟩

/-- The page inside, which imports the file beside it. -/
def innerPage : Text := "/p/lib/page.tsx"

def outerPage : Text := "/o/page.tsx"

def innerFiles : List Text := ["/p/lib/b.ts", "/p/lib/page.tsx"]

theorem link_linkedFiles {l : Location} {target t : Text}
    (h : Files.entry? (linkedFiles target) l = some (.link t)) : t = target := by
  cases l with
  | nil => cases h
  | cons name rest =>
    have hget : Assoc.get? (name :: rest) (linkedFiles target).entries = some (.link t) := by
      simpa [ entry?] using h
    have hm := Assoc.mem_of_get? hget
    simp only [linkedFiles, List.mem_cons, Prod.mk.injEq, Entry.link.injEq, reduceCtorEq, and_false,
      false_or, or_false, List.not_mem_nil] at hm
    exact hm.2

theorem placed_innerPage : Placed (linkedFiles innerPage) linkedProject where
  toTidy := by decide
  loads := rfl
  sight _ := inSight_of_high (by decide)

theorem keepsLinks_innerPage : (linkedFiles innerPage).KeepsLinks linkedProject.root := by
  rintro k mid inner - ⟨here, name, target, rfl, he, ht⟩ -
  obtain rfl := link_linkedFiles he
  have hpage : Files.entry? (linkedFiles innerPage) ["p", "lib", "page.tsx"] =
      some (.file [39, 46, 47, 98, 39]) := rfl
  have htrace := traces_of_straight
    (fun n hm => (placed_innerPage.entryName hpage n hm).toPathName)
    (placed_innerPage.straight hpage (by simp))
  have hempty : isIdle "" = true := rfl
  obtain ⟨rfl, -⟩ := (Traces.idle hempty htrace).unique ht
  rfl

/-- A session that was opened is at work. -/
theorem exists_atWork {target : Text} (table : RouteTable)
    (hroot : (linkedFiles target).resolve linkedProject.root = .ok linkedProject.root) :
    ∃ s, AtWork (linkedFiles target) linkedProject table s := by
  have hstart : PluginSession.start (linkedFiles target) linkedProject table [] failing = .ok _ :=
    PluginSession.start_of_ok rfl hroot rfl
  exact ⟨⟨linkedWorld target, _⟩, .opened hstart rfl⟩

end Sample

open Sample

/-- The page is a link to a file inside. Texts may be staged for it and for what it imports. -/
theorem analysed_files_staged_linked :
    ∃ table cache u, prepare linkedProject appRouter (linkedWorld innerPage) =
        .ok (table, cache) u ∧
      table.sourceFiles = innerFiles ∧
      (∃ s, AtWork (linkedFiles innerPage) linkedProject table s) ∧
      ∀ f ∈ table.sourceFiles, ∀ s, AtWork (linkedFiles innerPage) linkedProject table s →
        ∀ code : Text, ∃ t, answer (.stage (.str code) f) s = .ok () t := by
  have hout : observe (fun r _ => r.1.sourceFiles)
      (prepare linkedProject appRouter (linkedWorld innerPage)) = some innerFiles := by
    decide +kernel
  obtain ⟨⟨table, cache⟩, u, hroutes, hfiles⟩ := ok_of_observe hout
  have hall := (analysed_files_staged linkedProject (linkedWorld innerPage) u table cache
    placed_innerPage hroutes).2 keepsLinks_innerPage
  exact ⟨table, cache, u, hroutes, hfiles, exists_atWork table placed_innerPage.resolve_root, hall⟩

/-- The page is a link to a file outside. It is analysed, and no text may be staged for it. -/
theorem linked_page_refused :
    ∃ table cache u, prepare linkedProject appRouter (linkedWorld outerPage) =
        .ok (table, cache) u ∧
      table.sourceFiles = [outerPage] ∧
      (∃ s, AtWork (linkedFiles outerPage) linkedProject table s) ∧
      ∀ s, AtWork (linkedFiles outerPage) linkedProject table s → ∀ code : Text,
        answer (.stage (.str code) outerPage) s = .error (.store (.outsideRoot outerPage)) s := by
  have hout : observe (fun r _ => r.1.sourceFiles)
      (prepare linkedProject appRouter (linkedWorld outerPage)) = some [outerPage] := by
    decide +kernel
  obtain ⟨⟨table, cache⟩, u, hroutes, hfiles⟩ := ok_of_observe hout
  have hroot : (linkedFiles outerPage).resolve linkedProject.root = .ok linkedProject.root :=
    ok_of_toOption (by decide +kernel)
  have hpage : (linkedFiles outerPage).resolve (Path.parse outerPage) =
      .ok (absolute ["o", "page.tsx"]) := ok_of_toOption (by decide +kernel)
  refine ⟨table, cache, u, hroutes, hfiles, exists_atWork table hroot, fun s hs code => ?_⟩
  exact (hs.stage hroot hpage hpage code).2 (by decide)

end Pipeline

end RoutePlugins
