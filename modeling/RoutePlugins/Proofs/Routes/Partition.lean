import RoutePlugins.Proofs.Imports.Transparency

/-!
# The files of routes

A route lists the files that its entries reach, each once, at its first occurrence. Every file is
classified once for the whole table, so the client files and the server files of a table have none
in common, and together they are all its files.
-/

namespace RoutePlugins

variable {files : List Text} {route : Route}

namespace ImportGraph

open Store

variable {g : ImportGraph} {src : Sources} {s0 s t : Store}

/-! ### What is reached from an entry -/

/-- The files that a graph gives as reached from an entry, asked at a store. If the store remembers
none for the entry, they are those of a search along imports. -/
structure IsClosure (g : ImportGraph) (src : Sources) (s : Store) (entry : Text)
    (files : List Text) : Prop where
  given : outcome (g.reached src entry s) = .ok (files.map .str)
  found : ∀ p, src.files.resolve (Path.parse entry) = .ok p →
    outcome (remembered reachedPath p.text s) = .ok .null →
      DepthFirst (g.leadsTo src s) ∅ [p.text] (.ok files)

theorem isClosure_of_given (hn : src.files.StartsProper) (hroot : Imports.IsRoot g.root)
    (h0 : Ready s0) {entry : Text} (h : outcome (g.reached src entry s0) = .ok (files.map .str)) :
    IsClosure g src s0 entry files where
  given := h
  found p hp hnone := by
    obtain ⟨fields, hfields⟩ := h0.reached
    have hnull : look p.text fields = .null := by
      rw [remembered_apply h0.wellFormed hfields (isKey_of_resolve hn hp)] at hnone
      exact ofJson_eq_null (Except.ok.inj hnone)
    obtain ⟨r, hsearch, hout, -⟩ := reached_of_later_null hn hroot h0 (.refl h0) hfields hp hnull
    rw [h] at hout
    cases r with
    | error e => cases hout
    | ok files' =>
      rw [List.map_injective_iff.mpr (fun _ _ he => Value.str.inj he) (Except.ok.inj hout)]
      exact depthFirst_leadsTo hsearch

end ImportGraph

/-! ### First occurrences -/

theorem eraseDups_concat (l : List Text) (f : Text) :
    (l ++ [f]).eraseDups = if f ∈ l then l.eraseDups else l.eraseDups ++ [f] := by
  rw [List.eraseDups_append]
  by_cases h : f ∈ l
  · simp [h, List.removeAll]
  · simp [h, List.removeAll, List.eraseDups_cons]

theorem nodup_eraseDups (l : List Text) : l.eraseDups.Nodup := by
  induction l using List.reverseRecOn with
  | nil => simp
  | append_singleton l f ih =>
    rw [eraseDups_concat]
    split
    · exact ih
    · next h =>
      rw [← List.concat_eq_append, List.nodup_concat]
      exact ⟨fun hm => h (List.mem_eraseDups.mp hm), ih⟩

theorem mem_sortDistinct {t : Text} {texts : List Text} : t ∈ sortDistinct texts ↔ t ∈ texts :=
  mem_sortTexts.trans List.mem_eraseDups

theorem pairwise_sortDistinct (texts : List Text) :
    (sortDistinct texts).Pairwise Text.Precedes :=
  pairwise_sortTexts (nodup_eraseDups texts)

namespace Routes

open ImportGraph

/-- Adding the new ones of some files keeps the first occurrence of each file. -/
theorem addFiles_eraseDups (l new : List Text) :
    addFiles l.eraseDups new = (l ++ new).eraseDups := by
  induction new generalizing l with
  | nil => rw [List.append_nil, addFiles, List.foldl_nil]
  | cons f rest ih =>
    have hstep : addFiles l.eraseDups (f :: rest) = addFiles (l ++ [f]).eraseDups rest := by
      rw [eraseDups_concat]
      simp [addFiles]
    rw [hstep, ih, List.append_assoc]
    rfl

theorem eq_map_of_mapM_pathText {values : List Value} (h : values.mapM pathText = .ok files) :
    values = files.map .str := by
  have hall := forall₂_of_except_mapM h
  clear h
  induction hall with
  | nil => rfl
  | @cons v f _ _ hv _ ih =>
    cases v with
    | str t =>
      cases hv
      rw [List.map_cons, ih]
    | _ => cases hv

variable {g : ImportGraph} {src : Sources} {s0 s t : Store}

section

variable (hn : src.files.StartsProper)
  (hroot : Imports.IsRoot g.root) (h0 : Ready s0)

include hn hroot h0

/-- The files of some entries are the first occurrences in their closures. -/
theorem filesOf_eq_ok {entries l : List Text} (hs : Later g src s0 s)
    (h : filesOf g src entries l.eraseDups s = .ok files t) :
    Later g src s0 t ∧ ∃ closures, List.Forall₂ (IsClosure g src s0) entries closures ∧
      files = (l ++ closures.flatten).eraseDups := by
  induction entries generalizing l s with
  | nil =>
    cases h
    exact ⟨hs, [], .nil, by simp⟩
  | cons entry rest ih =>
    obtain ⟨values, u, hreached, hrest⟩ := bind_eq_ok.mp h
    obtain ⟨found, hfound, hrest⟩ := lift_bind_eq_ok.mp hrest
    obtain ⟨hout, hu⟩ := gives_reached_of_later hn hroot h0 entry s hs
    rw [hreached, eq_map_of_mapM_pathText hfound] at hout hu
    rw [addFiles_eraseDups] at hrest
    obtain ⟨ht, closures, hclosures, rfl⟩ := ih hu hrest
    refine ⟨ht, found :: closures, .cons (isClosure_of_given hn hroot h0 hout.symm) hclosures, ?_⟩
    rw [List.flatten_cons, List.append_assoc]

end

/-- What is known of files is what they say when they are parsed. -/
def Classified (src : Sources) (s : Store) (known : ClientCache) : Prop :=
  ∀ f b, Assoc.get? f known = some b →
    ∃ parsed, outcome (Store.parse src f s) = .ok parsed ∧ b = isClientFile parsed

section

variable (hn : src.files.StartsProper) (h0 : Ready s0)

include hn h0

/-- Classifying files adds them to what is known. -/
theorem classify_eq_ok {known known' : ClientCache} (hs : Later g src s0 s)
    (hknown : Classified src s0 known) (h : classify src files known s = .ok known' t) :
    Later g src s0 t ∧ Classified src s0 known' ∧
      (∀ f, (Assoc.get? f known).isSome = true → (Assoc.get? f known').isSome = true) ∧
      ∀ f ∈ files, (Assoc.get? f known').isSome = true := by
  induction files generalizing known s with
  | nil =>
    cases h
    exact ⟨hs, hknown, fun _ hf => hf, by simp⟩
  | cons f rest ih =>
    rw [classify] at h
    split at h
    · next hf =>
      obtain ⟨ht, hknown', hkept, hrest⟩ := ih hs hknown h
      refine ⟨ht, hknown', hkept, List.forall_mem_cons.mpr ⟨hkept f ?_, hrest⟩⟩
      exact hf
    · obtain ⟨parsed, u, hparse, h⟩ := bind_eq_ok.mp h
      obtain ⟨hout, hu⟩ := gives_parse_of_later hn h0 f s hs
      rw [hparse] at hout hu
      have hinsert : Classified src s0 (Assoc.insert f (isClientFile parsed) known) := by
        intro f' b hb
        rw [Assoc.get?_insert] at hb
        split at hb
        · next he =>
          cases hb
          rw [he]
          exact ⟨parsed, hout.symm, rfl⟩
        · exact hknown f' b hb
      obtain ⟨ht, hknown', hkept, hrest⟩ := ih hu hinsert h
      refine ⟨ht, hknown', fun f' hf' => hkept f' ?_, List.forall_mem_cons.mpr ⟨hkept f ?_, hrest⟩⟩
      · rw [Assoc.get?_insert]
        split
        · rfl
        · exact hf'
      · rw [Assoc.get?_insert_self]
        rfl

end

/-- The route of a record: its files are the first occurrences in the closures of its entries, and
each is among the client files if it says so itself, else among the server files. -/
structure IsRouteOf (g : ImportGraph) (src : Sources) (s : Store) (group : Value) (route : Route) :
    Prop where
  entries : resolveEntries src.files group = .ok route.entries
  files : ∃ closures, List.Forall₂ (IsClosure g src s) route.entries closures ∧
    route.files = closures.flatten.eraseDups
  split : ∃ client : Text → Bool, (∀ f ∈ route.files,
      ∃ parsed, outcome (Store.parse src f s) = .ok parsed ∧ client f = isClientFile parsed) ∧
    route.clientFiles = route.files.filter client ∧
    route.serverFiles = route.files.filter fun f => !client f

section

variable (hn : src.files.StartsProper)
  (hroot : Imports.IsRoot g.root) (h0 : Ready s0)

include hn hroot h0

theorem build_eq_ok {groups : List Value} {known : ClientCache} {routes : List Route}
    (hs : Later g src s0 s) (hknown : Classified src s0 known)
    (h : build g src groups known s = .ok routes t) :
    List.Forall₂ (IsRouteOf g src s0) groups routes := by
  induction groups generalizing known routes s with
  | nil =>
    cases h
    exact .nil
  | cons group rest ih =>
    obtain ⟨entries, hentries, h1⟩ := lift_bind_eq_ok.mp h
    obtain ⟨files, u1, hfiles, h2⟩ := bind_eq_ok.mp h1
    obtain ⟨known', u2, hclassify, h3⟩ := bind_eq_ok.mp h2
    obtain ⟨name, -, h4⟩ := lift_bind_eq_ok.mp h3
    obtain ⟨others, u4, hothers, h5⟩ := bind_eq_ok.mp h4
    cases h5
    obtain ⟨hu1, closures, hclosures, rfl⟩ := filesOf_eq_ok (l := []) hn hroot h0 hs hfiles
    obtain ⟨hu2, hknown', -, hall⟩ := classify_eq_ok hn h0 hu1 hknown hclassify
    refine .cons ⟨hentries, ⟨closures, hclosures, rfl⟩, known'.isClient, fun f hf => ?_, rfl, rfl⟩
      (ih hu2 hknown' hothers)
    obtain ⟨b, hb⟩ := Option.isSome_iff_exists.mp (hall f hf)
    obtain ⟨parsed, hparsed, rfl⟩ := hknown' f b hb
    exact ⟨parsed, hparsed, by rw [ClientCache.isClient, hb]; rfl⟩

end

/-- The files of a route are told apart by what they say. -/
theorem IsRouteOf.mem_clientFiles {group : Value} (h : IsRouteOf g src s group route) {f : Text}
    (hf : f ∈ route.files) :
    ∃ parsed, outcome (Store.parse src f s) = .ok parsed ∧
      (f ∈ route.clientFiles ↔ isClientFile parsed = true) ∧
      (f ∈ route.serverFiles ↔ isClientFile parsed = false) := by
  obtain ⟨client, hclient, hfiles, hserver⟩ := h.split
  obtain ⟨parsed, hparsed, heq⟩ := hclient f hf
  refine ⟨parsed, hparsed, ?_, ?_⟩
  · rw [hfiles, List.mem_filter, heq]
    exact and_iff_right hf
  · rw [hserver, List.mem_filter, heq, Bool.not_eq_true']
    exact and_iff_right hf

/-- The client files and the server files of a route are its files, in their order. -/
theorem IsRouteOf.sublists {group : Value} (h : IsRouteOf g src s group route) :
    route.clientFiles.Sublist route.files ∧ route.serverFiles.Sublist route.files := by
  obtain ⟨client, -, hfiles, hserver⟩ := h.split
  rw [hfiles, hserver]
  exact ⟨List.filter_sublist, List.filter_sublist⟩

end Routes

namespace RouteTable

open ImportGraph Routes

/-- The files of two routes, or of one, are told apart in the same way. -/
private theorem not_client_and_server {g : ImportGraph} {src : Sources} {s : Store}
    {group group' : Value} {route' : Route} (h : IsRouteOf g src s group route)
    (h' : IsRouteOf g src s group' route') {f : Text} (hf : f ∈ route.clientFiles)
    (hf' : f ∈ route'.serverFiles) : False := by
  obtain ⟨parsed, hparsed, hclient, -⟩ := h.mem_clientFiles (h.sublists.1.subset hf)
  obtain ⟨parsed', hparsed', -, hserver⟩ := h'.mem_clientFiles (h'.sublists.2.subset hf')
  cases hparsed.symm.trans hparsed'
  cases (hclient.mp hf).symm.trans (hserver.mp hf')

/-- In a table that was built, each route lists the files that its entries reach, each once, at its
first occurrence; its client files and its server files are these files in their order, each in one
of the two; a file is a client file of every route that lists it if it says so itself, and of none
otherwise. So the client files and the server files of the table, both in ascending order and
without repetition, have none in common, and together they are all its files. -/
theorem build_partitions (project : Project) (convention : Convention) (src : Sources)
    (g : ImportGraph) (root : Path) (s t : Store) (table : RouteTable)
    (hn : ∀ name ∈ src.files.workingDirectory, Files.ProperName name)
    (hroot : src.files.resolve root = .ok g.root) (hs : Ready s)
    (h : RouteTable.build project convention src g s = .ok table t) :
    (∃ groups, convention src.files project = .ok groups ∧
      List.Forall₂ (fun group route => resolveEntries src.files group = .ok route.entries ∧
        ∃ closures, List.Forall₂ (IsClosure g src s) route.entries closures ∧
          route.files = closures.flatten.eraseDups ∧ route.files.Nodup ∧
          ∀ f, f ∈ route.files ↔ ∃ closure ∈ closures, f ∈ closure) groups table.routes) ∧
    (∀ route ∈ table.routes,
      route.clientFiles.Sublist route.files ∧ route.serverFiles.Sublist route.files ∧
        route.clientFiles.Disjoint route.serverFiles ∧
        ∀ f ∈ route.files, (f ∈ route.clientFiles ∨ f ∈ route.serverFiles) ∧
          ∃ parsed, outcome (Store.parse src f s) = .ok parsed ∧
            (f ∈ route.clientFiles ↔ isClientFile parsed = true)) ∧
    (∀ route ∈ table.routes, ∀ route' ∈ table.routes, ∀ f ∈ route.files, f ∈ route'.files →
      (f ∈ route.clientFiles ↔ f ∈ route'.clientFiles)) ∧
    table.clientFiles.Disjoint table.serverFiles ∧
    table.clientFiles.Pairwise Text.Precedes ∧ table.serverFiles.Pairwise Text.Precedes ∧
    table.sourceFiles.Pairwise Text.Precedes ∧
    ∀ f, f ∈ table.sourceFiles ↔ f ∈ table.clientFiles ∨ f ∈ table.serverFiles := by
  obtain ⟨groups, hgroups, h1⟩ := lift_bind_eq_ok.mp h
  obtain ⟨routes, u', hroutes, h2⟩ := bind_eq_ok.mp h1
  cases h2
  have hmade := Routes.build_eq_ok hn (Imports.isRoot_of_resolve hn hroot) hs (.refl hs)
    (fun f b hb => by cases hb) hroutes
  have hroute : ∀ route ∈ routes, ∃ group, IsRouteOf g src s group route := by
    intro route hm
    obtain ⟨group, -, hgroup⟩ := exists_of_forall₂_left hmade.flip hm
    exact ⟨group, hgroup⟩
  have hcover : ∀ route ∈ routes, ∀ f ∈ route.files,
      f ∈ route.clientFiles ∨ f ∈ route.serverFiles := by
    intro route hm f hf
    obtain ⟨group, hgroup⟩ := hroute route hm
    obtain ⟨parsed, -, hclient, hserver⟩ := hgroup.mem_clientFiles hf
    rw [hclient, hserver]
    exact (Bool.eq_false_or_eq_true _)
  refine ⟨⟨groups, hgroups, hmade.imp fun group route hgroup => ?_⟩, fun route hm => ?_, ?_, ?_,
    pairwise_sortDistinct _, pairwise_sortDistinct _, pairwise_sortDistinct _, fun f => ?_⟩
  · obtain ⟨closures, hclosures, hfiles⟩ := hgroup.files
    refine ⟨hgroup.entries, closures, hclosures, hfiles, ?_, fun f => ?_⟩
    · rw [hfiles]
      exact nodup_eraseDups _
    · rw [hfiles, List.mem_eraseDups, List.mem_flatten]
  · obtain ⟨group, hgroup⟩ := hroute route hm
    refine ⟨hgroup.sublists.1, hgroup.sublists.2,
      fun f hf hf' => not_client_and_server hgroup hgroup hf hf', fun f hf => ?_⟩
    obtain ⟨parsed, hparsed, hclient, -⟩ := hgroup.mem_clientFiles hf
    exact ⟨hcover route hm f hf, parsed, hparsed, hclient⟩
  · intro route hm route' hm' f hf hf'
    obtain ⟨group, hgroup⟩ := hroute route hm
    obtain ⟨group', hgroup'⟩ := hroute route' hm'
    obtain ⟨parsed, hparsed, hclient, -⟩ := hgroup.mem_clientFiles hf
    obtain ⟨parsed', hparsed', hclient', -⟩ := hgroup'.mem_clientFiles hf'
    cases hparsed.symm.trans hparsed'
    rw [hclient, hclient']
  · intro f hf hf'
    obtain ⟨route, hm, hf⟩ := List.mem_flatMap.mp (mem_sortDistinct.mp hf)
    obtain ⟨route', hm', hf'⟩ := List.mem_flatMap.mp (mem_sortDistinct.mp hf')
    obtain ⟨group, hgroup⟩ := hroute route hm
    obtain ⟨group', hgroup'⟩ := hroute route' hm'
    exact not_client_and_server hgroup hgroup' hf hf'
  · rw [RouteTable.sourceFiles, RouteTable.clientFiles, RouteTable.serverFiles, mem_sortDistinct,
      mem_sortDistinct, mem_sortDistinct, List.mem_flatMap, List.mem_flatMap, List.mem_flatMap]
    constructor
    · rintro ⟨route, hm, hf⟩
      exact (hcover route hm f hf).imp (fun h => ⟨route, hm, h⟩) fun h => ⟨route, hm, h⟩
    · rintro (⟨route, hm, hf⟩ | ⟨route, hm, hf⟩)
      · obtain ⟨group, hgroup⟩ := hroute route hm
        exact ⟨route, hm, hgroup.sublists.1.subset hf⟩
      · obtain ⟨group, hgroup⟩ := hroute route hm
        exact ⟨route, hm, hgroup.sublists.2.subset hf⟩

/-! ### Two routes with a client file in common -/

namespace Sample

/-- The tree of a file that is a quoted text: an import from a path, else a directive. -/
def quotedTree (source : Bytes) : Node :=
  let stop := source.length
  let fragment : Node := ⟨"string_fragment", true, none, 1, stop - 1, []⟩
  let directive : Node := ⟨"expression_statement", true, none, 0, stop,
    [⟨"string", true, none, 0, stop, [fragment]⟩]⟩
  if source.tail.head? == some 46 then ImportGraph.Sample.quotedImport source
  else ⟨"program", true, none, 0, stop, [directive]⟩

/-- Two files in which `'./b'` stands, and one in which `'use client'` stands. -/
def shared : Sources where
  files := ⟨[(["proj"], .directory), (["proj", "a.ts"], .file [39, 46, 47, 98, 39]),
    (["proj", "b.ts"], .file [39, 117, 115, 101, 32, 99, 108, 105, 101, 110, 116, 39]),
    (["proj", "c.ts"], .file [39, 46, 47, 98, 39])], ["proj"]⟩
  parser _ source := quotedTree source

/-- A route record. -/
def group (name : Text) (entries : List Text) : Value :=
  .map [(.str "name", .str name), (.str "entries", .list (entries.map .str))]

def twoGroups : Convention :=
  fun _ _ => .ok [group "/" ["a.ts", "c.ts"], group "/b" ["b.ts", "c.ts"]]

def sharing : Project := ⟨⟨.root, ["proj"]⟩, none, none, []⟩

/-- The files of a route, those that run on the client, and those that run on the server. -/
def listed (route : Route) : List (List Text) :=
  [route.files, route.clientFiles, route.serverFiles]

def sharedFiles : List (List (List Text)) :=
  [[["/proj/a.ts", "/proj/b.ts", "/proj/c.ts"], ["/proj/b.ts"], ["/proj/a.ts", "/proj/c.ts"]],
    [["/proj/b.ts", "/proj/c.ts"], ["/proj/b.ts"], ["/proj/c.ts"]]]

end Sample

open Sample

/-- The file that both routes reach is a client file of both. -/
theorem build_partitions_shared :
    ∃ table t, RouteTable.build sharing twoGroups shared ImportGraph.Sample.projectGraph
        ImportGraph.Sample.emptyTables = .ok table t ∧
      table.routes.map listed = sharedFiles ∧
      table.clientFiles.Disjoint table.serverFiles ∧
      (∀ f, f ∈ table.sourceFiles ↔ f ∈ table.clientFiles ∨ f ∈ table.serverFiles) ∧
      ∀ route ∈ table.routes, ∀ route' ∈ table.routes, ∀ f ∈ route.files, f ∈ route'.files →
        (f ∈ route.clientFiles ↔ f ∈ route'.clientFiles) := by
  have hn : ∀ name ∈ shared.files.workingDirectory, Files.ProperName name := by decide +kernel
  have hroot : shared.files.resolve ⟨.root, ["proj"]⟩ =
      .ok ImportGraph.Sample.projectGraph.root := by
    rfl
  have hout : observe (fun table _ => table.routes.map listed)
      (RouteTable.build sharing twoGroups shared ImportGraph.Sample.projectGraph
        ImportGraph.Sample.emptyTables) = some sharedFiles := by
    decide +kernel
  obtain ⟨table, t, hbuild, hlisted⟩ := ok_of_observe hout
  obtain ⟨-, -, hsame, hdisjoint, -, -, -, hcover⟩ := build_partitions sharing twoGroups shared
    ImportGraph.Sample.projectGraph _ _ t table hn hroot
    ImportGraph.Sample.blank_emptyTables.ready hbuild
  exact ⟨table, t, hbuild, hlisted, hdisjoint, hcover, hsame⟩

end RouteTable

end RoutePlugins
