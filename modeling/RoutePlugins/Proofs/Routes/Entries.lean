import RoutePlugins.Proofs.Files.Found

/-!
# Entries of routes

The routes of an app directory start from files whose paths are spelled below it: each is the app
directory followed by names of entries. Links on the way to such a file are followed, so the path to
which it resolves may be elsewhere.
-/

namespace RoutePlugins

variable {depth : Nat}

namespace Files

/-- The path is the directory followed by names that entries have. -/
def Along (dir p : Path) : Prop :=
  ∃ names, (∀ n ∈ names, EntryName n) ∧ p = ⟨dir.anchor, dir.names ++ names⟩

section

variable {dir p : Path}

theorem Along.refl (dir : Path) : Along dir dir := ⟨[], by simp, by rw [List.append_nil]⟩

theorem Along.child (h : Along dir p) {name : Text} (hn : EntryName name) :
    Along dir (p.child name) := by
  obtain ⟨names, hnames, rfl⟩ := h
  exact ⟨names ++ [name], forall_mem_concat.mpr ⟨hnames, hn⟩,
    by rw [Path.child, List.append_assoc]⟩

theorem Along.below (h : Along dir p) : p.Below dir := by
  obtain ⟨names, -, rfl⟩ := h
  exact Path.below_iff.mpr ⟨rfl, List.prefix_append _ _⟩

theorem Along.proper (h : Along dir p) (hdir : ∀ n ∈ dir.names, ProperName n) :
    ∀ n ∈ p.names, ProperName n := by
  obtain ⟨names, hnames, rfl⟩ := h
  exact List.forall_mem_append.mpr ⟨hdir, fun n hm => (hnames n hm).toProperName⟩

theorem Along.drop (h : Along dir p) : ∀ n ∈ p.names.drop dir.names.length, EntryName n := by
  obtain ⟨names, hnames, rfl⟩ := h
  rwa [List.drop_left]

end

/-- What is listed below a directory is a path from there along names of entries, and is itself the
path of an entry of some directory. -/
theorem along_of_belowFrom {fs : Files} (ht : fs.Tidy) {dir p : Path} {paths : List Path}
    (hp : Along dir p) (h : fs.belowFrom depth p = .ok paths) :
    ∀ q ∈ paths, ∃ d n, Along dir d ∧ EntryName n ∧ q = d.child n := by
  induction depth generalizing p paths with
  | zero =>
    cases h
    simp
  | succ depth ih =>
    obtain ⟨listed, hlist, h⟩ := bind_ok_iff.mp h
    obtain ⟨inside, hinside, h⟩ := bind_ok_iff.mp h
    cases h
    obtain ⟨l, -, hlist⟩ := bind_ok_iff.mp hlist
    cases hlist
    intro q hq
    obtain ⟨part, hpart, hq⟩ := List.mem_flatten.mp hq
    obtain ⟨q', hq', hfrom⟩ := exists_of_forall₂_left (forall₂_of_except_mapM hinside).flip hpart
    obtain ⟨n, hn, rfl⟩ := List.mem_map.mp hq'
    obtain ⟨e, he⟩ := Option.isSome_iff_exists.mp (mem_children.mp hn)
    have hname : EntryName n := ht.entryName he n (by simp)
    dsimp only at hfrom
    split at hfrom
    · obtain ⟨more, hmore, hfrom⟩ := bind_ok_iff.mp hfrom
      cases hfrom
      obtain rfl | hq := List.mem_cons.mp hq
      · exact ⟨p, n, hp, hname, rfl⟩
      · exact ih (hp.child hname) hmore q hq
    · cases hfrom
      rw [List.mem_singleton.mp hq]
      exact ⟨p, n, hp, hname, rfl⟩

end Files

namespace Routes

open Files

/-- A file from which a route may start: its path leads from the app directory along names of
entries. -/
structure EntryFile (fs : Files) (appDir p : Path) : Prop where
  along : Along appDir p
  isFile : fs.isFile p = .ok true

section

variable {fs : Files} {appDir dir p : Path}

theorem mem_routeFilesAmong {paths files : List Path}
    (h : routeFilesAmong fs appDir paths = .ok files) :
    ∀ p ∈ files, p ∈ paths ∧ fs.isFile p = .ok true := by
  induction paths generalizing files with
  | nil =>
    cases h
    simp
  | cons q rest ih =>
    obtain ⟨isRoute, hroute, h⟩ := bind_ok_iff.mp h
    obtain ⟨others, hothers, h⟩ := bind_ok_iff.mp h
    have hrest : ∀ p ∈ others, p ∈ q :: rest ∧ fs.isFile p = .ok true := fun p hp =>
      ⟨List.mem_cons_of_mem _ (ih hothers p hp).1, (ih hothers p hp).2⟩
    cases isRoute with
    | false =>
      cases h
      exact hrest
    | true =>
      cases h
      refine List.forall_mem_cons.mpr ⟨⟨List.mem_cons_self, ?_⟩, hrest⟩
      unfold isRouteFile at hroute
      split at hroute
      · cases hroute
      · obtain ⟨b, hb, hroute⟩ := bind_ok_iff.mp hroute
        have hand := Except.ok.inj hroute
        rw [Bool.and_eq_true, Bool.and_eq_true] at hand
        rw [hb, hand.1.1]

theorem along_of_routeFiles (ht : fs.Tidy) {files : List Path}
    (h : routeFiles fs appDir = .ok files) :
    ∀ p ∈ files, fs.isFile p = .ok true ∧ ∃ d n, Along appDir d ∧ EntryName n ∧ p = d.child n := by
  obtain ⟨paths, hpaths, h⟩ := bind_ok_iff.mp h
  intro p hp
  obtain ⟨hm, hfile⟩ := mem_routeFilesAmong h p hp
  have hm := List.mem_mergeSort.mp hm
  refine ⟨hfile, ?_⟩
  unfold Files.below at hpaths
  obtain ⟨isDir, -, hpaths⟩ := bind_ok_iff.mp hpaths
  cases isDir with
  | false =>
    cases hpaths
    cases hm
  | true => exact along_of_belowFrom ht (.refl appDir) hpaths p hm

/-- Names with a source extension are names of entries. -/
private theorem entryName_extended :
    ∀ name ∈ (["layout", "template", "loading"] : List Text), ∀ ext ∈ sourceExts,
      EntryName (name ++ ext) := by
  decide

/-- A file that is looked for beside a route file may be one that the route starts from. -/
theorem entryFile_of_withSourceExt {name : Text}
    (hname : name ∈ (["layout", "template", "loading"] : List Text)) (hdir : Along appDir dir)
    (h : withSourceExt fs dir name = .ok (some p)) : EntryFile fs appDir p := by
  obtain ⟨hm, hfile⟩ := mem_of_findM? h
  obtain ⟨ext, hext, rfl⟩ := List.mem_map.mp hm
  exact ⟨hdir.child (entryName_extended name hname ext hext), hfile⟩

theorem mem_addLayout {segment : Text} {layout : Path} {above : List Layout} {l : Layout}
    (h : l ∈ addLayout segment depth layout above) : l = (layout, depth) ∨ l ∈ above := by
  unfold addLayout at h
  split at h
  · split at h
    · exact (List.mem_cons.mp h).imp_right (List.mem_cons_of_mem _)
    · exact List.mem_cons.mp h
  · exact .inl (List.mem_singleton.mp h)

/-- Layouts are looked for along the directories of a route. -/
theorem entryFile_of_layoutsFrom {segments : List Text} {found layouts : List Layout}
    (hdir : Along appDir dir) (hs : ∀ s ∈ segments, EntryName s)
    (hfound : ∀ l ∈ found, EntryFile fs appDir l.1)
    (h : layoutsFrom fs dir depth found segments = .ok layouts) :
    ∀ l ∈ layouts, EntryFile fs appDir l.1 := by
  induction segments generalizing dir depth found with
  | nil =>
    cases h
    exact hfound
  | cons segment rest ih =>
    obtain ⟨o, ho, h⟩ := bind_ok_iff.mp h
    have hbelow := hdir.child (hs segment List.mem_cons_self)
    refine ih hbelow (fun s hm => hs s (List.mem_cons_of_mem _ hm)) ?_ h
    cases o with
    | none => exact hfound
    | some layout =>
      intro l hl
      obtain rfl | hl := mem_addLayout hl
      · exact entryFile_of_withSourceExt (by simp) hbelow ho
      · exact hfound l hl

theorem entryFile_of_layoutsAlong {segments : List Text} (hs : ∀ s ∈ segments, EntryName s)
    {layouts : List Path} (h : layoutsAlong fs appDir segments = .ok layouts) :
    ∀ p ∈ layouts, EntryFile fs appDir p := by
  obtain ⟨top, htop, h⟩ := bind_ok_iff.mp h
  obtain ⟨found, hfound, h⟩ := bind_ok_iff.mp h
  cases h
  intro p hp
  obtain ⟨l, hl, rfl⟩ := List.mem_map.mp hp
  refine entryFile_of_layoutsFrom (.refl appDir) hs (fun l hm => ?_) hfound l hl
  obtain ⟨layout, hlayout, rfl⟩ := List.mem_map.mp hm
  rw [Option.mem_toList.mp hlayout] at htop
  exact entryFile_of_withSourceExt (by simp) (.refl appDir) htop

/-- The files that a route starts from are the route file, layouts above it, and files beside it. -/
theorem entryFile_of_entriesOf {dirs : List Text} (hdirs : ∀ s ∈ dirs, EntryName s)
    (hp : EntryFile fs appDir p) (hparent : Along appDir p.parent) {entries : List Path}
    (h : entriesOf fs appDir dirs p = .ok entries) : ∀ q ∈ entries, EntryFile fs appDir q := by
  have hsplit : ∃ layouts extras, (∀ q ∈ layouts, EntryFile fs appDir q) ∧
      ((if p.stem == "page" then ["template", "loading"] else [] : List Text).mapM
        (withSourceExt fs p.parent) = .ok extras) ∧
      entries = p :: layouts ++ extras.filterMap id := by
    unfold entriesOf at h
    dsimp only at h
    split at h
    · obtain ⟨layouts, hlayouts, h⟩ := bind_ok_iff.mp h
      obtain ⟨extras, hextras, h⟩ := bind_ok_iff.mp h
      cases h
      exact ⟨layouts, extras, entryFile_of_layoutsAlong hdirs hlayouts, hextras, rfl⟩
    · obtain ⟨_, ⟨⟩, h⟩ := bind_ok_iff.mp h
      obtain ⟨extras, hextras, h⟩ := bind_ok_iff.mp h
      cases h
      exact ⟨[], extras, by simp, hextras, rfl⟩
  obtain ⟨layouts, extras, hlayouts, hextras, rfl⟩ := hsplit
  intro q hq
  rw [List.cons_append, List.mem_cons, List.mem_append] at hq
  obtain rfl | hq | hq := hq
  · exact hp
  · exact hlayouts q hq
  · obtain ⟨o, ho, hq⟩ := List.mem_filterMap.mp hq
    obtain rfl : o = some q := hq
    obtain ⟨name, hname, hfound⟩ :=
      exists_of_forall₂_left (forall₂_of_except_mapM hextras).flip ho
    refine entryFile_of_withSourceExt ?_ hparent hfound
    split at hname
    · exact List.mem_cons_of_mem _ hname
    · cases hname

/-- The routes of a project start from files below its app directory. -/
theorem entryFile_of_groups (ht : fs.Tidy) {project : Project} {gs : List Group}
    (h : groups fs project = .ok gs) :
    ∃ dir, project.appDir = some dir ∧ ∀ g ∈ gs, ∀ p ∈ g.entries, EntryFile fs dir p := by
  obtain ⟨dir, hdir, h⟩ := bind_ok_iff.mp h
  obtain ⟨files, hfiles, h⟩ := bind_ok_iff.mp h
  have happ : project.appDir = some dir := by
    unfold Project.requireAppDir at hdir
    split at hdir
    · next hsome =>
      cases hdir
      exact hsome
    · cases hdir
  refine ⟨dir, happ, fun g hg => ?_⟩
  obtain ⟨file, hfile, hgroup⟩ := exists_of_forall₂_left (forall₂_of_except_mapM h).flip hg
  obtain ⟨entries, hentries, hgroup⟩ := bind_ok_iff.mp hgroup
  cases hgroup
  obtain ⟨hisFile, d, n, hd, hn, rfl⟩ :=
    along_of_routeFiles ht hfiles file (List.mem_of_mem_filter hfile)
  have hparent : (d.child n).parent = d := by simp [Path.parent, Path.child]
  rw [hparent] at hentries
  refine entryFile_of_entriesOf hd.drop ⟨hd.child hn, hisFile⟩ ?_ hentries
  rwa [hparent]

/-- The entries of a route are resolved one by one. -/
theorem mem_resolveEntries {g : Group} {texts : List Text}
    (h : resolveEntries fs g.toValue = .ok texts) :
    ∀ t ∈ texts, ∃ p ∈ g.entries, ∃ q, fs.resolve (Path.parse p.text) = .ok q ∧ t = q.text := by
  obtain ⟨v, hv, h⟩ := bind_ok_iff.mp h
  obtain ⟨entries, hentries, h⟩ := bind_ok_iff.mp h
  have hmember : g.toValue.member "entries" =
    .ok (.list (g.entries.map fun p => .str p.text)) := rfl
  cases hv.symm.trans hmember
  cases hentries
  intro t ht
  obtain ⟨v, hv, hresolve⟩ := exists_of_forall₂_left (forall₂_of_except_mapM h).flip ht
  obtain ⟨p, hp, rfl⟩ := List.mem_map.mp hv
  obtain ⟨text, htext, hresolve⟩ := bind_ok_iff.mp hresolve
  cases htext
  obtain ⟨q, hq, hresolve⟩ := bind_ok_iff.mp hresolve
  cases hresolve
  exact ⟨p, hp, q, hq, rfl⟩

end

end Routes

end RoutePlugins
