import RoutePlugins.Ledger.Persisted
import RoutePlugins.Proofs.Files.Clear
import RoutePlugins.Proofs.Files.NewEntries
import RoutePlugins.Proofs.Pipeline.LeftArtifacts
import RoutePlugins.Proofs.Text.Order

/-!
# A data directory made by a run

A project may have no data directory when a run begins. Then all that is in it afterwards is what
the run has put there: for each plugin a directory with its artifacts, and nothing else, as long as
no staged text was written into it. So the directories that are listed are those of the plugins, and
the records in them are those that the plugins left behind.
-/

namespace RoutePlugins

variable {name : Text} {l : Location}

/-! ### The order of paths -/

theorem textsLe_append_left (front ss ts : List Text) :
    textsLe (front ++ ss) (front ++ ts) = textsLe ss ts := by
  induction front with
  | nil => rfl
  | cons t rest ih => rw [List.cons_append, List.cons_append, textsLe, if_pos (by simp), ih]

namespace Files

/-- What is in one directory is sorted by its names. -/
theorem sort_children (l : Location) {listed names : List Text} (h : listed.Perm names) :
    Path.sort (listed.map (absolute l).child) = (sortTexts names).map (absolute l).child := by
  have hle (s t : Text) : textsLe ((absolute l).child s).parts ((absolute l).child t).parts =
      textsLe [s] [t] := by
    change textsLe ((("/" : Text) :: l) ++ [s]) ((("/" : Text) :: l) ++ [t]) = _
    exact textsLe_append_left _ _ _
  have hsorted : ((sortTexts names).map (absolute l).child).Pairwise
      fun p q => textsLe p.parts q.parts = true := by
    have hpairs := List.pairwise_insertionSort (fun s t : Text => s.le t = true) names
    rw [← sortTexts_eq] at hpairs
    refine List.pairwise_map.mpr (hpairs.imp fun {s t} hst => ?_)
    rw [hle, textsLe]
    split
    · rfl
    · exact hst
  have hperm : (Path.sort (listed.map (absolute l).child)).Perm
      ((sortTexts names).map (absolute l).child) :=
    (List.mergeSort_perm _ _).trans ((h.trans (perm_sortTexts names).symm).map _)
  have hpairs : (Path.sort (listed.map (absolute l).child)).Pairwise
      fun p q => textsLe p.parts q.parts = true := by
    apply List.pairwise_mergeSort
    · exact fun p q r => textsLe_trans
    · exact fun p q => Bool.or_eq_true_iff.mpr (textsLe_total p.parts q.parts)
  refine hperm.eq_of_pairwise (fun p q hp hq hpq hqp => ?_) hpairs hsorted
  obtain ⟨s, -, rfl⟩ := List.mem_map.mp (hperm.mem_iff.mp hp)
  obtain ⟨t, -, rfl⟩ := List.mem_map.mp hq
  have hparts := textsLe_antisymm hpq hqp
  exact congrArg (Path.mk .root) (List.cons.inj hparts).2

end Files

namespace Pipeline

open World Files

/-! ### Places in the data directory -/

/-- A project in which there is nothing where its data directory would be. -/
structure Fresh (fs : Files) (project : Project) (root : Location) : Prop extends Tidy fs where
  root_eq : project.root = absolute root
  directory : fs.entry? root = some .directory
  absent : fs.entry? (dataPlace root) = none
  fits : Fits (dataPlace root)

/-- A name of a plugin under which its directory is listed as well. -/
structure DirectoryName (name : Text) : Prop extends EntryName name where
  isName : Plugin.isName name = true

instance (name : Text) : Decidable (DirectoryName name) :=
  decidable_of_iff (EntryName name ∧ Plugin.isName name = true)
    ⟨fun h => ⟨h.1, h.2⟩, fun h => ⟨h.toEntryName, h.isName⟩⟩

/-- The directory of digests is that of no plugin. -/
theorem DirectoryName.ne_digestDirName (h : DirectoryName name) : name ≠ Project.digestDirName := by
  rintro rfl
  exact absurd h.isName (by decide)

theorem DirectoryName.trail {artifact : Text} (hn : DirectoryName name)
    (ha : artifact ∈ artifactNames) : ∀ n ∈ [name, artifact], EntryName n := by
  have hartifact : ∀ artifact ∈ artifactNames, EntryName artifact := by decide
  exact List.forall_mem_cons.mpr ⟨hn.toEntryName,
    List.forall_mem_singleton.mpr (hartifact artifact ha)⟩

section

variable {fs gs : Files} {project : Project} {root : Location} (h : Fresh fs project root)

include h

theorem Fresh.entryName : ∀ n ∈ dataPlace root, EntryName n :=
  forall_mem_concat.mpr ⟨h.toTidy.entryName h.directory, by decide⟩

/-- There is nothing below the place of a data directory that is absent. -/
theorem Fresh.entry_below (hl : dataPlace root <+: l) : fs.entry? l = none := by
  by_contra hne
  obtain ⟨e, he⟩ := Option.ne_none_iff_exists'.mp hne
  by_cases heq : dataPlace root = l
  · exact hne (heq ▸ h.absent)
  · have hdir := h.above he hl heq
    rw [h.absent] at hdir
    cases hdir

theorem Fresh.path_eq (hn : DirectoryName name) (artifact : Text) :
    (project.pluginDir name).child artifact = absolute (dataPlace root ++ [name, artifact]) := by
  rw [project.pluginDir_child hn.isName, h.root_eq]
  simp [absolute, dataPlace]

variable (hg : fs.Grows gs) {rest : List Text} (hrest : ∀ n ∈ rest, EntryName n)

include hrest in
theorem Fresh.entryName_append : ∀ n ∈ dataPlace root ++ rest, EntryName n :=
  List.forall_mem_append.mpr ⟨h.entryName, hrest⟩

include hg hrest

/-- The way into a data directory that was absent runs through no link. -/
theorem Fresh.straight : gs.Straight (dataPlace root ++ rest) := by
  intro front _ hf t ht
  rw [placeOf_of_own fun n hn => h.entryName_append hrest n (hf.subset hn)] at ht
  have hlink := (hg.link front t).mpr ht
  obtain hup | hdown :=
    List.prefix_or_prefix_of_prefix hf (List.prefix_append (dataPlace root) rest)
  · obtain rfl | hup := List.prefix_concat_iff.mp hup
    · cases h.absent.symm.trans hlink
    · by_cases heq : front = root
      · cases (heq ▸ h.directory).symm.trans hlink
      · cases (h.above h.directory hup heq).symm.trans hlink
  · cases (h.entry_below hdown).symm.trans hlink

variable (hw : gs.WellFormed)

include hw

theorem Fresh.eq_of_leads (hl : gs.Leads (absolute (dataPlace root ++ rest)) l) :
    l = dataPlace root ++ rest := by
  have hnames := h.entryName_append hrest
  have hplace := placeOf_of_leads hw (fun n hn => (hnames n hn).toPathName)
    (h.straight hg hrest) hl
  rwa [placeOf_of_own hnames] at hplace

omit hrest

/-- Each artifact is alone in its file. -/
theorem Fresh.alone {names : List Text} (hnames : ∀ name ∈ names, DirectoryName name)
    (hn : name ∈ names) {artifact : Text} (ha : artifact ∈ artifactNames) :
    Alone gs project names name artifact := by
  intro other ho also ha' l hl hl'
  rw [h.path_eq (hnames name hn)] at hl
  rw [h.path_eq (hnames other ho)] at hl'
  have hplace := h.eq_of_leads hg ((hnames name hn).trail ha) hw hl
  have hplace' := h.eq_of_leads hg ((hnames other ho).trail ha') hw hl'
  have hsame := List.append_cancel_left (hplace'.symm.trans hplace)
  simpa using hsame

/-- What is in the data directory is on the way to an artifact. -/
theorem Fresh.on_way {P : Path → Prop} (hadd : Added P fs gs) {names : List Text}
    (hnames : ∀ name ∈ names, DirectoryName name)
    (hP : ∀ p, P p → IsArtifact project names p ∨ ∀ l, gs.Passes p l → ¬ dataPlace root <+: l)
    (hl : dataPlace root <+: l) (hsome : gs.entry? l ≠ none) :
    ∃ name ∈ names, ∃ artifact ∈ artifactNames, l <+: dataPlace root ++ [name, artifact] := by
  rw [← h.entry_below hl] at hsome
  obtain ⟨p, hp, hpass⟩ := hadd.passed l hsome
  obtain ⟨name, hn, artifact, ha, rfl⟩ | hout := hP p hp
  · rw [h.path_eq (hnames name hn)] at hpass
    have htrail := (hnames name hn).trail ha
    exact ⟨name, hn, artifact, ha,
      prefix_of_passes hw (h.entryName_append htrail) (h.straight hg htrail) hpass⟩
  · exact absurd hl (hout l hpass)

end

/-! ### Listing the data directory -/

/-- The records below directories that belong to plugins are those in each of them. -/
theorem recordsBelow_map {fs : Files} {kind : ReportKind} {plugins : Option Value}
    {dir : Text → Path} {records : Text → List (List (Text × Json))} {names : List Text}
    (h : ∀ name ∈ names, Ledger.belongsTo fs plugins (dir name) = .ok true ∧
      Ledger.pluginRecords fs kind (dir name) = .ok (records name)) :
    Ledger.recordsBelow fs kind plugins (names.map dir) = .ok (names.flatMap records) := by
  induction names with
  | nil => rfl
  | cons name rest ih =>
    obtain ⟨hbelongs, hrecords⟩ := h name (by simp)
    rw [List.map_cons, Ledger.recordsBelow, hbelongs, ih fun n hn => h n (by simp [hn])]
    simp only [bind, Except.bind, if_true, hrecords]
    rfl

/-- A data directory that a run has made: it holds the directories of some plugins, and in them the
documents of their errors and of their warnings. -/
structure Stocked (gs : Files) (project : Project) (root : Location) (names : List Text)
    (document : ReportKind → Text → Json) : Prop where
  holds : ∀ kind, ∀ name ∈ names, gs.HoldsDocument
    ((project.pluginDir name).child (Ledger.fileName kind)) (document kind name)
  only : ∀ l, dataPlace root <+: l → gs.entry? l ≠ none →
    ∃ name ∈ names, ∃ artifact ∈ artifactNames, l <+: dataPlace root ++ [name, artifact]
  distinct : (Assoc.keys gs.entries).Nodup

section

variable {fs gs : Files} {project : Project} {root : Location} (h : Fresh fs project root)
  (hg : fs.Grows gs) (hw : gs.WellFormed) {names : List Text}
  (hnames : ∀ name ∈ names, DirectoryName name) {document : ReportKind → Text → Json}
  (hs : Stocked gs project root names document)

include h hg hw hnames hs

/-- A plugin has a directory, whose path can be looked up. -/
theorem Stocked.directory (hn : name ∈ names) :
    Fits (dataPlace root ++ [name]) ∧
      gs.entry? (dataPlace root ++ [name]) = some .directory := by
  obtain ⟨l, hl, hc⟩ := hs.holds .error name hn
  have ha : Ledger.fileName .error ∈ artifactNames := by decide
  rw [h.path_eq (hnames name hn)] at hl
  have htrail := (hnames name hn).trail ha
  have hplace := h.eq_of_leads hg htrail hw hl
  have hfront : dataPlace root ++ [name] <+: dataPlace root ++ [name, Ledger.fileName .error] :=
    (List.prefix_append_right_inj _).mpr (by simp)
  constructor
  · obtain ⟨e, he⟩ := hl
    have hpath := fun n hn => (h.entryName_append htrail n hn).toPathName
    have hfits : Fits (dataPlace root ++ [name, Ledger.fileName .error]) := by
      by_contra hnot
      rw [locate_of_not_fits hpath hnot] at he
      cases he
    exact hfits.front hfront
  · rw [contentAt?_eq_some, hplace] at hc
    exact hw.above hc hfront (by simp)

/-- The data directory lists the plugins. -/
theorem Stocked.perm_children (hnodup : names.Nodup) :
    (gs.children (dataPlace root)).Perm names := by
  refine (List.perm_ext_iff_of_nodup (nodup_children hs.distinct _) hnodup).mpr fun name => ?_
  rw [mem_children]
  constructor
  · intro hsome
    obtain ⟨other, ho, artifact, -, hfront⟩ :=
      hs.only _ (List.prefix_append _ _) (Option.isSome_iff_ne_none.mp hsome)
    rw [List.prefix_append_right_inj, List.cons_prefix_cons] at hfront
    rwa [hfront.1]
  · intro hn
    rw [(hs.directory h hg hw hnames hn).2]
    rfl

/-- The records of a plugin are found in its directory. -/
theorem Stocked.pluginRecords (hn : name ∈ names) {kind : ReportKind}
    (hlegible : Json.Legible Json.maxDepth (document kind name)) :
    Ledger.belongsTo gs none (absolute (dataPlace root ++ [name])) = .ok true ∧
      Ledger.pluginRecords gs kind (absolute (dataPlace root ++ [name])) =
        .ok (Ledger.recordsIn (document kind name).joined) := by
  have hone : ∀ n ∈ [name], EntryName n :=
    List.forall_mem_singleton.mpr (hnames name hn).toEntryName
  have hown := h.entryName_append hone
  constructor
  · obtain ⟨hfits, hdir⟩ := hs.directory h hg hw hnames hn
    have hisdir := isDirectory_straight hw (fun n hn => (hown n hn).toPathName)
      (h.straight hg hone) hfits
    rw [placeOf_of_own hown, hdir] at hisdir
    have hlast : (absolute (dataPlace root ++ [name])).name = name := by
      simp [absolute, Path.name]
    have hname : (name == Project.digestDirName) = false :=
      beq_false_of_ne (hnames name hn).ne_digestDirName
    rw [Ledger.belongsTo, hisdir, hlast, hname]
    rfl
  · have hbytes := (hs.holds kind name hn).readBytes hw
    rw [h.path_eq (hnames name hn)] at hbytes
    have hpath : (absolute (dataPlace root ++ [name])).child (Ledger.fileName kind) =
        absolute (dataPlace root ++ [name, Ledger.fileName kind]) := by
      simp [absolute, Path.child]
    rw [Ledger.pluginRecords, hpath, isPresent_of_readBytes hbytes]
    simp only [bind, Except.bind, if_true, Ledger.readRecords,
      readJson_of_readBytes hbytes hlegible]

/-- The records of a level are those that the plugins left behind, plugin by plugin in the order of
their names. -/
theorem Stocked.loadReports (hnodup : names.Nodup) (kind : ReportKind)
    (hlegible : ∀ name ∈ names, Json.Legible Json.maxDepth (document kind name)) :
    Ledger.loadReports gs project.root (.str kind.name) none =
      .ok ((sortTexts names).flatMap fun name =>
        Ledger.recordsIn (document kind name).joined) := by
  have hkind : ReportKind.ofValue (.configuration (.reportLevel (.str kind.name)))
      (.str kind.name) = .ok kind := by
    cases kind with
    | error => rfl
    | warning => rfl
  have hpath := fun n hn => (h.entryName n hn).toPathName
  have hstraight : gs.Straight (dataPlace root) := by
    simpa using h.straight hg (by simp : ∀ n ∈ ([] : List Text), EntryName n)
  have hfront : root <+: dataPlace root := List.prefix_append _ _
  have hresolve : gs.resolve project.root = .ok (absolute root) := by
    rw [h.root_eq]
    exact resolve_straight hw (fun n hn => hpath n (hfront.subset hn)) (hstraight.front hfront)
  have hdata : (absolute root).child Project.dataDirName = absolute (dataPlace root) := rfl
  have hisdir := isDirectory_straight hw hpath hstraight h.fits
  rw [placeOf_of_own h.entryName] at hisdir
  unfold Ledger.loadReports
  simp only [hkind, hresolve, hdata, hisdir, bind, Except.bind]
  cases hempty : names with
  | nil =>
    -- Without plugins no data directory was made.
    have hnone : gs.entry? (dataPlace root) = none := by
      by_contra hsome
      obtain ⟨name, hn, -⟩ := hs.only _ (List.prefix_refl _) hsome
      simp [hempty] at hn
    rw [hnone]
    rfl
  | cons first others =>
    have hdir : gs.entry? (dataPlace root) = some .directory := by
      obtain ⟨-, hdir⟩ := hs.directory h hg hw hnames (by simp [hempty] : first ∈ names)
      exact hw.above hdir (List.prefix_append _ _) (by simp)
    have hlist : gs.list (absolute (dataPlace root)) =
        .ok ((gs.children (dataPlace root)).map (absolute (dataPlace root)).child) := by
      have hlocate := locate_of_present hw hpath hstraight .follow h.fits
        (by rw [placeOf_of_own h.entryName, hdir])
      rw [placeOf_of_own h.entryName] at hlocate
      rw [Files.list, directoryAt, hlocate]
      rfl
    rw [hdir, ← hempty]
    simp only [Option.any_some, Entry.isDirectory, Bool.not_true, Bool.false_eq_true, if_false,
      hlist, sort_children _ (hs.perm_children h hg hw hnames hnodup)]
    refine recordsBelow_map fun name hn => ?_
    have hmem := mem_sortTexts.mp hn
    exact hs.pluginRecords h hg hw hnames hmem (hlegible name hmem)

end

end Pipeline

end RoutePlugins
