import RoutePlugins.Cli.Execute
import RoutePlugins.Proofs.Pipeline.ShelteredRuns

/-!
# Loading a project again

A project is loaded from a few files below its root, none of which is in its data directory. So a
command that runs after another finds the same project, whatever the first has left in the data
directory, as long as no link leads from those files into it.
-/

namespace RoutePlugins

namespace Files

section

variable {place : Location} {fs gs : Files} (hs : SameOutside place fs gs) (hwf : fs.WellFormed)
  (hwf' : gs.WellFormed) {names : List Text} (hn : ∀ n ∈ names, EntryName n)
  (hstraight : fs.Straight names) (hout : ¬ place <+: names)

include hs

/-- What is on the way to a place outside is the same. -/
theorem SameOutside.front {names front : List Text} (hout : ¬ place <+: names)
    (hf : front <+: names) : gs.entry? front = fs.entry? front :=
  hs.same front fun hp => hout (hp.trans hf)

include hn hstraight hout

theorem SameOutside.straight : gs.Straight names := by
  intro front hne hf t ht
  have hown : placeOf front = front := placeOf_of_own fun n hm => hn n (hf.subset hm)
  rw [hown, hs.front hout hf, ← hown] at ht
  exact hstraight front hne hf t ht

include hwf hwf'

/-- Whether something is found at a straight path that leads outside, and what, is the same. -/
theorem SameOutside.found (q : Entry → Bool) :
    foundWith q (gs.stat (absolute names)) = foundWith q (fs.stat (absolute names)) := by
  have hpath (n : Text) (hm : n ∈ names) : PathName n := (hn n hm).toPathName
  by_cases hf : Fits names
  · rw [foundWith_straight hwf' hpath (hs.straight hn hstraight hout) hf,
      foundWith_straight hwf hpath hstraight hf, placeOf_of_own hn,
      hs.front hout (List.prefix_refl _)]
  · rw [stat, stat, locate_of_not_fits hpath hf gs, locate_of_not_fits hpath hf fs]

theorem SameOutside.stat (hp : fs.isPresent (absolute names) = .ok true) :
    gs.stat (absolute names) = fs.stat (absolute names) := by
  have hpath (n : Text) (hm : n ∈ names) : PathName n := (hn n hm).toPathName
  by_cases hf : Fits names
  · rw [isPresent_straight hwf hpath hstraight hf] at hp
    obtain ⟨e, he⟩ := Option.isSome_iff_exists.mp (Except.ok.inj hp)
    rw [stat_of_present hwf hpath hstraight hf he]
    rw [placeOf_of_own hn, ← hs.front hout (List.prefix_refl _)] at he
    exact stat_of_present hwf' hpath (hs.straight hn hstraight hout) hf
      ((placeOf_of_own hn).symm ▸ he)
  · rw [Files.stat, Files.stat, locate_of_not_fits hpath hf gs, locate_of_not_fits hpath hf fs]

end

end Files

namespace Project

open Files Pipeline

/-- The names of app directories, from the root. -/
def appNames : List (List Text) := [["src", "app"], ["app"]]

/-- The names of framework configuration files, from the root. -/
def configNames : List (List Text) :=
  nextConfigKinds.map fun kind => [("next.config." : Text) ++ kind]

/-- The names, from the root, at which a project is looked for and loaded. -/
def loadedNames : List (List Text) :=
  ["tsconfig.json"] :: ["jsconfig.json"] :: [".gitignore"] :: (appNames ++ configNames)

/-- Nothing at which a project is looked for and loaded is a link. -/
def LoadsOwn (fs : Files) (root : Location) : Prop :=
  ∀ rest ∈ loadedNames, ∀ front ∈ rest.inits, ∀ t, fs.entry? (root ++ front) ≠ some (.link t)

instance (fs : Files) (root : Location) : Decidable (LoadsOwn fs root) :=
  inferInstanceAs (Decidable (∀ rest ∈ loadedNames, ∀ front ∈ rest.inits, ∀ _, _))

section

variable {root : Location} {fs gs : Files} (ht : fs.Tidy) (hd : fs.entry? root = some .directory)
  (hown : LoadsOwn fs root) (ht' : gs.Tidy) (hs : SameOutside (dataPlace root) fs gs)

include ht hd

variable {rest : List Text}

theorem entryName_loaded (hm : rest ∈ loadedNames) : ∀ n ∈ root ++ rest, EntryName n := by
  have hnames : ∀ rest ∈ loadedNames, ∀ n ∈ rest, EntryName n := by decide
  exact List.forall_mem_append.mpr ⟨ht.entryName hd, hnames rest hm⟩

include hown

theorem straight_loaded (hm : rest ∈ loadedNames) : fs.Straight (root ++ rest) := by
  intro front _ hf t hlink
  rw [placeOf_of_own fun n hn => entryName_loaded ht hd hm n (hf.subset hn)] at hlink
  obtain hup | ⟨mid, rfl⟩ := List.prefix_or_prefix_of_prefix hf (List.prefix_append root rest)
  · by_cases heq : front = root
    · cases (heq ▸ hd).symm.trans hlink
    · cases (ht.above hd hup heq).symm.trans hlink
  · have hmid : mid <+: rest := (List.prefix_append_right_inj _).mp hf
    exact hown rest hm mid ((List.mem_inits _ _).mpr hmid) t hlink

omit ht hd hown in
theorem outside_loaded (hm : rest ∈ loadedNames) : ¬ dataPlace root <+: root ++ rest := by
  have hfirst : ∀ rest ∈ loadedNames, ¬ [dataDirName] <+: rest := by decide
  intro hp
  exact hfirst rest hm ((List.prefix_append_right_inj _).mp hp)

include ht' hs

theorem found_loaded (hm : rest ∈ loadedNames) (q : Entry → Bool) :
    foundWith q (gs.stat (absolute (root ++ rest))) =
      foundWith q (fs.stat (absolute (root ++ rest))) :=
  hs.found ht.toWellFormed ht'.toWellFormed (entryName_loaded ht hd hm)
    (straight_loaded ht hd hown hm) (outside_loaded hm) q

theorem readBytes_loaded (hm : rest ∈ loadedNames)
    (hp : fs.isPresent (absolute (root ++ rest)) = .ok true) :
    gs.readBytes (absolute (root ++ rest)) = fs.readBytes (absolute (root ++ rest)) := by
  rw [readBytes, readBytes, hs.stat ht.toWellFormed ht'.toWellFormed (entryName_loaded ht hd hm)
    (straight_loaded ht hd hown hm) (outside_loaded hm) hp]

theorem aliases_loaded : Aliases.load gs (absolute root) = Aliases.load fs (absolute root) := by
  have hmem : ∀ name ∈ Aliases.fileNames, [name] ∈ loadedNames := by decide
  have hfind : (Aliases.fileNames.findM? fun name => gs.isPresent ((absolute root).child name)) =
      Aliases.fileNames.findM? fun name => fs.isPresent ((absolute root).child name) :=
    findM?_congr fun name hn => found_loaded ht hd hown ht' hs (hmem name hn) _
  unfold Aliases.load
  rw [hfind]
  cases hf : Aliases.fileNames.findM? fun name => fs.isPresent ((absolute root).child name) with
  | error e => rfl
  | ok found =>
    cases found with
    | none => rfl
    | some name =>
      obtain ⟨hn, hpresent⟩ := mem_of_findM? hf
      have hread : gs.readText ((absolute root).child name) =
          fs.readText ((absolute root).child name) := by
        rw [readText, readText]
        exact congrArg (· >>= textOf) (readBytes_loaded ht hd hown ht' hs (hmem name hn) hpresent)
      have hdoc : Aliases.readDocument gs name ((absolute root).child name) =
          Aliases.readDocument fs name ((absolute root).child name) := by
        rw [Aliases.readDocument, Aliases.readDocument, hread]
      change (Aliases.readDocument gs name _ >>= _) = (Aliases.readDocument fs name _ >>= _)
      rw [hdoc]

/-- What is in the data directory does not change how a project is loaded. -/
theorem load_eq : load gs (absolute root) = load fs (absolute root) := by
  have hroot {ks : Files} (hk : ks.Tidy) (hkd : ks.entry? root = some .directory) :
      ks.resolve (absolute root) = .ok (absolute root) ∧ ks.Straight root := by
    have hstraight := hk.straight hkd (by simp)
    exact ⟨resolve_straight hk.toWellFormed
      (fun n hn => (hk.entryName hkd n hn).toPathName) hstraight, hstraight⟩
  have hd' : gs.entry? root = some .directory := by
    rw [hs.same root (not_prefix_of_concat _ _), hd]
  have hdirectory : gs.isDirectory (absolute root) = fs.isDirectory (absolute root) :=
    hs.found ht.toWellFormed ht'.toWellFormed (ht.entryName hd) (hroot ht hd).2
      (not_prefix_of_concat _ _) _
  have happ : findAppDir gs (absolute root) = findAppDir fs (absolute root) := by
    refine findM?_congr fun p hp => ?_
    have hpaths : ∃ rest ∈ appNames, p = absolute (root ++ rest) := by
      simpa [appNames, absolute, Path.child] using hp
    obtain ⟨rest, hrest, rfl⟩ := hpaths
    exact found_loaded ht hd hown ht' hs (by simp [loadedNames, hrest]) _
  have hignore : loadIgnoreFile gs (absolute root) = loadIgnoreFile fs (absolute root) := by
    have hm : [(".gitignore" : Text)] ∈ loadedNames := by decide
    have hpresent : gs.isPresent ((absolute root).child ".gitignore") =
        fs.isPresent ((absolute root).child ".gitignore") :=
      found_loaded ht hd hown ht' hs hm _
    unfold loadIgnoreFile
    dsimp only
    rw [hpresent]
    cases hp : fs.isPresent ((absolute root).child ".gitignore") with
    | error e => rfl
    | ok present =>
      cases present with
      | false => rfl
      | true =>
        have hread : gs.readTextSkipping ((absolute root).child ".gitignore") =
            fs.readTextSkipping ((absolute root).child ".gitignore") := by
          rw [readTextSkipping, readTextSkipping]
          exact congrArg (· >>= _) (readBytes_loaded ht hd hown ht' hs hm hp)
        change (gs.readTextSkipping _ >>= _) = (fs.readTextSkipping _ >>= _)
        rw [hread]
  unfold load
  rw [(hroot ht' hd').1, (hroot ht hd).1]
  change (gs.isDirectory (absolute root) >>= _) = (fs.isDirectory (absolute root) >>= _)
  rw [hdirectory, aliases_loaded ht hd hown ht' hs, happ, hignore]

theorem findConfig_eq : findConfig gs (absolute root) = findConfig fs (absolute root) := by
  refine findM?_congr fun p hp => ?_
  have hpaths : ∃ rest ∈ configNames, p = absolute (root ++ rest) := by
    obtain ⟨kind, hkind, rfl⟩ := List.mem_map.mp hp
    exact ⟨_, List.mem_map_of_mem hkind, rfl⟩
  obtain ⟨rest, hrest, rfl⟩ := hpaths
  exact found_loaded ht hd hown ht' hs (by simp [loadedNames, hrest]) _

end

end Project

namespace Cli

open Files Pipeline

/-- A command finds the same project whatever is in its data directory. -/
def LoadsApart (fs : Files) (root : Option Text) (project : Project) (place : Location) : Prop :=
  ∀ w : World, w.files.Tidy → SameOutside (dataPlace place) fs w.files →
    resolveProject root w = .ok project w

section

variable {fs : Files} {root : Location} {project : Project} (ht : fs.Tidy)
  (hd : fs.entry? root = some .directory) (hown : Project.LoadsOwn fs root)
  (hload : Project.load fs (absolute root) = .ok project)

include ht hd hown hload

private theorem resolve_loaded {gs : Files} (ht' : gs.Tidy)
    (hs : SameOutside (dataPlace root) fs gs) :
    gs.resolve (absolute root) = .ok (absolute root) ∧
      Project.load gs (absolute root) = .ok project := by
  have hd' : gs.entry? root = some .directory := by
    rw [hs.same root (not_prefix_of_concat _ _), hd]
  refine ⟨resolve_straight ht'.toWellFormed (fun n hn => (ht.entryName hd n hn).toPathName)
    (ht'.straight hd' (by simp)), ?_⟩
  rw [Project.load_eq ht hd hown ht' hs, hload]

/-- A project at whose root the command works, and none of whose files is a link where it is looked
for and loaded. -/
theorem loadsApart_of_working (hcwd : fs.workingDirectory = root) {config : Path}
    (hconfig : Project.findConfig fs (absolute root) = .ok (some config)) :
    LoadsApart fs none project root := by
  intro w ht' hs
  obtain ⟨hresolve, hagain⟩ := resolve_loaded ht hd hown hload ht' hs
  have hfind : Project.findRoot w.files (absolute root) = .ok (absolute root) := by
    have hself : (absolute root).selfAndParents =
        absolute root :: (absolute root).selfAndParents.tail := by
      simp [Path.selfAndParents, List.range_succ_eq_map, absolute]
    have hfirst : ((absolute root).selfAndParents.findM? fun p =>
        (Project.findConfig w.files p).map Option.isSome) = .ok (some (absolute root)) := by
      rw [hself, List.findM?, Project.findConfig_eq ht hd hown ht' hs, hconfig]
      rfl
    simp only [Project.findRoot, hresolve, bind, Except.bind, hfirst]
    rfl
  refine Run.onFiles_of_ok ?_
  simp only [Option.filter_none, hs.working, hcwd, hfind]
  exact hagain

end

end Cli

end RoutePlugins
