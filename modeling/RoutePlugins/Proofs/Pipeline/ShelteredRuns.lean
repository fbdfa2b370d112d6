import RoutePlugins.Proofs.Digest.Directory
import RoutePlugins.Proofs.Digest.GateSteps
import RoutePlugins.Proofs.Ledger.DataListing
import RoutePlugins.Proofs.Pipeline.HookFailures

/-!
# Runs that stay in the data directory

A gated run that is not to write files changes nothing outside the data directory: it writes the
digest and the artifacts, and removes the digest if it fails. Where the data directory is the
project's own, this keeps it so, and it does not change the digest of the project. So the next call
finds the digest that was left, and skips the run, unless it was removed.
-/

namespace RoutePlugins

variable {c : Bytes}

namespace Files

/-- Two file systems differ at most at a place and below it. -/
structure SameOutside (place : Location) (fs gs : Files) : Prop where
  working : gs.workingDirectory = fs.workingDirectory
  same : ∀ l, ¬ place <+: l → gs.entry? l = fs.entry? l

theorem SameOutside.refl (place : Location) (fs : Files) : SameOutside place fs fs :=
  ⟨rfl, fun _ _ => rfl⟩

theorem SameOutside.trans {place : Location} {fs gs ks : Files} (h : SameOutside place fs gs)
    (h' : SameOutside place gs ks) : SameOutside place fs ks :=
  ⟨h'.working.trans h.working, fun l hl => (h'.same l hl).trans (h.same l hl)⟩

theorem Tidy.without {fs : Files} (h : fs.Tidy) {l : Location} (hl : fs.entry? l = some (.file c)) :
    (fs.without l).Tidy := by
  have hsub : (Assoc.keys (fs.without l).entries).Sublist (Assoc.keys fs.entries) :=
    List.filter_sublist.map _
  exact ⟨wellFormed_without h.toWellFormed hl, h.distinct.sublist hsub,
    fun place hp => h.named place (hsub.subset hp)⟩

end Files

namespace Pipeline

open World Files Gate

/-- A project whose data directory is its own: nothing on the way to the digest of its runs and to
the artifacts of its plugins is a link, and a directory that is not there can be made. What counts
towards the digest of the project is no link either. -/
structure Sheltered (fs : Files) (r : Setup) (root : Location) : Prop extends Tidy fs where
  root_eq : r.project.root = absolute root
  directory : fs.entry? root = some .directory
  walkable : Digest.Walkable fs r.project root
  usable : UsableKey root pluginsDigestKey
  way : fs.Open (digestPlace root)
  digest : (fs.entry? (digestPlace root ++ [fileName pluginsDigestKey])).all Entry.isFile = true
  plugins : ∀ name ∈ r.names, DirectoryName name
  owns : OwnsArtifacts fs root r.names

namespace Sheltered

variable {r : Setup} {root : Location}

section

variable {fs gs : Files} (h : Sheltered fs r root)

include h

theorem entryName : ∀ n ∈ root, EntryName n := h.toTidy.entryName h.directory

theorem entryName_data {rest : List Text} (hrest : ∀ n ∈ rest, EntryName n) :
    ∀ n ∈ dataPlace root ++ rest, EntryName n := by
  have hdata : EntryName Project.dataDirName := by decide
  intro n hn
  rw [dataPlace, List.append_assoc, List.mem_append, List.singleton_append, List.mem_cons] at hn
  obtain hn | rfl | hn := hn
  · exact h.entryName n hn
  · exact hdata
  · exact hrest n hn

/-- The digest is in its file, or nowhere. -/
theorem stored : ∃ content, Stored root pluginsDigestKey content fs := by
  have hfile := h.digest
  cases he : fs.entry? (digestPlace root ++ [fileName pluginsDigestKey]) with
  | none => exact ⟨none, h.toWellFormed, h.way, he⟩
  | some e =>
    rw [he] at hfile
    cases e with
    | file c => exact ⟨some c, h.toWellFormed, h.way, he⟩
    | directory => cases hfile
    | link t => cases hfile

theorem open_data : (fs.entry? (dataPlace root)).all Entry.isDirectory = true :=
  h.way _ (digestPlace_eq root ▸ List.prefix_append _ _)

/-- What is hidden in the data directory does not change the digest of the project. -/
theorem digest_eq (h' : Sheltered gs r root) (hs : SameOutside (dataPlace root) fs gs) :
    Digest.ofDirectory Sha256.hexText gs r.project none =
      Digest.ofDirectory Sha256.hexText fs r.project none := by
  have hbehind : Digest.DifferBehind r.project root fs gs :=
    Digest.differBehind_dataDir hs.same h.open_data h'.open_data
  have hdir : (none : Option Path).getD r.project.root = absolute root := h.root_eq
  rw [
    Digest.ofDirectory_eq h'.toTidy h.root_eq (List.prefix_refl _) h'.directory h'.walkable _ hdir,
    Digest.ofDirectory_eq h.toTidy h.root_eq (List.prefix_refl _) h.directory h.walkable _ hdir,
    hbehind.contents_eq h.toTidy h'.toTidy]

/-- The data directory stays the project's own while nothing is written but through straight paths
into it, if its digest stays a file. -/
theorem later {P : Path → Prop} (hadd : Added P fs gs)
    (hP : ∀ p, P p → ∃ rest, p = absolute (dataPlace root ++ rest) ∧ (∀ n ∈ rest, EntryName n) ∧
      gs.Straight (dataPlace root ++ rest))
    {content : Option Bytes} (hstored : Stored root pluginsDigestKey content gs) :
    Sheltered gs r root ∧ SameOutside (dataPlace root) fs gs := by
  have hstraight : ∀ p, P p → ∃ names, p = absolute names ∧ (∀ n ∈ names, EntryName n) ∧
      gs.Straight names := by
    intro p hp
    obtain ⟨rest, rfl, hrest, hs⟩ := hP p hp
    exact ⟨_, rfl, h.entryName_data hrest, hs⟩
  have htidy := hadd.tidy h.toTidy hstraight
  have hsame : SameOutside (dataPlace root) fs gs := by
    refine ⟨hadd.grows.working, fun l hl => ?_⟩
    by_contra hne
    obtain ⟨names, hp, -, hf⟩ := hadd.on_straight_way hstraight hne
    obtain ⟨rest, hnames, -⟩ := hP _ hp
    have hnames : names = dataPlace root ++ rest := congrArg Path.names hnames
    rw [hnames] at hf
    -- A place on the way that is not in the data directory is the root or above it.
    have hup : l <+: root := by
      obtain hup | hdown := List.prefix_or_prefix_of_prefix hf (List.prefix_append _ rest)
      · obtain rfl | hup := List.prefix_concat_iff.mp hup
        · exact absurd (List.prefix_refl _) hl
        · exact hup
      · exact absurd hdown hl
    have hdir : fs.entry? l = some .directory := by
      by_cases heq : l = root
      · rw [heq, h.directory]
      · exact h.above h.directory hup heq
    exact hne ((hadd.grows.directory l hdir).trans hdir.symm)
  have hdata : (gs.entry? (dataPlace root)).all Entry.isDirectory = true :=
    hstored.way _ (digestPlace_eq root ▸ List.prefix_append _ _)
  have hbehind : Digest.DifferBehind r.project root fs gs :=
    Digest.differBehind_dataDir hsame.same h.open_data hdata
  refine ⟨⟨htidy, h.root_eq, hbehind.entry_here.trans h.directory, hbehind.walkable h.walkable,
    h.usable, hstored.way, ?_, h.plugins, h.owns.grows hadd.grows⟩, hsame⟩
  rw [hstored.entry]
  cases content with
  | none => rfl
  | some c => rfl

/-- The data directory is the project's own without its digest too. -/
theorem without
    (hc : fs.entry? (digestPlace root ++ [fileName pluginsDigestKey]) = some (.file c)) :
    Sheltered (fs.without (digestPlace root ++ [fileName pluginsDigestKey])) r root ∧
      SameOutside (dataPlace root) fs
        (fs.without (digestPlace root ++ [fileName pluginsDigestKey])) := by
  have hentry := @entry_without fs (digestPlace root ++ [fileName pluginsDigestKey]) (by simp)
  have hin : dataPlace root <+: digestPlace root ++ [fileName pluginsDigestKey] :=
    ⟨[Project.digestDirName, fileName pluginsDigestKey], by simp [dataPlace, digestPlace]⟩
  have hsame : SameOutside (dataPlace root) fs
      (fs.without (digestPlace root ++ [fileName pluginsDigestKey])) := by
    refine ⟨rfl, fun l hl => ?_⟩
    rw [hentry, if_neg]
    rintro rfl
    exact hl hin
  have hway : (fs.without (digestPlace root ++ [fileName pluginsDigestKey])).Open
      (digestPlace root) := by
    intro l hl
    have hl' := h.way l hl
    rw [hentry]
    split
    · rfl
    · exact hl'
  have hbehind : Digest.DifferBehind r.project root fs _ :=
    Digest.differBehind_dataDir hsame.same h.open_data
      (hway _ (digestPlace_eq root ▸ List.prefix_append _ _))
  refine ⟨⟨h.toTidy.without hc, h.root_eq, hbehind.entry_here.trans h.directory,
    hbehind.walkable h.walkable, h.usable, hway, ?_, h.plugins,
    fun name hn a ha front hf hp t ht => ?_⟩, hsame⟩
  · rw [hentry, if_pos rfl]
    rfl
  · rw [hentry] at ht
    split at ht
    · cases ht
    · exact h.owns name hn a ha front hf hp t ht

/-- The artifacts of the plugins are reached without links. -/
theorem straight_artifacts (hg : fs.Grows gs) {p : Path} (hp : IsArtifact r.project r.names p) :
    ∃ name ∈ r.names, ∃ artifact ∈ artifactNames,
      p = absolute (dataPlace root ++ [name, artifact]) ∧ (∀ n ∈ [name, artifact], EntryName n) ∧
      gs.Straight (dataPlace root ++ [name, artifact]) := by
  obtain ⟨name, hn, artifact, ha, rfl⟩ := hp
  have hname := h.plugins name hn
  have htrail := hname.trail ha
  refine ⟨name, hn, artifact, ha, ?_, htrail, fun front _ hf t ht => ?_⟩
  · rw [r.project.pluginDir_child hname.isName, h.root_eq]
    simp [absolute, dataPlace]
  have hnames : ∀ n ∈ front, EntryName n := fun n hm => h.entryName_data htrail n (hf.subset hm)
  rw [placeOf_of_own hnames] at ht
  have hlink := (hg.link front t).mpr ht
  have hdata : dataPlace root ++ [name, artifact] = root ++ artifactTrail name artifact := by
    simp [dataPlace, artifactTrail]
  rw [hdata] at hf
  obtain hup | ⟨rest, rfl⟩ := List.prefix_or_prefix_of_prefix hf (List.prefix_append root _)
  · by_cases heq : front = root
    · cases (heq ▸ h.directory).symm.trans hlink
    · cases (h.above h.directory hup heq).symm.trans hlink
  · have hrest : rest <+: artifactTrail name artifact := (List.prefix_append_right_inj _).mp hf
    by_cases hnil : rest = []
    · rw [hnil, List.append_nil, h.directory] at hlink
      cases hlink
    · have hown : rest.map Text.asName = rest := placeOf_of_own fun n hm => hnames n (by simp [hm])
      exact h.owns name hn artifact ha rest hnil hrest t (hown.symm ▸ hlink)

end

/-! ### What a gated run leaves -/

section

variable {w w1 : World} (h : Sheltered w.files r root)

include h

/-- When the gate begins, the digest of the project is in its file. -/
theorem begins (hb : Begins r.project pluginsDigestKey none w w1) :
    ∃ current, Digest.ofDirectory Sha256.hexText w.files r.project none = .ok current ∧
      Stored root pluginsDigestKey (some (Utf8.encodeChars current.toList)) w1.files ∧
      Sheltered w1.files r root ∧ SameOutside (dataPlace root) w.files w1.files := by
  obtain ⟨current, last, p, hc, -, -, hp, hwrite⟩ := hb
  obtain ⟨content, hcontent⟩ := h.stored
  cases hp.symm.trans (digestPath_of_usable h.root_eq h.usable)
  have hwrite := Run.changeFiles_eq_ok hwrite
  obtain ⟨gs, hgs, hstored, -⟩ := hcontent.writes h.root_eq h.entryName h.usable current
  cases hgs.symm.trans hwrite
  have hadd : Added (· = absolute (digestPlace root ++ [pluginsDigestKey ++ ".txt"])) w.files
      w1.files :=
    (adds_writeText (P := (· = absolute _)) _ rfl _).of_ok hwrite h.toWellFormed
  refine ⟨current, hc, hstored, h.later hadd (fun q hq => ?_) hstored⟩
  have hsplit : digestPlace root ++ [pluginsDigestKey ++ ".txt"] =
      dataPlace root ++ [Project.digestDirName, pluginsDigestKey ++ ".txt"] := by
    simp [digestPlace, dataPlace]
  refine ⟨[Project.digestDirName, pluginsDigestKey ++ ".txt"], hsplit ▸ hq, by decide, ?_⟩
  rw [← hsplit]
  exact (hstored.clear h.entryName).straight

/-- A run that is not to write files leaves the digest where it is. -/
theorem runs (hoff : r.writesFiles = false) (hc : Stored root pluginsDigestKey (some c) w.files) :
    Stored root pluginsDigestKey (some c) (endState (r.run w)).files ∧
      Sheltered (endState (r.run w)).files r root ∧
      SameOutside (dataPlace root) w.files (endState (r.run w)).files := by
  have hadd : Added (IsArtifact r.project r.names) w.files (endState (r.run w)).files := by
    let R := OnFiles (Adds (IsArtifact r.project r.names))
    have hR : R w (endState (r.run w)) :=
      moves_of_run (fun _ _ hsame => OnFiles.of_sameSources hsame)
        (fun name hn artifact ha v => Run.moves_changeFiles
          (adds_writeValue _ ⟨name, hn, artifact, ha, rfl⟩ v)) (by simp [hoff])
    exact hR h.toWellFormed
  have hstraight {p : Path} := h.straight_artifacts hadd.grows (p := p)
  have hstored : Stored root pluginsDigestKey (some c) (endState (r.run w)).files := by
    refine ⟨hadd.wellFormed, fun l hl => ?_, ?_⟩
    · have hdir : w.files.entry? l = some .directory :=
        h.above hc.entry (hl.trans (List.prefix_append _ _))
          fun heq => not_prefix_of_concat _ _ (heq ▸ hl)
      rw [hadd.grows.directory l hdir]
      rfl
    · rw [← hc.entry]
      by_contra hne
      obtain ⟨names, hp, -, hf⟩ := hadd.on_straight_way (fun p hp => by
        obtain ⟨name, -, artifact, -, rfl, htrail, hs⟩ := hstraight hp
        exact ⟨_, rfl, h.entryName_data htrail, hs⟩) hne
      obtain ⟨name, hn, artifact, -, hnames, -⟩ := hstraight hp
      have hnames : names = dataPlace root ++ [name, artifact] := congrArg Path.names hnames
      rw [hnames, digestPlace_eq, List.append_assoc, ← dataPlace,
        List.prefix_append_right_inj] at hf
      exact (h.plugins name hn).ne_digestDirName (List.cons_prefix_cons.mp hf).1.symm
  refine ⟨hstored, h.later hadd (fun p hp => ?_) hstored⟩
  obtain ⟨name, -, artifact, -, hrest⟩ := hstraight hp
  exact ⟨[name, artifact], hrest⟩

/-! ### Two calls in a row -/

/-- A gate that does not begin leaves the world as it is: it skips the run, or fails. Over the same
files it does so again. -/
theorem repeats_of_not_begins (hb : ¬ ∃ w1, Begins r.project pluginsDigestKey none w w1) :
    (∀ w', w'.files = w.files →
      runIfChanged r.project pluginsDigestKey r.run none w' = .ok none w') ∨
    ∃ e, ∀ w', w'.files = w.files →
      runIfChanged r.project pluginsDigestKey r.run none w' = .error e w' := by
  obtain ⟨content, hcontent⟩ := h.stored
  cases hc : Digest.ofDirectory Sha256.hexText w.files r.project none with
  | error e => exact .inr ⟨e, fun w' hw' => runIfChanged_of_error r.run (hw' ▸ hc)⟩
  | ok current =>
    cases hlast : lastDigest w.files r.project pluginsDigestKey with
    | error e =>
      refine .inr ⟨e, fun w' hw' => ?_⟩
      unfold runIfChanged
      rw [← hw'] at hc hlast
      rw [bind_of_ok (Run.onFiles_of_ok hc)]
      exact bind_of_error (Run.onFiles_of_error hlast)
    | ok last =>
      by_cases hsame : last = some (current : Text)
      · refine .inl fun w' hw' => ?_
        unfold runIfChanged
        rw [← hw'] at hc hlast
        rw [bind_of_ok (Run.onFiles_of_ok hc), bind_of_ok (Run.onFiles_of_ok hlast),
          if_pos (by simpa using hsame)]
        rfl
      · -- Nothing hinders the digest from being written, so the gate begins.
        obtain ⟨gs, hgs, -⟩ := hcontent.writes h.root_eq h.entryName h.usable current
        exact absurd ⟨_, current, last, _, hc, hlast, hsame,
          digestPath_of_usable h.root_eq h.usable, Run.changeFiles_of_ok hgs⟩ hb

/-- After a run that began and did not fail otherwise than by an interruption, the gate skips the
run, whether it was committed or not. -/
theorem skips_after (hoff : r.writesFiles = false)
    (hb : Begins r.project pluginsDigestKey none w w1) {w' : World}
    (hw' : w'.files = (endState (r.run w1)).files) :
    Sheltered w'.files r root ∧ SameOutside (dataPlace root) w.files w'.files ∧
      runIfChanged r.project pluginsDigestKey r.run none w' = .ok none w' := by
  obtain ⟨current, hc, hstored, hsheltered, hsame⟩ := h.begins hb
  obtain ⟨hstored', hsheltered', hsame'⟩ := hsheltered.runs hoff hstored
  rw [← hw'] at hstored' hsheltered' hsame'
  have hc' := h.digest_eq hsheltered' (hsame.trans hsame')
  have hlast := hstored'.lastDigest_some h.root_eq h.entryName h.usable
    (Digest.isHex_of_ofDirectory hc)
  refine ⟨hsheltered', hsame.trans hsame', ?_⟩
  unfold runIfChanged
  rw [bind_of_ok (Run.onFiles_of_ok (hc'.trans hc)), bind_of_ok (Run.onFiles_of_ok hlast),
    if_pos (by simp)]
  rfl

/-- After a run that began and failed, the digest is forgotten, and the gate begins again. If no
digest was remembered before and the run failed in a phase, it begins over the same files. -/
theorem begins_after (hoff : r.writesFiles = false)
    (hb : Begins r.project pluginsDigestKey none w w1) {e : Fault} {w2 : World}
    (hrun : r.run w1 = .error e w2) (he : e.isInterruption = false) :
    ∃ w3, runIfChanged r.project pluginsDigestKey r.run none w = .error e w3 ∧
      Sheltered w3.files r root ∧ SameOutside (dataPlace root) w.files w3.files ∧
      lastDigest w3.files r.project pluginsDigestKey = .ok none ∧
      ∀ w', w'.files = w3.files → ∃ w1', Begins r.project pluginsDigestKey none w' w1' ∧
        (lastDigest w.files r.project pluginsDigestKey = .ok none → w2.files = w1.files →
          w1'.files = w1.files) := by
  obtain ⟨current, hc, hstored, hsheltered, hsame⟩ := h.begins hb
  have hend : endState (r.run w1) = w2 := by rw [hrun]; rfl
  have hleft := hsheltered.runs hoff hstored
  rw [hend] at hleft
  obtain ⟨hstored2, hsheltered2, hsame2⟩ := hleft
  obtain ⟨hforget, hgone⟩ := hstored2.forgets_some h.root_eq h.entryName h.usable
  obtain ⟨hsheltered3, hsame3⟩ := hsheltered2.without hstored2.entry
  have hsame' := (hsame.trans hsame2).trans hsame3
  have hlast := hgone.lastDigest_none h.root_eq h.entryName h.usable
  refine ⟨_, hb.fails hrun he hforget, hsheltered3, hsame', hlast, fun w' hw' => ?_⟩
  have hc' := (h.digest_eq hsheltered3 hsame').trans hc
  obtain ⟨gs, hgs, -⟩ := hgone.writes h.root_eq h.entryName h.usable current
  have hpath := digestPath_of_usable h.root_eq h.usable
  have hgate : Begins r.project pluginsDigestKey none w' { w' with files := gs } := by
    change w'.files = w2.files.without _ at hw'
    rw [← hw'] at hgs hlast hc'
    exact ⟨current, none, _, hc', hlast, by simp, hpath, Run.changeFiles_of_ok hgs⟩
  refine ⟨_, hgate, fun hnone hfiles => ?_⟩
  obtain ⟨content, hcontent⟩ := h.stored
  cases hcontent.content_eq_none h.root_eq h.entryName h.usable hnone
  obtain ⟨current', -, p, hcurrent, -, -, hp, hwrite⟩ := hb
  cases hc.symm.trans hcurrent
  cases hp.symm.trans hpath
  have hagain := hcontent.writes_again h.root_eq h.entryName h.usable
    (Run.changeFiles_eq_ok hwrite)
  rw [← hfiles] at hagain
  cases hgs.symm.trans hagain
  exact hfiles

end

end Sheltered

end Pipeline

end RoutePlugins
