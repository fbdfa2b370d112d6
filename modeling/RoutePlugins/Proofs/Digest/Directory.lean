import RoutePlugins.Proofs.Digest.Eligible

/-!
# Digests of directories

The digest of a directory is made of the contents of the files that count, in their order. So it
does not change with what is at or below a directory that is not entered, the data directory among
them.
-/

namespace RoutePlugins.Digest

open Files

variable {rest : List Text}

/-- What the files hold that count. -/
def contents (fs : Files) (project : Project) (here : Location) : List Bytes :=
  (counted fs project here).map fun rest => (fs.contentAt? (here ++ rest)).getD []

/-- The digest that files with some contents have together. -/
def combined (hash : Bytes → String) (contents : List Bytes) : String :=
  if contents.isEmpty then "" else hash (Utf8.encodeChars (contents.flatMap (hash · |>.toList)))

section

variable {fs : Files} (ht : fs.Tidy) {project : Project} {root here : Location}
  (hroot : project.root = absolute root) (hr : root <+: here)
  (hd : fs.entry? here = some .directory) (hw : Walkable fs project here)

include ht hroot hr hd hw

omit hroot hr hd in
/-- The digests of the files that count are those of their contents. -/
theorem mapM_ofFile (hash : Bytes → String) :
    ((counted fs project here).map fun rest => absolute (here ++ rest)).mapM (ofFile hash fs) =
      .ok ((contents fs project here).map hash) := by
  rw [List.mapM_map, contents, List.map_map]
  refine mapM_of_ok fun rest hm => ?_
  have hcounts := (mem_counted ht.toWellFormed).mp hm
  obtain ⟨c, hc⟩ := hcounts.file
  have hnames := ht.entryName hc
  have hstat := stat_of_present ht.toWellFormed (fun n hn => (hnames n hn).toPathName)
    (ht.straight hc (by simp)) (hw.fits rest hcounts.entered c hc)
    (by rw [placeOf_of_own hnames, hc])
  simp only [Function.comp_apply, ofFile, readBytes, hstat, contentAt?, hc]
  rfl

/-- The digest of a directory is made of the contents of the files that count. -/
theorem ofDirectory_eq (hash : Bytes → String) {dir : Option Path}
    (hdir : dir.getD project.root = absolute here) :
    ofDirectory hash fs project dir =
      if Fits here then .ok (combined hash (contents fs project here))
      else refuse .nameTooLong (absolute here) := by
  have hnames := ht.entryName hd
  have hpath (n : Text) (hn : n ∈ here) : PathName n := (hnames n hn).toPathName
  have hstraight := ht.straight hd (by simp)
  have hresolve := resolve_straight ht.toWellFormed hpath hstraight
  have hinside := isInside_straight ht.toWellFormed hpath hstraight hr
  rw [← hroot] at hinside
  by_cases hf : Fits here
  · have hisdir := isDirectory_straight ht.toWellFormed hpath hstraight hf
    rw [placeOf_of_own hnames, hd] at hisdir
    rw [if_pos hf, ofDirectory, hdir, hresolve]
    simp only [bind, Except.bind, hinside, hisdir, eligible_eq ht hroot hr hd hw, mapM_ofFile ht hw,
      combined, List.isEmpty_map, List.flatMap_map]
    rfl
  · have hisdir : fs.isDirectory (absolute here) = refuse .nameTooLong (absolute here) := by
      rw [isDirectory, stat, locate_of_not_fits hpath hf]
      rfl
    rw [if_neg hf, ofDirectory, hdir, hresolve]
    simp only [bind, Except.bind, hinside, hisdir]
    rfl

end

/-! ### Changes that do not count -/

/-- Two file systems differ only at and below places that are not entered from `here`, at which both
have a directory if anything. -/
def DifferBehind (project : Project) (here : Location) (fs gs : Files) : Prop :=
  ∀ l, gs.entry? l ≠ fs.entry? l → ∃ front, front ≠ [] ∧ here ++ front <+: l ∧
    project.shuts (here ++ front) = true ∧
    (fs.entry? (here ++ front)).all Entry.isDirectory = true ∧
    (gs.entry? (here ++ front)).all Entry.isDirectory = true

namespace DifferBehind

variable {project : Project} {here : Location} {fs gs : Files}

theorem symm (h : DifferBehind project here fs gs) : DifferBehind project here gs fs := by
  intro l hl
  obtain ⟨front, hne, hf, hs, hfs, hgs⟩ := h l hl.symm
  exact ⟨front, hne, hf, hs, hgs, hfs⟩

/-- What is seen in the directories that are entered is the same, unless it is a directory that is
not entered. -/
theorem seen (h : DifferBehind project here fs gs) (he : Entered project here rest.dropLast) :
    gs.entry? (here ++ rest) = fs.entry? (here ++ rest) ∨
      (fs.entry? (here ++ rest)).all Entry.isDirectory = true ∧
        (gs.entry? (here ++ rest)).all Entry.isDirectory = true := by
  by_cases heq : gs.entry? (here ++ rest) = fs.entry? (here ++ rest)
  · exact .inl heq
  · obtain ⟨front, hne, hf, hs, hfs, hgs⟩ := h _ heq
    have hfront : front <+: rest := (List.prefix_append_right_inj _).mp hf
    by_cases hself : front = rest
    · subst hself
      exact .inr ⟨hfs, hgs⟩
    · have hopen := (he front (prefix_dropLast hfront hself)).2 hne
      rw [hs] at hopen
      cases hopen

theorem entry_file (h : DifferBehind project here fs gs) (he : Entered project here rest.dropLast)
    {c : Bytes} (hc : fs.entry? (here ++ rest) = some (.file c)) :
    gs.entry? (here ++ rest) = some (.file c) := by
  obtain heq | ⟨hfs, -⟩ := h.seen he
  · rw [heq, hc]
  · rw [hc] at hfs
    cases hfs

theorem counts (h : DifferBehind project here fs gs) (hc : Counts fs project here rest) :
    Counts gs project here rest := by
  obtain ⟨c, hfile⟩ := hc.file
  exact ⟨hc.below, ⟨c, h.entry_file hc.entered hfile⟩, hc.notIgnored, hc.entered⟩

theorem walkable (h : DifferBehind project here fs gs) (hw : Walkable fs project here) :
    Walkable gs project here := by
  constructor
  · intro rest he t ht
    obtain heq | ⟨-, hgs⟩ := h.seen he
    · exact hw.noLink rest he t (heq ▸ ht)
    · rw [ht] at hgs
      cases hgs
  · intro rest he c hc
    exact hw.fits rest he c (h.symm.entry_file he hc)

theorem entry_here (h : DifferBehind project here fs gs) : gs.entry? here = fs.entry? here := by
  by_contra heq
  obtain ⟨front, hne, hf, -⟩ := h here heq
  have hlen := hf.length_le
  rw [List.length_append] at hlen
  exact hne (List.length_eq_zero_iff.mp (by omega))

/-- The same files count. -/
theorem counted_eq (h : DifferBehind project here fs gs) (ht : fs.Tidy) (ht' : gs.Tidy) :
    counted gs project here = counted fs project here := by
  refine counted_eq_of_perm ht' ht ((List.perm_ext_iff_of_nodup (nodup_counted ht' project here)
    (nodup_counted ht project here)).mpr fun rest => ?_)
  rw [mem_counted ht'.toWellFormed, mem_counted ht.toWellFormed]
  exact ⟨h.symm.counts, h.counts⟩

theorem contents_eq (h : DifferBehind project here fs gs) (ht : fs.Tidy) (ht' : gs.Tidy) :
    contents gs project here = contents fs project here := by
  rw [contents, contents, h.counted_eq ht ht']
  refine List.map_congr_left fun rest hm => ?_
  have hcounts := (mem_counted ht.toWellFormed).mp hm
  obtain ⟨c, hc⟩ := hcounts.file
  rw [contentAt?, contentAt?, hc, h.entry_file hcounts.entered hc]

end DifferBehind

/-- What differs only in the data directory does not count. -/
theorem differBehind_dataDir {project : Project} {here : Location} {fs gs : Files}
    (h : ∀ l, ¬ here ++ [Project.dataDirName] <+: l → gs.entry? l = fs.entry? l)
    (hfs : (fs.entry? (here ++ [Project.dataDirName])).all Entry.isDirectory = true)
    (hgs : (gs.entry? (here ++ [Project.dataDirName])).all Entry.isDirectory = true) :
    DifferBehind project here fs gs := by
  intro l hl
  have hin : here ++ [Project.dataDirName] <+: l := by
    by_contra hout
    exact hl (h l hout)
  have hshut : project.shuts (here ++ [Project.dataDirName]) = true := by
    rw [Project.shuts, List.getLast?_concat]
    rfl
  exact ⟨[Project.dataDirName], by simp, hin, hshut, hfs, hgs⟩

/-! ### What counts -/

/-- The files of a directory that are collected are, each once, the files below it that are not
ignored and above which no directory is excluded, ignored or beyond the limit of paths. They come in
an order that depends on the names alone, in whichever order the entries are listed. What differs
only at and below directories that are not entered, as the data directory is, changes neither the
files nor the digest. -/
theorem eligible_iff_counts (fs : Files) (project : Project) (root here : Location)
    (hroot : project.root = absolute root) (hr : root <+: here) (ht : fs.Tidy)
    (hd : fs.entry? here = some .directory) (hw : Walkable fs project here) :
    (∃ rests : List (List Text),
      eligible fs project (absolute here) = .ok (rests.map fun rest => absolute (here ++ rest)) ∧
      (∀ rest, rest ∈ rests ↔ Counts fs project here rest) ∧
      rests.Nodup ∧ rests.Pairwise ComesBefore) ∧
    (∀ gs : Files, gs.Tidy → DifferBehind project here fs gs →
      eligible gs project (absolute here) = eligible fs project (absolute here) ∧
      ∀ (hash : Bytes → String) (dir : Option Path), dir.getD project.root = absolute here →
        ofDirectory hash gs project dir = ofDirectory hash fs project dir) ∧
    ∀ gs : Files, gs.Tidy →
      (∀ l, ¬ here ++ [Project.dataDirName] <+: l → gs.entry? l = fs.entry? l) →
      (fs.entry? (here ++ [Project.dataDirName])).all Entry.isDirectory = true →
      (gs.entry? (here ++ [Project.dataDirName])).all Entry.isDirectory = true →
      ∀ (hash : Bytes → String) (dir : Option Path), dir.getD project.root = absolute here →
        ofDirectory hash gs project dir = ofDirectory hash fs project dir := by
  have hsame (gs : Files) (ht' : gs.Tidy) (h : DifferBehind project here fs gs) :
      eligible gs project (absolute here) = eligible fs project (absolute here) ∧
      ∀ (hash : Bytes → String) (dir : Option Path), dir.getD project.root = absolute here →
        ofDirectory hash gs project dir = ofDirectory hash fs project dir := by
    have hd' : gs.entry? here = some .directory := h.entry_here.trans hd
    have hw' := h.walkable hw
    constructor
    · rw [eligible_eq ht' hroot hr hd' hw', eligible_eq ht hroot hr hd hw, h.counted_eq ht ht']
    · intro hash dir hdir
      rw [ofDirectory_eq ht' hroot hr hd' hw' hash hdir, ofDirectory_eq ht hroot hr hd hw hash hdir,
        h.contents_eq ht ht']
  refine ⟨⟨counted fs project here, eligible_eq ht hroot hr hd hw,
    fun rest => mem_counted ht.toWellFormed, nodup_counted ht project here,
    pairwise_restsBelow ht project _ here⟩, hsame, fun gs ht' hout hfs hgs => ?_⟩
  exact (hsame gs ht' (differBehind_dataDir hout hfs hgs)).2

/-- A file system without links, with short paths only, can be walked from anywhere. -/
theorem walkable_of_entries {fs : Files}
    (h : ∀ e ∈ fs.entries, (∀ t, some e.2 ≠ some (.link t)) ∧ Fits e.1) (project : Project)
    (here : Location) : Walkable fs project here := by
  have hlisted {l : Location} {e : Entry} (he : fs.entry? l = some e) (hl : l ≠ []) :
      (l, e) ∈ fs.entries := by
    refine Assoc.mem_of_get? ?_
    simpa [ entry?, hl] using he
  constructor
  · intro rest _ t ht
    by_cases hl : here ++ rest = []
    · rw [hl] at ht
      cases ht
    · exact (h _ (hlisted ht hl)).1 t rfl
  · intro rest _ c hc
    by_cases hl : here ++ rest = []
    · rw [hl] at hc
      cases hc
    · exact (h _ (hlisted hc hl)).2

namespace Sample

/-- A project at `/p` that ignores what is in `gen`. -/
def project : Project := ⟨absolute ["p"], none, none, ["gen/**"]⟩

/-- Four files, one of them in an excluded directory and one in an ignored one. -/
def tree : Files where
  entries :=
    [(["p"], .directory), (["p", "app"], .directory), (["p", "app", "b.ts"], .file [98]),
      (["p", "node_modules"], .directory), (["p", "node_modules", "c.ts"], .file [99]),
      (["p", "gen"], .directory), (["p", "gen", "d.ts"], .file [100]), (["p", "z.ts"], .file [122])]
  workingDirectory := []

/-- The same files, and one in the data directory. -/
def treeWithData : Files :=
  (tree.put ["p", ".routecast"] .directory).put ["p", ".routecast", "note"] (.file [110])

end Sample

open Sample

/-- Two of four files count, those of the directory itself first. A file in the data directory
changes nothing. -/
theorem eligible_iff_counts_sample :
    (∃ rests : List (List Text),
      eligible tree project (absolute ["p"]) = .ok (rests.map fun rest => absolute ("p" :: rest)) ∧
      (∀ rest, rest ∈ rests ↔ Counts tree project ["p"] rest) ∧
      rests.Nodup ∧ rests.Pairwise ComesBefore) ∧
    (eligible tree project (absolute ["p"])).toOption =
      some [absolute ["p", "z.ts"], absolute ["p", "app", "b.ts"]] ∧
    ofDirectory Sha256.hexText treeWithData project none =
      ofDirectory Sha256.hexText tree project none := by
  have hwalk : Walkable tree project ["p"] := walkable_of_entries (by decide) _ _
  have hall := eligible_iff_counts tree project ["p"] ["p"] rfl (List.prefix_refl _)
    (by decide) (by decide) hwalk
  refine ⟨hall.1, by decide, ?_⟩
  refine hall.2.2 treeWithData (by decide) (fun l hl => ?_) (by decide)
    (by decide) _ none rfl
  have hne (rest : List Text) : l ≠ (["p", ".routecast"] : Location) ++ rest := by
    rintro rfl
    exact hl ⟨rest, rfl⟩
  rw [treeWithData, entry_put (by simp), entry_put (by simp)]
  exact (if_neg (hne ["note"])).trans (if_neg (hne []))

namespace Sample

/-- A name of 252 bytes. -/
def longName : Text := Text.ofChars (List.replicate 63 (Char.ofNat 0x10348))

/-- The root of a project whose path has 4048 bytes. -/
def deepRoot : Location := List.replicate 16 longName

def deepProject : Project := ⟨absolute deepRoot, none, none, []⟩

/-- A file in a directory whose path has 4301 bytes. -/
def deepTree : Files where
  entries := (deepRoot.inits.drop 1).map (·, .directory) ++
    [(deepRoot ++ [longName], .directory), (deepRoot ++ [longName, "a"], .file [])]
  workingDirectory := []

end Sample

/-- A file above which nothing is excluded or ignored is not collected where the path of its
directory is too long. -/
theorem deep_file_not_collected :
    (eligible deepTree deepProject (absolute deepRoot)).toOption = some [] ∧ deepTree.Tidy ∧
    (∀ e ∈ deepTree.entries, ∀ t, some e.2 ≠ some (.link t)) ∧
    deepTree.contentAt? (deepRoot ++ [longName, "a"]) = some [] ∧
    deepProject.shuts (deepRoot ++ [longName]) = false ∧
    deepProject.ignoresAt (deepRoot ++ [longName, "a"]) = false := by
  refine ⟨by decide +kernel, by decide +kernel, by decide +kernel, by decide +kernel,
    by decide +kernel, by decide +kernel⟩

end RoutePlugins.Digest
