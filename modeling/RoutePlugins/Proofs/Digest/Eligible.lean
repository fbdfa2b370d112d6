import Mathlib.Data.List.Perm.Subperm
import RoutePlugins.Digest.Eligible
import RoutePlugins.Proofs.Files.Straight
import RoutePlugins.Proofs.Text.Order

/-!
# The files that count

The walk that collects the files of a directory prunes as it goes down. What it collects is each
file that is not ignored and above which no directory is excluded or ignored, in an order that the
names decide.

Two limits of paths show. A directory whose path is too long for the operating system is not entered
either, without a word, and a file with such a path makes the walk fail.
-/

namespace RoutePlugins

open List

variable {l : Location}

/-- Whether the place below the project root is ignored. -/
def Project.ignoresAt (project : Project) (l : Location) : Bool :=
  Ignore.matchesAny (Path.text ⟨.relative, l.drop project.root.names.length⟩) project.ignored

/-- Whether a directory at a place is not entered, for its name or because it is ignored. -/
def Project.shuts (project : Project) (l : Location) : Bool :=
  excludedDirs.contains (l.getLast?.getD "") || project.ignoresAt l

namespace Digest

open Files

/-- The directories from `here` down to `rest` below it are entered. -/
def Entered (project : Project) (here : Location) (rest : List Text) : Prop :=
  ∀ front, front <+: rest →
    Fits (here ++ front) ∧ (front ≠ [] → project.shuts (here ++ front) = false)

/-- The place `rest` below `here` is that of a file that counts. -/
structure Counts (fs : Files) (project : Project) (here : Location) (rest : List Text) : Prop where
  below : rest ≠ []
  file : ∃ content, fs.entry? (here ++ rest) = some (.file content)
  notIgnored : project.ignoresAt (here ++ rest) = false
  entered : Entered project here rest.dropLast

/-- In the directories that are entered there is no link, and no file with too long a path. -/
structure Walkable (fs : Files) (project : Project) (here : Location) : Prop where
  noLink : ∀ rest, Entered project here rest.dropLast →
    ∀ t, fs.entry? (here ++ rest) ≠ some (.link t)
  fits : ∀ rest, Entered project here rest.dropLast →
    ∀ content, fs.entry? (here ++ rest) = some (.file content) → Fits (here ++ rest)

variable {project : Project} {here : Location} {name : Text} {fs : Files}

theorem entered_nil : Entered project here [] ↔ Fits here := by
  simp [Entered]

theorem entered_cons {rest : List Text} :
    Entered project here (name :: rest) ↔
      Fits here ∧ project.shuts (here ++ [name]) = false ∧
        Entered project (here ++ [name]) rest := by
  constructor
  · intro h
    have hself := (h [] (List.nil_prefix)).1
    have hname := (h [name] (by simp)).2 (by simp)
    refine ⟨by simpa using hself, hname, fun front hf => ?_⟩
    have hfront := h (name :: front) (by simpa using hf)
    rw [append_assoc, singleton_append]
    exact ⟨hfront.1, fun _ => hfront.2 (by simp)⟩
  · rintro ⟨hself, hname, h⟩ front hf
    cases front with
    | nil => simpa using hself
    | cons first others =>
      obtain ⟨rfl, hothers⟩ := cons_prefix_cons.mp hf
      have hfront := h others hothers
      rw [append_assoc, singleton_append] at hfront
      refine ⟨hfront.1, fun _ => ?_⟩
      cases others with
      | nil => exact hname
      | cons next more => exact hfront.2 (by simp)

theorem entered_dropLast_cons {rest : List Text} (hr : rest ≠ []) :
    Entered project here (name :: rest).dropLast ↔
      Fits here ∧ project.shuts (here ++ [name]) = false ∧
        Entered project (here ++ [name]) rest.dropLast := by
  rw [dropLast_cons_of_ne_nil hr, entered_cons]

/-- What holds of the directories below a directory holds of those below one that is entered. -/
theorem Walkable.child (h : Walkable fs project here) (hf : Fits here)
    (hs : project.shuts (here ++ [name]) = false)
    (hd : fs.entry? (here ++ [name]) = some .directory) : Walkable fs project (here ++ [name]) := by
  have hentered (rest : List Text) (hr : rest ≠ [])
      (he : Entered project (here ++ [name]) rest.dropLast) :
      Entered project here (name :: rest).dropLast :=
    (entered_dropLast_cons hr).mpr ⟨hf, hs, he⟩
  have hplace (rest : List Text) : here ++ [name] ++ rest = here ++ name :: rest := by simp
  constructor
  · intro rest he t ht
    by_cases hr : rest = []
    · subst hr
      rw [append_nil, hd] at ht
      cases ht
    · rw [hplace] at ht
      exact h.noLink _ (hentered rest hr he) t ht
  · intro rest he content hc
    by_cases hr : rest = []
    · subst hr
      rw [append_nil, hd] at hc
      cases hc
    · rw [hplace] at hc ⊢
      exact h.fits _ (hentered rest hr he) content hc

/-! ### The walk without faults -/

/-- Whether the file at a place counts. -/
def countsAt (fs : Files) (project : Project) (l : Location) : Bool :=
  (fs.entry? l).any Entry.isFile && !project.ignoresAt l

/-- Whether the directory at a place is to be entered. -/
def opensAt (fs : Files) (project : Project) (l : Location) : Bool :=
  !project.shuts l && (fs.entry? l).any Entry.isDirectory

/-- The names, in ascending order, of the files in a directory that count. -/
def filesIn (fs : Files) (project : Project) (here : Location) : List Text :=
  (sortTexts (fs.children here)).filter fun name => countsAt fs project (here ++ [name])

/-- The names, in ascending order, of the directories in a directory that are to be entered. -/
def dirsIn (fs : Files) (project : Project) (here : Location) : List Text :=
  (sortTexts (fs.children here)).filter fun name => opensAt fs project (here ++ [name])

/-- The places, below a directory and at most `depth` deep, of the files that count. -/
def restsBelow (fs : Files) (project : Project) : Nat → Location → List (List Text)
  | 0, _ => []
  | depth + 1, here =>
    if Fits here then
      (filesIn fs project here).map (fun name => [name]) ++
        (dirsIn fs project here).flatMap fun name =>
          (restsBelow fs project depth (here ++ [name])).map (name :: ·)
    else []

theorem any_isDirectory_iff {o : Option Entry} :
    o.any Entry.isDirectory = true ↔ o = some .directory := by
  rw [Option.any_eq_true]
  constructor
  · rintro ⟨e, rfl, he⟩
    cases e with
    | directory => rfl
    | file c => cases he
    | link t => cases he
  · rintro rfl
    exact ⟨.directory, rfl, rfl⟩

theorem any_isFile_iff {o : Option Entry} :
    o.any Entry.isFile = true ↔ ∃ content, o = some (.file content) := by
  rw [Option.any_eq_true]
  constructor
  · rintro ⟨e, rfl, he⟩
    cases e with
    | directory => cases he
    | file c => exact ⟨c, rfl⟩
    | link t => cases he
  · rintro ⟨c, rfl⟩
    exact ⟨.file c, rfl, rfl⟩

theorem countsAt_iff :
    countsAt fs project l = true ↔
      (∃ content, fs.entry? l = some (.file content)) ∧ project.ignoresAt l = false := by
  rw [countsAt, Bool.and_eq_true, any_isFile_iff, Bool.not_eq_true']

theorem mem_filesIn :
    name ∈ filesIn fs project here ↔
      (∃ content, fs.entry? (here ++ [name]) = some (.file content)) ∧
        project.ignoresAt (here ++ [name]) = false := by
  rw [filesIn, mem_filter, mem_sortTexts, mem_children, countsAt_iff, and_iff_right_iff_imp]
  rintro ⟨⟨c, hc⟩, -⟩
  rw [hc]
  rfl

theorem mem_dirsIn :
    name ∈ dirsIn fs project here ↔
      fs.entry? (here ++ [name]) = some .directory ∧ project.shuts (here ++ [name]) = false := by
  rw [dirsIn, mem_filter, mem_sortTexts, mem_children, opensAt, Bool.and_eq_true,
    any_isDirectory_iff, Bool.not_eq_true']
  constructor
  · rintro ⟨-, hs, hd⟩
    exact ⟨hd, hs⟩
  · rintro ⟨hd, hs⟩
    exact ⟨by rw [hd]; rfl, hs, hd⟩

/-! ### Both walks are the same -/

theorem filterE_map_of_ok {α β : Type} {p : α → Except Fault Bool} {q : β → Bool} {f : β → α}
    {l : List β} (h : ∀ b ∈ l, p (f b) = .ok (q b)) :
    filterE p (l.map f) = .ok ((l.filter q).map f) := by
  induction l with
  | nil => rfl
  | cons b rest ih =>
    rw [map_cons, filterE, h b (by simp), ih fun c hc => h c (by simp [hc]), filter_cons]
    cases q b with
    | true => rfl
    | false => rfl

theorem mapM_of_ok {α β : Type} {f : α → Except Fault β} {g : α → β} {l : List α}
    (h : ∀ a ∈ l, f a = .ok (g a)) : l.mapM f = .ok (l.map g) := by
  induction l with
  | nil => rfl
  | cons a rest ih =>
    rw [mapM_cons, h a (by simp), ih fun b hb => h b (by simp [hb])]
    rfl

section

variable {fs : Files} (ht : fs.Tidy) {project : Project} {root here : Location}
  (hroot : project.root = absolute root)

include ht hroot

/-- Whether something below the root is ignored is read off its place. -/
theorem isIgnored_at {e : Entry} (he : fs.entry? l = some e) (hl : ∀ t, e ≠ .link t)
    (hr : root <+: l) : project.isIgnored fs (absolute l) = .ok (project.ignoresAt l) := by
  have hrel := relative_straight ht.toWellFormed (fun n hn => (ht.entryName he n hn).toPathName)
    (ht.straight he hl) hroot hr
  simp only [Project.isIgnored, hrel, Project.ignoresAt, hroot]
  rfl

/-- Whether a directory is entered is read off its place. -/
theorem isOpenDir_at (hd : fs.entry? l = some .directory) (hr : root <+: l) :
    isOpenDir fs project (absolute l) = .ok (!project.shuts l) := by
  have hname : (absolute l).name = l.getLast?.getD "" := rfl
  rw [isOpenDir, hname, isIgnored_at ht hroot hd (by simp) hr, Project.shuts]
  cases excludedDirs.contains (l.getLast?.getD "") with
  | true => rfl
  | false => rfl

/-- Whether a file counts is read off its place. -/
theorem isCounted_at {content : Bytes} (hc : fs.entry? l = some (.file content)) (hr : root <+: l)
    (hf : Fits l) : isCounted fs project (absolute l) = .ok (countsAt fs project l) := by
  have hnames := ht.entryName hc
  have hfile := isFile_straight ht.toWellFormed (fun n hn => (hnames n hn).toPathName)
    (ht.straight hc (by simp)) hf
  rw [placeOf_of_own hnames, hc] at hfile
  rw [isCounted, hfile, isIgnored_at ht hroot hc (by simp) hr, countsAt, hc]
  rfl

variable (hd : fs.entry? here = some .directory) (hw : Walkable fs project here)

include hd

omit hroot in
/-- A directory that cannot be entered shows no names. -/
theorem namesIn_of_not_fits (hf : ¬ Fits here) : namesIn fs (absolute here) = .ok [] := by
  have hnames := ht.entryName hd
  have hdir : fs.directoryAt (absolute here) = refuse .nameTooLong (absolute here) := by
    rw [directoryAt, locate_of_not_fits (fun n hn => (hnames n hn).toPathName) hf]
    rfl
  rw [namesIn, hdir]
  rfl

include hw

omit hroot in
/-- The names in a directory that can be entered. -/
theorem namesIn_at (hf : Fits here) :
    namesIn fs (absolute here) =
      .ok ((sortTexts (fs.children here)).map fun name =>
        (name, (fs.entry? (here ++ [name])).any Entry.isDirectory)) := by
  have hnames := ht.entryName hd
  have hplace := placeOf_of_own hnames
  have hdir : fs.directoryAt (absolute here) = .ok here := by
    have hloc := locate_of_present ht.toWellFormed (fun n hn => (hnames n hn).toPathName)
      (ht.straight hd (by simp)) .follow hf (hplace.symm ▸ hd)
    rw [hplace] at hloc
    rw [directoryAt, hloc]
    rfl
  have hkind (name : Text) : namesDirectory fs (absolute here) here name =
      (fs.entry? (here ++ [name])).any Entry.isDirectory := by
    have hlink := hw.noLink [name] (entered_nil.mpr hf)
    unfold namesDirectory
    cases he : fs.entry? (here ++ [name]) with
    | none => rfl
    | some e =>
      cases e with
      | directory => rfl
      | file c => rfl
      | link t => exact absurd he (hlink t)
  simp only [namesIn, hdir, hkind]

end

section

variable {fs : Files} (ht : fs.Tidy) {project : Project} {root here : Location}
  (hroot : project.root = absolute root) (hr : root <+: here) (hw : Walkable fs project here)
  (hf : Fits here)

include ht hroot hr

theorem filterE_isOpenDir :
    filterE (isOpenDir fs project)
        (((sortTexts (fs.children here)).filter fun name =>
          (fs.entry? (here ++ [name])).any Entry.isDirectory).map fun name =>
            absolute (here ++ [name])) =
      .ok ((dirsIn fs project here).map fun name => absolute (here ++ [name])) := by
  rw [filterE_map_of_ok (q := fun name => !project.shuts (here ++ [name])), filter_filter]
  · rfl
  · intro name hm
    have hdir := any_isDirectory_iff.mp (mem_filter.mp hm).2
    exact isOpenDir_at ht hroot hdir (hr.trans (prefix_append _ _))

include hw hf

theorem filterE_isCounted :
    filterE (isCounted fs project)
        (((sortTexts (fs.children here)).filter fun name =>
          !(fs.entry? (here ++ [name])).any Entry.isDirectory).map fun name =>
            absolute (here ++ [name])) =
      .ok ((filesIn fs project here).map fun name => absolute (here ++ [name])) := by
  have hentered : Entered project here [] := entered_nil.mpr hf
  rw [filterE_map_of_ok (q := fun name => countsAt fs project (here ++ [name])), filter_filter]
  · have hkind (name : Text) : (countsAt fs project (here ++ [name]) &&
        !(fs.entry? (here ++ [name])).any Entry.isDirectory) =
          countsAt fs project (here ++ [name]) := by
      refine Bool.and_eq_left_iff_imp.mpr fun hc => ?_
      obtain ⟨⟨c, hc⟩, -⟩ := countsAt_iff.mp hc
      rw [hc]
      rfl
    simp only [hkind]
    rfl
  · intro name hm
    obtain ⟨hm, hany⟩ := mem_filter.mp hm
    rw [mem_sortTexts, mem_children] at hm
    cases he : fs.entry? (here ++ [name]) with
    | none => simp [he] at hm
    | some e =>
      cases e with
      | directory => simp [he, Entry.isDirectory] at hany
      | file c =>
        exact isCounted_at ht hroot he (hr.trans (prefix_append _ _))
          (hw.fits [name] hentered c he)
      | link t => exact absurd he (hw.noLink [name] hentered t)

end

variable {fs : Files} {project : Project} {here : Location} {rest : List Text}

/-- The walk collects what the walk without faults collects. -/
theorem eligibleFrom_eq (ht : fs.Tidy) {root : Location} (hroot : project.root = absolute root)
    (depth : Nat) (hr : root <+: here) (hd : fs.entry? here = some .directory)
    (hw : Walkable fs project here) :
    eligibleFrom fs project depth (absolute here) =
      .ok ((restsBelow fs project depth here).map fun rest => absolute (here ++ rest)) := by
  induction depth generalizing here with
  | zero => rfl
  | succ depth ih =>
    rw [eligibleFrom, restsBelow]
    by_cases hf : Fits here
    · have hlinks : ((dirsIn fs project here).map fun name => absolute (here ++ [name])).filter
          (!fs.isLink ·) = (dirsIn fs project here).map fun name => absolute (here ++ [name]) := by
        refine filter_eq_self.mpr fun p hp => ?_
        obtain ⟨name, hm, rfl⟩ := mem_map.mp hp
        have hdir := (mem_dirsIn.mp hm).1
        rw [isLink_straight ht.toWellFormed (fun n hn => (ht.entryName hdir n hn).toPathName)
          (ht.straight hdir (by simp))]
        rfl
      have hbelow : ((dirsIn fs project here).map fun name => absolute (here ++ [name])).mapM
          (eligibleFrom fs project depth) = .ok ((dirsIn fs project here).map fun name =>
            (restsBelow fs project depth (here ++ [name])).map fun rest =>
              absolute (here ++ name :: rest)) := by
        rw [mapM_map]
        refine mapM_of_ok fun name hm => ?_
        obtain ⟨hdir, hs⟩ := mem_dirsIn.mp hm
        rw [Function.comp_apply, ih (hr.trans (prefix_append _ _)) hdir (hw.child hf hs hdir)]
        simp only [append_assoc, singleton_append]
      have hdirs := filterE_isOpenDir ht hroot hr
      have hfiles := filterE_isCounted ht hroot hr hw hf
      rw [namesIn_at ht hd hw hf, if_pos hf]
      simp only [filter_map, map_map, Function.comp_def, bind, Except.bind,
        child_absolute, hdirs, hfiles, hlinks, hbelow, pure, Except.pure, map_append,
        map_flatMap]
      rfl
    · rw [namesIn_of_not_fits ht hd hf, if_neg hf]
      rfl

/-! ### Which files are collected -/

/-- The files that count in a directory, and those in the directories that are entered. -/
theorem counts_cons (hwf : fs.WellFormed) {name : Text} :
    Counts fs project here (name :: rest) ↔
      Fits here ∧ (rest = [] ∧ name ∈ filesIn fs project here ∨
        name ∈ dirsIn fs project here ∧ Counts fs project (here ++ [name]) rest) := by
  have hplace : here ++ name :: rest = here ++ [name] ++ rest := by simp
  constructor
  · rintro ⟨-, ⟨c, hc⟩, hi, he⟩
    by_cases hr : rest = []
    · subst hr
      exact ⟨entered_nil.mp he, .inl ⟨rfl, mem_filesIn.mpr ⟨⟨c, hc⟩, hi⟩⟩⟩
    · obtain ⟨hf, hs, he⟩ := (entered_dropLast_cons hr).mp he
      rw [hplace] at hc hi
      have hd := hwf.above hc (prefix_append _ _) (by simpa using hr)
      exact ⟨hf, .inr ⟨mem_dirsIn.mpr ⟨hd, hs⟩, ⟨hr, ⟨c, hc⟩, hi, he⟩⟩⟩
  · rintro ⟨hf, ⟨rfl, hm⟩ | ⟨hm, hr, ⟨c, hc⟩, hi, he⟩⟩
    · obtain ⟨hc, hi⟩ := mem_filesIn.mp hm
      exact ⟨by simp, hc, hi, entered_nil.mpr hf⟩
    · rw [← hplace] at hc hi
      exact ⟨by simp, ⟨c, hc⟩, hi, (entered_dropLast_cons hr).mpr ⟨hf, (mem_dirsIn.mp hm).2, he⟩⟩

theorem mem_restsBelow (hwf : fs.WellFormed) {depth : Nat} :
    rest ∈ restsBelow fs project depth here ↔
      Counts fs project here rest ∧ rest.length ≤ depth := by
  induction depth generalizing here rest with
  | zero =>
    have hnone (h : Counts fs project here rest) : rest.length ≠ 0 := by simpa using h.below
    simpa [restsBelow] using hnone
  | succ depth ih =>
    cases rest with
    | nil =>
      have hnone : ¬ Counts fs project here [] := fun h => h.below rfl
      rw [restsBelow]
      split
      · simp [hnone]
      · simp [hnone]
    | cons name rest =>
      rw [counts_cons hwf, restsBelow]
      split
      · next hf =>
        simp only [mem_append, mem_map, mem_flatMap, List.cons.injEq,
          length_cons, Nat.add_le_add_iff_right, hf, true_and]
        constructor
        · rintro (⟨n, hm, rfl, rfl⟩ | ⟨n, hm, r, hr, rfl, rfl⟩)
          · exact ⟨.inl ⟨rfl, hm⟩, by simp⟩
          · obtain ⟨hc, hl⟩ := ih.mp hr
            exact ⟨.inr ⟨hm, hc⟩, hl⟩
        · rintro ⟨⟨rfl, hm⟩ | ⟨hm, hc⟩, hl⟩
          · exact .inl ⟨name, hm, rfl, rfl⟩
          · exact .inr ⟨name, hm, rest, ih.mpr ⟨hc, hl⟩, rfl, rfl⟩
      · next hf => simp [hf]

/-- What there is lies no deeper than there are entries. -/
theorem length_le_of_entry (hwf : fs.WellFormed) {e : Entry}
    (he : fs.entry? (here ++ rest) = some e) : rest.length ≤ fs.entries.length := by
  let fronts := (List.range rest.length).map fun n => here ++ rest.take (n + 1)
  have hnodup : fronts.Nodup := by
    refine List.Nodup.map_on (fun n hn m hm h => ?_) nodup_range
    have hlen := congrArg List.length (append_cancel_left h)
    rw [mem_range] at hn hm
    simp only [length_take] at hlen
    omega
  have hsub : fronts ⊆ Assoc.keys fs.entries := by
    intro l hl
    obtain ⟨n, hn, rfl⟩ := mem_map.mp hl
    rw [mem_range] at hn
    refine (entry_isSome_iff ?_).mp ?_
    · simp only [ne_eq, append_eq_nil_iff, take_eq_nil_iff, not_and_or, not_or]
      exact .inr ⟨by omega, ne_nil_of_length_pos (by omega)⟩
    · by_cases hfull : here ++ rest.take (n + 1) = here ++ rest
      · rw [hfull, he]
        rfl
      · rw [hwf.above he ((prefix_append_right_inj _).mpr (List.take_prefix _ _)) hfull]
        rfl
  have hle := (subperm_of_subset hnodup hsub).length_le
  simpa [fronts, Assoc.keys] using hle

/-! ### The order of the files -/

/-- The order in which the files are collected: those of a directory in the order of their names,
then those of its directories in the order of theirs. -/
def ComesBefore : List Text → List Text → Prop
  | [name], [name'] => name.Precedes name'
  | [_], _ :: _ :: _ => True
  | name :: next :: rest, name' :: next' :: rest' =>
    name.Precedes name' ∨ name = name' ∧ ComesBefore (next :: rest) (next' :: rest')
  | _, _ => False

theorem ComesBefore.asymm : {l l' : List Text} → ComesBefore l l' → ¬ ComesBefore l' l
  | [_], [_], h, h' => Text.Precedes.asymm h h'
  | [_], _ :: _ :: _, _, h' => h'
  | name :: next :: rest, name' :: next' :: rest', h, h' => by
    rw [ComesBefore] at h h'
    obtain h | ⟨rfl, h⟩ := h
    · obtain h' | ⟨rfl, -⟩ := h'
      · exact h.asymm h'
      · exact h.2 rfl
    · obtain h' | ⟨-, h'⟩ := h'
      · exact h'.2 rfl
      · exact h.asymm h'

theorem pairwise_restsBelow (ht : fs.Tidy) (project : Project) (depth : Nat) (here : Location) :
    (restsBelow fs project depth here).Pairwise ComesBefore := by
  induction depth generalizing here with
  | zero => exact .nil
  | succ depth ih =>
    have hnames := pairwise_sortTexts (ht.nodup_children here)
    have hlong (name : Text) : ∀ rest ∈ (restsBelow fs project depth (here ++ [name])).map
        (name :: ·), ∃ next more, rest = name :: next :: more := by
      intro rest hm
      obtain ⟨r, hr, rfl⟩ := mem_map.mp hm
      obtain ⟨next, more, rfl⟩ := exists_cons_of_ne_nil
        ((mem_restsBelow ht.toWellFormed).mp hr).1.below
      exact ⟨next, more, rfl⟩
    rw [restsBelow]
    split
    · refine pairwise_append.mpr ⟨?_, ?_, ?_⟩
      · exact (hnames.filter _).map _ fun _ _ h => h
      · refine pairwise_flatMap.mpr
          ⟨fun name _ => ?_, (hnames.filter _).imp fun h x hx y hy => ?_⟩
        · rw [pairwise_map]
          refine (ih (here ++ [name])).imp_of_mem fun {r r'} hr hr' h => ?_
          obtain ⟨next, more, hx⟩ := hlong name _ (mem_map_of_mem hr)
          obtain ⟨next', more', hy⟩ := hlong name _ (mem_map_of_mem hr')
          cases hx
          cases hy
          exact .inr ⟨rfl, h⟩
        · obtain ⟨next, more, rfl⟩ := hlong _ x hx
          obtain ⟨next', more', rfl⟩ := hlong _ y hy
          exact .inl h
      · intro x hx y hy
        obtain ⟨name, -, rfl⟩ := mem_map.mp hx
        obtain ⟨name', -, hy⟩ := mem_flatMap.mp hy
        obtain ⟨next, more, rfl⟩ := hlong name' y hy
        trivial
    · exact .nil

/-- The places, below a directory, of the files that count. -/
def counted (fs : Files) (project : Project) (here : Location) : List (List Text) :=
  restsBelow fs project (fs.entries.length + 1) here

theorem mem_counted (hwf : fs.WellFormed) :
    rest ∈ counted fs project here ↔ Counts fs project here rest := by
  rw [counted, mem_restsBelow hwf, and_iff_left_iff_imp]
  rintro ⟨-, ⟨c, hc⟩, -, -⟩
  exact Nat.le_succ_of_le (length_le_of_entry hwf hc)

/-- The files that count come in one order only. -/
theorem counted_eq_of_perm {gs : Files} (ht : fs.Tidy) (ht' : gs.Tidy)
    (h : (counted fs project here).Perm (counted gs project here)) :
    counted fs project here = counted gs project here :=
  h.eq_of_pairwise (fun _ _ _ _ hab hba => absurd hba hab.asymm)
    (pairwise_restsBelow ht project _ here) (pairwise_restsBelow ht' project _ here)

theorem nodup_counted (ht : fs.Tidy) (project : Project) (here : Location) :
    (counted fs project here).Nodup :=
  (pairwise_restsBelow ht project _ here).imp fun h heq => (heq ▸ h).asymm (heq ▸ h)

section

variable {fs : Files} (ht : fs.Tidy) {project : Project} {root here : Location}
  (hroot : project.root = absolute root) (hr : root <+: here)
  (hd : fs.entry? here = some .directory) (hw : Walkable fs project here)

include ht hroot hr hd hw

theorem eligible_eq : eligible fs project (absolute here) =
    .ok ((counted fs project here).map fun rest => absolute (here ++ rest)) :=
  eligibleFrom_eq ht hroot _ hr hd hw

end

end Digest

end RoutePlugins
