import RoutePlugins.Proofs.Files.Confined
import RoutePlugins.Proofs.Files.Decoded
import RoutePlugins.Proofs.Pipeline.CommitExactness

/-!
# All staged texts or none

All targets of a commit are checked before the first is written. What the checks do not see can
still fail a write when others are done: a text that has no bytes, a file or a link on the way to a
target, a name that is too long, a target on the way to another. Apart from these, a commit writes
all the staged texts or leaves everything as it was.
-/

namespace RoutePlugins.Pipeline

open World Files

/-! ### Targets that can be written -/

/-- A path below the root at which a file can be written, with the directories above it. -/
structure Ready (root : Location) (fs : Files) (front : List Text) (name : Text) : Prop where
  named : ∀ n ∈ front ++ [name], PathName n
  fits : Fits (front ++ [name])
  below : root <+: front
  way : fs.Open (placeOf front)
  file : ∀ e, fs.entry? (placeOf (front ++ [name])) = some e → ∃ c, e = .file c

/-- Neither of two places is on the way to the other. -/
def Apart (l l' : Location) : Prop := ¬ l <+: l' ∧ ¬ l' <+: l

variable {root : Location} {fs : Files} {w : World} {project : Project}
  {entries : List (Text × Text)} {e : Text × Text} {texts : List (Text × Json)}

/-- A text is written where a file can be, and no file apart from there is kept from being
written. -/
theorem Ready.write {front : List Text} {name : Text} (h : Ready root fs front name)
    (hwf : fs.WellFormed) {text : Text} {b : Bytes} (hb : Utf8.encode text = .ok b) :
    ∃ gs, writeText (absolute root) (absolute (front ++ [name])) text fs = .ok () gs ∧
      gs.WellFormed ∧
      ∀ front' name', Ready root fs front' name' →
        Apart (placeOf (front ++ [name])) (placeOf (front' ++ [name'])) →
        Ready root gs front' name' := by
  obtain ⟨gs, hgs, hwf', -, hentry⟩ := writeText_clear h.named h.fits hwf h.way h.file h.below hb
  refine ⟨gs, hgs, hwf', fun front' name' h' hapart => ?_⟩
  have hfront : placeOf front <+: placeOf (front ++ [name]) :=
    placeOf_front (List.prefix_append _ _)
  have hfront' : placeOf front' <+: placeOf (front' ++ [name']) :=
    placeOf_front (List.prefix_append _ _)
  refine ⟨h'.named, h'.fits, h'.below, fun l hl => ?_, fun e he => ?_⟩
  · rw [hentry, if_neg]
    · split
      · rfl
      · exact h'.way l hl
    · rintro rfl
      exact hapart.1 (hl.trans hfront')
  · have hne : placeOf (front' ++ [name']) ≠ placeOf (front ++ [name]) := by
      intro heq
      exact hapart.2 (heq ▸ List.prefix_refl _)
    rw [hentry, if_neg hne, if_neg fun hl => hapart.2 (hl.trans hfront)] at he
    exact h'.file e he

/-- A target whose text has bytes, at a path where a file can be written. -/
def Writable (root : Location) (fs : Files) (target : Path × Json) : Prop :=
  ∃ front name text b, target = (absolute (front ++ [name]), .str text) ∧
    Utf8.encode text = .ok b ∧ Ready root fs front name

/-- Targets that can be written, and are apart from one another, are written. -/
theorem writeAll_of_writable {targets : List (Path × Json)} (hw : w.files.WellFormed)
    (h : ∀ target ∈ targets, Writable root w.files target)
    (hapart : targets.Pairwise fun t t' => Apart (placeOf t.1.names) (placeOf t'.1.names)) :
    ∃ w', writeAll (absolute root) targets w = .ok () w' := by
  induction targets generalizing w with
  | nil => exact ⟨w, rfl⟩
  | cons target rest ih =>
    obtain ⟨hfirst, hrest⟩ := List.pairwise_cons.mp hapart
    obtain ⟨front, name, text, b, rfl, hb, hready⟩ := h target (by simp)
    obtain ⟨gs, hgs, hwf, hkeeps⟩ := hready.write hw hb
    have hone : writeStaged (absolute root) (absolute (front ++ [name]), .str text) w =
        .ok () { w with files := gs } := Run.changeFiles_of_ok hgs
    have hothers (t : Path × Json) (ht : t ∈ rest) : Writable root gs t := by
      obtain ⟨front', name', text', b', rfl, hb', hready'⟩ := h t (by simp [ht])
      exact ⟨front', name', text', b', rfl, hb', hkeeps front' name' hready' (hfirst _ ht)⟩
    obtain ⟨w', hw'⟩ := @ih { w with files := gs } hwf hothers hrest
    refine ⟨w', ?_⟩
    simp only [writeAll, hone]
    exact hw'

/-! ### What keeps a text from being written -/

/-- The place of the path for which a text is staged. -/
def placeFor (e : Text × Text) : Location := placeOf (Path.parse e.1).names

/-- Texts that plugins may stage for a project: each under a resolved path inside the root, and one
for each path. -/
structure Accepted (fs : Files) (project : Project) (entries : List (Text × Text)) : Prop where
  nodup : (Assoc.keys entries).Nodup
  inside : ∀ e ∈ entries, ∃ p q, fs.resolve p = .ok q ∧ q.text = e.1 ∧
    fs.isInside project.root q = .ok true

/-- A staged text has bytes, and its path runs from the root through directories, as far as there is
anything, to what is no link, with names that a file can have. -/
structure Free (fs : Files) (e : Text × Text) : Prop where
  bytes : ∃ b, Utf8.encode e.2 = .ok b
  rooted : (Path.parse e.1).anchor = .root
  short : ∀ n ∈ (Path.parse e.1).names, n.nameSize ≤ maxName
  clear : fs.Clear (Path.parse e.1).names

/-- Nothing keeps the staged texts from being written, and none of them keeps another: a path that
leads on to another one, or to the same place, is that of a directory. -/
structure Unobstructed (fs : Files) (entries : List (Text × Text)) : Prop where
  free : ∀ e ∈ entries, Free fs e
  apart : ∀ e ∈ entries, ∀ e' ∈ entries, placeFor e <+: placeFor e' →
    e = e' ∨ fs.entry? (placeFor e) = some .directory

instance (fs : Files) (e : Text × Text) : Decidable (Free fs e) :=
  decidable_of_iff ((Utf8.encode e.2).toOption.isSome = true ∧ (Path.parse e.1).anchor = .root ∧
      (∀ n ∈ (Path.parse e.1).names, n.nameSize ≤ maxName) ∧ fs.Clear (Path.parse e.1).names)
    (by
      constructor
      · rintro ⟨hb, hr, hs, hc⟩
        obtain ⟨b, hb⟩ := Option.isSome_iff_exists.mp hb
        exact ⟨⟨b, ok_of_toOption hb⟩, hr, hs, hc⟩
      · rintro ⟨⟨b, hb⟩, hr, hs, hc⟩
        exact ⟨by rw [hb]; rfl, hr, hs, hc⟩)

instance (fs : Files) (entries : List (Text × Text)) : Decidable (Unobstructed fs entries) :=
  decidable_of_iff ((∀ e ∈ entries, Free fs e) ∧ ∀ e ∈ entries, ∀ e' ∈ entries,
      placeFor e <+: placeFor e' → e = e' ∨ fs.entry? (placeFor e) = some .directory)
    ⟨fun ⟨h, h'⟩ => ⟨h, h'⟩, fun h => ⟨h.free, h.apart⟩⟩

theorem Accepted.keyed (hwf : fs.WellFormed) (h : Accepted fs project entries) : Keyed entries := by
  refine ⟨h.nodup, fun e he => ?_⟩
  obtain ⟨p, q, hq, htext, -⟩ := h.inside e he
  rw [← htext, parse_text_of_resolve hwf.names hq]

/-- The path of an accepted text that nothing keeps from being written. -/
theorem Accepted.path (hwf : fs.WellFormed) (h : Accepted fs project entries) (he : e ∈ entries)
    (hfree : Free fs e) :
    ∃ names, Path.parse e.1 = absolute names ∧ (∀ n ∈ names, PathName n) ∧ fs.Clear names ∧
      fs.isInside project.root (absolute names) = .ok true := by
  obtain ⟨p, q, hq, htext, hin⟩ := h.inside e he
  obtain ⟨-, hanchor, hshort, hclear⟩ := hfree
  rw [← htext, parse_text_of_resolve hwf.names hq] at hanchor hshort hclear ⊢
  obtain ⟨anchor, names⟩ := q
  obtain rfl : anchor = .root := hanchor
  exact ⟨names, rfl, pathName_of_resolve hwf hq hshort, hclear, hin⟩

variable {o : Option (Path × Json)} {pending : List (Option (Path × Json))}

/-- What is known of a target that was checked. -/
theorem checked_of_pendingFor {p : Path} (h : pendingFor fs texts p = .ok o) :
    ∃ present, fs.isPresent p = .ok present ∧ (present = true → ∃ t, fs.readText p = .ok t) := by
  obtain ⟨present, hp, h⟩ := bind_ok_iff.mp h
  refine ⟨present, hp, ?_⟩
  rintro rfl
  obtain ⟨t, ht, -⟩ := bind_ok_iff.mp h
  exact ⟨t, ht⟩

/-- A staged text that was checked, and that nothing keeps from being written, is for a path at
which a file can be written. -/
theorem ready_of_checked (hh : fs.Houses root) (hn : OwnNames root)
    (hroot : project.root = absolute root) (ha : Accepted fs project entries) (he : e ∈ entries)
    (hfree : Free fs e) (hc : pendingFor fs texts (Path.parse e.1) = .ok o) :
    ∃ front name, Path.parse e.1 = absolute (front ++ [name]) ∧ Ready root fs front name := by
  obtain ⟨names, hparse, hnamed, hclear, hin⟩ := ha.path hh.wellFormed he hfree
  rw [hparse] at hc
  rw [hroot] at hin
  obtain ⟨present, hpresent, hread⟩ := checked_of_pendingFor hc
  have hfits : Fits names := by
    by_contra hf
    have hloc := locate_of_not_fits hnamed hf fs .follow
    rw [isPresent, stat, hloc] at hpresent
    cases hpresent
  have hfile : ∀ entry, fs.entry? (placeOf names) = some entry → ∃ c, entry = .file c := by
    intro entry hentry
    rw [isPresent_straight hh.wellFormed hnamed hclear.straight hfits, hentry] at hpresent
    obtain ⟨t, ht⟩ := hread (Except.ok.inj hpresent).symm
    obtain ⟨b, hb, -⟩ := bind_ok_iff.mp ht
    rw [readBytes, stat_of_present hh.wellFormed hnamed hclear.straight hfits hentry] at hb
    cases entry with
    | file c => exact ⟨c, rfl⟩
    | directory => cases hb
    | link t => cases hb
  have hbelow : root <+: names := by
    obtain ⟨r, hr, hbelow⟩ := hh.resolve_of_isInside hn hin
    rw [resolve_straight hh.wellFormed hnamed hclear.straight] at hr
    cases hr
    exact hbelow
  have hne : root ≠ names := by
    rintro rfl
    have hdir := hh.root
    rw [← placeOf_of_own hn] at hdir
    obtain ⟨c, hc⟩ := hfile _ hdir
    cases hc
  have hfront := prefix_dropLast hbelow hne
  rcases List.eq_nil_or_concat names with rfl | ⟨front, name, rfl⟩
  · exact absurd (List.prefix_nil.mp hbelow) hne
  · rw [List.concat_eq_append] at *
    rw [List.dropLast_concat] at hfront
    have hopen := hclear.isOpen
    rw [List.dropLast_concat] at hopen
    exact ⟨front, name, hparse, hnamed, hfits, hfront, hopen, hfile⟩

/-! ### Writing all or nothing -/

/-- Staged texts are refused before anything is written, or else what is pending is written. -/
theorem writeTexts_cases (project : Project) (texts : List (Text × Json)) (w : World) :
    (∃ fault, writeTexts project texts w = .error fault w) ∨
      ∃ pending, (texts.map fun e => Path.parse e.1).mapM (pendingFor w.files texts) = .ok pending ∧
        ∀ w', writeAll project.root (pending.filterMap id) w = .ok () w' →
          writeTexts project texts w = .ok (pending.filterMap id).length w' := by
  have hchecks := Moves.forM (R := @Eq World) (l := texts.map fun e => Path.parse e.1)
    (f := fun p => Run.lift (w.files.ensureInside project.root p)) fun p _ => Moves.lift _
  rw [writeTexts, bind_of_ok (show (get : Run World) w = .ok w w from rfl)]
  cases hc : (texts.map fun e => Path.parse e.1).forM
      (fun p => Run.lift (w.files.ensureInside project.root p)) w with
  | error fault u =>
    obtain rfl : w = u := hchecks.of_error hc
    exact .inl ⟨fault, bind_of_error hc⟩
  | ok a u =>
    obtain rfl : w = u := hchecks.of_ok hc
    rw [bind_of_ok hc]
    cases hp : (texts.map fun e => Path.parse e.1).mapM (pendingFor w.files texts) with
    | error fault => exact .inl ⟨fault, rfl⟩
    | ok pending =>
      refine .inr ⟨pending, rfl, fun w' hw' => ?_⟩
      rw [bind_of_ok (Run.lift_ok pending w), bind_of_ok hw']
      rfl

/-- What is pending is for some of the paths, in their order. -/
theorem pending_sublist {paths : List Path}
    (h : List.Forall₂ (fun p o => pendingFor fs texts p = .ok o) paths pending) :
    ((pending.filterMap id).map Prod.fst).Sublist paths := by
  induction h with
  | nil => exact .slnil
  | @cons p o paths pending hp _ ih =>
    cases o with
    | none => exact ih.cons p
    | some target =>
      rw [← pendingFor_eq_some hp]
      exact ih.cons_cons target.1

/-- Staged texts that pass the checks are written, if nothing keeps them from it. -/
theorem writeAll_of_checked (hroot : project.root = absolute root) (hn : OwnNames root)
    (hw : w.files.Houses root) (ha : Accepted w.files project entries)
    (hfree : Unobstructed w.files entries)
    (hp : ((asTexts entries).map fun e => Path.parse e.1).mapM
      (pendingFor w.files (asTexts entries)) = .ok pending) :
    ∃ w', writeAll project.root (pending.filterMap id) w = .ok () w' := by
  have hall := forall₂_of_except_mapM hp
  have hready (e : Text × Text) (he : e ∈ entries) : ∃ front name,
      Path.parse e.1 = absolute (front ++ [name]) ∧ Ready root w.files front name := by
    have hmem : Path.parse e.1 ∈ (asTexts entries).map fun e => Path.parse e.1 :=
      List.mem_map.mpr ⟨(e.1, .str e.2), List.mem_map_of_mem he, rfl⟩
    obtain ⟨o, -, ho⟩ := exists_of_forall₂_left hall hmem
    exact ready_of_checked hw hn hroot ha he (hfree.free e he) ho
  -- A target that passed the checks is no directory, so none is on the way to another.
  have hapart (e : Text × Text) (he : e ∈ entries) (e' : Text × Text) (he' : e' ∈ entries)
      (hne : e ≠ e') : ¬ placeFor e <+: placeFor e' := by
    intro hle
    obtain heq | hdir := hfree.apart e he e' he' hle
    · exact hne heq
    · obtain ⟨front, name, hpath, hr⟩ := hready e he
      rw [placeFor, hpath] at hdir
      obtain ⟨c, hc⟩ := hr.file _ hdir
      cases hc
  rw [hroot]
  refine writeAll_of_writable hw.wellFormed (fun target ht => ?_) ?_
  · obtain ⟨e, he, rfl, -⟩ := (mem_pending_iff (ha.keyed hw.wellFormed) hp target).mp ht
    obtain ⟨front, name, hpath, hr⟩ := hready e he
    obtain ⟨b, hb⟩ := (hfree.free e he).bytes
    exact ⟨front, name, e.2, b, by rw [hpath], hb, hr⟩
  · have hpairs : (entries.map fun e => Path.parse e.1).Pairwise
        fun p p' => Apart (placeOf p.names) (placeOf p'.names) := by
      have hdistinct : entries.Nodup := List.Nodup.of_map _ ha.nodup
      rw [List.pairwise_map]
      refine hdistinct.imp_of_mem fun {e e'} he he' hne => ?_
      exact ⟨hapart e he e' he' hne, hapart e' he' e he hne.symm⟩
    rw [asTexts, List.map_map] at hall
    have htargets := hpairs.sublist (pending_sublist hall)
    rwa [List.pairwise_map] at htargets

/-- After staged texts were written, a path that nothing was in the way of leads to the place of its
names. -/
theorem Accepted.place_of_leads {gs : Files} (hwf : fs.WellFormed)
    (ha : Accepted fs project entries) (he : e ∈ entries) (hfree : Free fs e)
    (hg : TextsWritten entries fs gs) {l : Location} (hl : gs.Leads (Path.parse e.1) l) :
    l = placeFor e := by
  obtain ⟨names, hparse, hnamed, hclear, -⟩ := ha.path hwf he hfree
  rw [hparse] at hl
  rw [placeFor, hparse]
  refine placeOf_of_leads hg.wellFormed hnamed (fun front hne hf t ht => ?_) hl
  exact hclear.straight front hne hf t ((hg.grows.link _ t).mpr ht)

/-- Staged texts that were written are in their files, apart from files with carriage returns. -/
theorem exact_of_written (hw : w.files.Houses root) (ha : Accepted w.files project entries)
    (hfree : Unobstructed w.files entries) {n : Nat} {w' : World}
    (h : writeTexts project (asTexts entries) w = .ok n w') (he : e ∈ entries)
    (hr : ∀ b, w.files.readBytes (Path.parse e.1) = .ok b → 13 ∉ b) : Exact w'.files e := by
  have hwritten := textsWritten_of_writeTexts (ha.keyed hw.wellFormed) hw.wellFormed h
  obtain ⟨b, hb⟩ := (hfree.free e he).bytes
  refine hwritten.exact hw.wellFormed he ⟨b, hb, ?_, ?_⟩
  · rintro e' he' ⟨l, hl, hl'⟩
    -- Both paths lead to the place of their names, and it is no directory.
    have hplace := ha.place_of_leads hw.wellFormed he (hfree.free e he) hwritten hl
    have hplace' := ha.place_of_leads hw.wellFormed he' (hfree.free e' he') hwritten hl'
    have hle : placeFor e <+: placeFor e' := by rw [← hplace, ← hplace']
    obtain rfl | hdir := hfree.apart e he e' he' hle
    · rfl
    · obtain ⟨l', c, hl'', hc⟩ := hwritten.present e he
      rw [← hplace, ← hl''.unique hl] at hdir
      rw [contentAt?_eq_some, hwritten.grows.directory _ hdir] at hc
      cases hc
  · by_cases hpend : Pending w.files e
    · obtain ⟨l, c, hl, -⟩ := hwritten.present e he
      exact .inr ⟨e, he, ⟨l, hl, hl⟩, hpend⟩
    · have hread := not_not.mp hpend
      obtain ⟨old, hold, -⟩ := bind_ok_iff.mp hread
      have hbytes := encode_of_readText hold (hr old hold) hread
      rw [hb] at hbytes
      cases hbytes
      exact .inl hold

namespace Sample

/-- The page, with two source files beside it. -/
def twoSources : List (Location × Entry) :=
  [(["proj", "a.ts"], .file [120]), (["proj", "b.ts"], .file [121])]

/-- Texts for a file that is there and for a new one. -/
def oldAndNew : List (Text × Text) := [("/proj/a.ts", "two"), ("/proj/new/sub/c.ts", "z")]

/-- Texts for a file and for a directory. -/
def fileAndDirectory : List (Text × Text) := [("/proj/a.ts", "two"), ("/proj/app", "z")]

/-- Texts for a file and for a path that runs through another one. -/
def throughFile : List (Text × Text) := [("/proj/a.ts", "two"), ("/proj/b.ts/c.ts", "z")]

/-- Whether a text is staged under a resolved path inside the root. -/
def staysInside (fs : Files) (project : Project) (e : Text × Text) : Except Fault Bool := do
  let q ← fs.resolve (Path.parse e.1)
  let inside ← fs.isInside project.root q
  return inside && q.text == e.1

theorem accepted_of_staysInside {fs : Files} {project : Project} {entries : List (Text × Text)}
    (hk : (Assoc.keys entries).Nodup)
    (h : ∀ e ∈ entries, (staysInside fs project e).toOption = some true) :
    Accepted fs project entries := by
  refine ⟨hk, fun e he => ?_⟩
  obtain ⟨q, hq, hrest⟩ := bind_ok_iff.mp (ok_of_toOption (h e he))
  obtain ⟨inside, hin, hend⟩ := bind_ok_iff.mp hrest
  have hboth : (inside && q.text == e.1) = true := Except.ok.inj hend
  rw [Bool.and_eq_true, beq_iff_eq] at hboth
  exact ⟨_, q, hq, hboth.2, by rw [hin, hboth.1]⟩

end Sample

open Sample

end RoutePlugins.Pipeline
