import RoutePlugins.Proofs.Files.Straight

/-!
# Clear paths

The way along a path is clear if it holds directories, as far as it holds anything. Directories can
be made along a clear way, a file can be written at its end and removed again, and each of these
changes nothing else.
-/

namespace RoutePlugins.Files

open List

/-! ### Lengths of paths -/

theorem nameSize_append (ps qs : List CodePoint) :
    Text.nameSize ⟨ps ++ qs⟩ = Text.nameSize ⟨ps⟩ + Text.nameSize ⟨qs⟩ := by
  have hfold (qs : List CodePoint) (n : Nat) :
      qs.foldl (fun n p => n + (Text.namePointBytes p).length) n = n + Text.nameSize ⟨qs⟩ := by
    induction qs generalizing n with
    | nil => rfl
    | cons q qs ih =>
      rw [Text.nameSize, foldl_cons, foldl_cons, ih, ih]
      omega
  rw [Text.nameSize, foldl_append, hfold qs]
  rfl

private theorem joinWith_front (front rest : List Text) :
    (Text.joinWith "/" front).points <+: (Text.joinWith "/" (front ++ rest)).points := by
  by_cases hf : front = []
  · subst hf
    exact nil_prefix
  by_cases hr : rest = []
  · rw [hr, append_nil]
  · rw [Text.points_joinWith_append hf hr]
    exact prefix_append _ _

variable {names : List Text} {fs gs : Files}

theorem Fits.front {front : List Text} (h : Fits names) (hf : front <+: names) : Fits front := by
  obtain ⟨rest, rfl⟩ := hf
  obtain ⟨more, hmore⟩ := joinWith_front front rest
  refine Nat.lt_of_le_of_lt ?_ h
  rw [text_absolute, text_absolute, ← hmore, ← cons_append, nameSize_append]
  exact Nat.le_add_right _ _

/-! ### Looking up -/

/-- From the root along the names there are directories, as far as there is anything, and no link is
at the end. -/
structure Clear (fs : Files) (names : List Text) : Prop where
  way : ∀ front, front <+: names.dropLast →
    (fs.entry? (placeOf front)).all Entry.isDirectory = true
  notLink : ∀ t, fs.entry? (placeOf names) ≠ some (.link t)

instance (fs : Files) (names : List Text) : Decidable (fs.Clear names) :=
  decidable_of_iff
    ((∀ front ∈ names.dropLast.inits, (fs.entry? (placeOf front)).all Entry.isDirectory = true) ∧
      (fs.entry? (placeOf names)).all (fun e => e.isDirectory || e.isFile) = true)
    (by
      constructor
      · rintro ⟨hway, hlast⟩
        refine ⟨fun front hf => hway front ((mem_inits _ _).mpr hf), fun t ht => ?_⟩
        rw [ht] at hlast
        cases hlast
      · intro h
        refine ⟨fun front hf => h.way front ((mem_inits _ _).mp hf), ?_⟩
        cases he : fs.entry? (placeOf names) with
        | none => rfl
        | some e =>
          cases e with
          | link t => exact absurd he (h.notLink t)
          | directory => rfl
          | file c => rfl)

theorem all_isDirectory_iff {o : Option Entry} :
    o.all Entry.isDirectory = true ↔ o = none ∨ o = some .directory := by
  cases o with
  | none => simp
  | some e =>
    cases e with
    | directory => simp [Entry.isDirectory]
    | file c => simp [Entry.isDirectory]
    | link t => simp [Entry.isDirectory]

theorem Clear.straight (h : fs.Clear names) : fs.Straight names := by
  intro front _ hf t ht
  by_cases hfront : front = names
  · exact h.notLink t (hfront ▸ ht)
  · have hway := h.way front (prefix_dropLast hf hfront)
    rw [ht] at hway
    cases hway

/-- A clear path leads to its end if the last directory is there. -/
theorem locate_clear (hwf : fs.WellFormed) (hn : ∀ n ∈ names, PathName n) (hc : fs.Clear names)
    (hf : Fits names) (ending : Ending) :
    fs.locate ending (absolute names) =
      if (fs.entry? (placeOf names.dropLast)).isSome then
        .ok (placeOf names, fs.entry? (placeOf names))
      else refuse .missing (absolute names) := by
  obtain ⟨hparent, h⟩ | ⟨hparent, h | ⟨-, front, c, hfront, hfile⟩⟩ :=
    locate_straight hwf hn hc.straight ending hf
  · rw [hparent]
    exact h
  · have hway := all_isDirectory_iff.mp (hc.way _ (prefix_refl _))
    rw [hway.resolve_right hparent]
    exact h
  · have hway := hc.way front hfront
    rw [hfile] at hway
    cases hway

/-! ### Making directories -/

/-- What making the directory at a place, and those above it, does. -/
structure Made (names : Location) (fs gs : Files) : Prop where
  wellFormed : gs.WellFormed
  working : gs.workingDirectory = fs.workingDirectory
  entry : ∀ l, gs.entry? l = if l <+: names then some .directory else fs.entry? l

theorem Made.directory {names : Location} (h : Made names fs gs) :
    gs.entry? names = some .directory := by
  rw [h.entry, if_pos (prefix_refl _)]

/-- There are directories from the root to a place, as far as there is anything. -/
def Open (fs : Files) (names : Location) : Prop :=
  ∀ front, front <+: names → (fs.entry? front).all Entry.isDirectory = true

instance (fs : Files) (names : Location) : Decidable (fs.Open names) :=
  decidable_of_iff (∀ front ∈ names.inits, (fs.entry? front).all Entry.isDirectory = true)
    (by simp only [Open, mem_inits])

theorem Open.front {front names : Location} (h : fs.Open names) (hf : front <+: names) :
    fs.Open front :=
  fun mid hm => h mid (hm.trans hf)

theorem Made.isOpen {names : Location} (h : Made names fs gs) : gs.Open names := by
  intro l hl
  rw [h.entry, if_pos hl]
  rfl

theorem placeOf_dropLast (names : List Text) : placeOf names.dropLast = (placeOf names).dropLast :=
  map_dropLast

theorem placeOf_front {front : List Text} (h : front <+: names) :
    placeOf front <+: placeOf names := h.map _

theorem Open.clear (h : fs.Open (placeOf names)) : fs.Clear names := by
  constructor
  · intro front hfront
    exact h _ (placeOf_front (hfront.trans (List.dropLast_prefix names)))
  · intro t ht
    have hlast := h _ (prefix_refl _)
    rw [ht] at hlast
    cases hlast

/-- A clear path runs through open directories. -/
theorem Clear.isOpen (h : fs.Clear names) : fs.Open (placeOf names.dropLast) := by
  intro l hl
  have hplace : l = placeOf (names.dropLast.take l.length) := by
    rw [placeOf, map_take]
    exact prefix_iff_eq_take.mp hl
  rw [hplace]
  exact h.way _ (List.take_prefix _ _)

section

variable {names : List Text} (hn : ∀ n ∈ names, PathName n) (hf : Fits names)

include hn hf

/-- A directory that is there already is left alone. -/
theorem ensureDirectory_of_present {fs : Files} (hwf : fs.WellFormed)
    (ho : fs.Open (placeOf names)) (hd : fs.entry? (placeOf names) = some .directory) :
    fs.ensureDirectory (absolute names) = .ok fs := by
  have hloc (ending : Ending) :
      fs.locate ending (absolute names) = .ok (placeOf names, some .directory) :=
    locate_of_present hwf hn ho.clear.straight ending hf hd
  have hmake : fs.makeDirectory (absolute names) = refuse .present (absolute names) := by
    rw [makeDirectory, hloc]
    rfl
  have hisdir : fs.isDirectory (absolute names) = .ok true := by
    rw [isDirectory, stat, hloc]
    rfl
  simp only [ensureDirectory, hmake, refuse, hisdir]
  rfl

/-- A directory is made in a directory, unless it is there. -/
theorem ensureDirectory_of_inside {fs : Files} (hwf : fs.WellFormed) (ho : fs.Open (placeOf names))
    (hd : fs.entry? (placeOf names.dropLast) = some .directory) :
    ∃ gs, fs.ensureDirectory (absolute names) = .ok gs ∧ Made (placeOf names) fs gs := by
  have hloc (ending : Ending) :
      fs.locate ending (absolute names) = .ok (placeOf names, fs.entry? (placeOf names)) := by
    rw [locate_clear hwf hn ho.clear hf, hd]
    rfl
  have hway {l : Location} (hl : l <+: placeOf names) (hne : l ≠ placeOf names) :
      fs.entry? l = some .directory := by
    have hl' := prefix_dropLast hl hne
    rw [← placeOf_dropLast] at hl'
    by_cases heq : l = placeOf names.dropLast
    · rw [heq, hd]
    · exact hwf.above hd hl' heq
  obtain hnone | hdir := all_isDirectory_iff.mp (ho _ (prefix_refl _))
  · have hvacant : fs.Vacant (placeOf names) := by
      rw [placeOf_dropLast] at hd
      exact ⟨by simp [hnone], hd⟩
    refine ⟨fs.put (placeOf names) .directory, ?_, hvacant.wellFormed_put hwf _, rfl, fun l => ?_⟩
    · have hmake : fs.makeDirectory (absolute names) =
          .ok (fs.put (placeOf names) .directory) := by
        rw [makeDirectory, hloc, hnone]
        rfl
      rw [ensureDirectory, hmake]
    · rw [entry_put hvacant.ne_nil]
      by_cases heq : l = placeOf names
      · rw [if_pos heq, heq, if_pos (prefix_refl _)]
      · rw [if_neg heq]
        split
        · next hl => rw [hway hl heq]
        · rfl
  · refine ⟨fs, ensureDirectory_of_present hn hf hwf ho hdir, hwf, rfl, fun l => ?_⟩
    split
    · next hl =>
      by_cases heq : l = placeOf names
      · rw [heq, hdir]
      · exact hway hl heq
    · rfl

/-- No directory can be made where the one above is missing. -/
theorem ensureDirectory_of_missing {fs : Files} (hwf : fs.WellFormed)
    (ho : fs.Open (placeOf names)) (hd : fs.entry? (placeOf names.dropLast) = none) :
    fs.ensureDirectory (absolute names) = refuse .missing (absolute names) := by
  have hmake : fs.makeDirectory (absolute names) = refuse .missing (absolute names) := by
    rw [makeDirectory, locate_clear hwf hn ho.clear hf, hd]
    rfl
  simp only [ensureDirectory, hmake, refuse]

end

theorem ensureDirectoriesFrom_of_ok {anchor : Anchor} {names : List Text} {fs gs : Files}
    (h : fs.ensureDirectory ⟨anchor, names.reverse⟩ = .ok gs) :
    ensureDirectoriesFrom anchor names fs = (gs, .ok ()) := by
  unfold ensureDirectoriesFrom
  dsimp only
  rw [h]

/-- A directory and those above it are made where the way is open. -/
theorem made_ensureDirectories {names : List Text} (hn : ∀ n ∈ names, PathName n) (hf : Fits names)
    {fs : Files} (hwf : fs.WellFormed) (ho : fs.Open (placeOf names)) :
    ∃ gs, ensureDirectories (absolute names) fs = .ok () gs ∧ Made (placeOf names) fs gs := by
  have hfrom : ∃ gs, ensureDirectoriesFrom .root names.reverse fs = (gs, .ok ()) ∧
      Made (placeOf names) fs gs := by
    induction names using List.reverseRecOn with
    | nil =>
      obtain ⟨gs, hgs, hmade⟩ := ensureDirectory_of_inside hn hf hwf ho rfl
      exact ⟨gs, ensureDirectoriesFrom_of_ok hgs, hmade⟩
    | append_singleton front name ih =>
      have hpath : absolute (front ++ [name]) = ⟨.root, (name :: front.reverse).reverse⟩ := by
        simp [absolute]
      have hfront : front <+: front ++ [name] := prefix_append _ _
      have hplace := placeOf_front hfront
      rw [reverse_concat]
      obtain hnone | hdir := all_isDirectory_iff.mp (ho _ hplace)
      · obtain ⟨mid, hmid, hmade⟩ := ih (fun n hm => hn n (by simp [hm])) (hf.front hfront)
          (ho.front hplace)
        have hinside : mid.entry? (placeOf (front ++ [name]).dropLast) = some .directory := by
          rw [dropLast_concat, hmade.directory]
        have hopen : mid.Open (placeOf (front ++ [name])) := by
          intro l hl
          rw [hmade.entry]
          split
          · rfl
          · exact ho l hl
        obtain ⟨gs, hgs, hlast⟩ := ensureDirectory_of_inside hn hf hmade.wellFormed hopen hinside
        have hmissing := ensureDirectory_of_missing hn hf hwf ho
          (by rw [dropLast_concat, hnone])
        rw [hpath] at hgs hmissing
        refine ⟨gs, ?_, hlast.wellFormed, hlast.working.trans hmade.working, fun l => ?_⟩
        · unfold ensureDirectoriesFrom
          dsimp only
          rw [hmissing]
          simp only [refuse, hmid, hgs]
        rw [hlast.entry, hmade.entry]
        split
        · rfl
        · next hl => rw [if_neg fun hl' => hl (hl'.trans hplace)]
      · obtain ⟨gs, hgs, hmade⟩ := ensureDirectory_of_inside hn hf hwf ho
          (by rw [dropLast_concat, hdir])
        rw [hpath] at hgs
        exact ⟨gs, ensureDirectoriesFrom_of_ok hgs, hmade⟩
  obtain ⟨gs, hgs, hmade⟩ := hfrom
  refine ⟨gs, ?_, hmade⟩
  simp only [ensureDirectories, absolute, hgs]

/-! ### Writing and removing files -/

section

variable {front : List Text} {name : Text} (hn : ∀ n ∈ front ++ [name], PathName n)
  (hf : Fits (front ++ [name])) {fs : Files} (hwf : fs.WellFormed) (ho : fs.Open (placeOf front))
  (hp : ∀ e, fs.entry? (placeOf (front ++ [name])) = some e → ∃ c, e = .file c) {root : List Text}
  (hr : root <+: front) {text : Text} {b : Bytes} (hb : Utf8.encode text = .ok b)

include hn hf hwf ho hp hr hb

/-- A file is put at the end of an open way, once the directories above it are made. -/
theorem writeText_eq_put :
    ∃ mid, ensureDirectories (absolute front) fs = .ok () mid ∧ Made (placeOf front) fs mid ∧
      mid.Vacant (placeOf (front ++ [name])) ∧
      writeText (absolute root) (absolute (front ++ [name])) text fs =
        .ok () (mid.put (placeOf (front ++ [name])) (.file b)) := by
  have hplace : placeOf (front ++ [name]) = placeOf front ++ [name.asName] := placeOf_append _ _
  have hclear {gs : Files} (hgs : gs.Open (placeOf front))
      (hlast : gs.entry? (placeOf (front ++ [name])) = fs.entry? (placeOf (front ++ [name]))) :
      gs.Clear (front ++ [name]) := by
    refine ⟨fun mid hm => ?_, fun t ht => ?_⟩
    · rw [dropLast_concat] at hm
      exact hgs _ (placeOf_front hm)
    · obtain ⟨c, hc⟩ := hp _ (hlast.symm.trans ht)
      cases hc
  have hin : fs.ensureInside (absolute root) (absolute (front ++ [name])) = .ok () := by
    rw [ensureInside, isInside_straight hwf hn (hclear ho rfl).straight
      (hr.trans (prefix_append _ _))]
    rfl
  obtain ⟨mid, hmid, hmade⟩ := made_ensureDirectories (fun n hm => hn n (by simp [hm]))
    (hf.front (prefix_append _ _)) hwf ho
  have hlast : mid.entry? (placeOf (front ++ [name])) = fs.entry? (placeOf (front ++ [name])) := by
    rw [hmade.entry, if_neg]
    rw [hplace]
    exact not_prefix_of_concat _ _
  have hwrite : mid.writeBytes (absolute (front ++ [name])) b =
      .ok (mid.put (placeOf (front ++ [name])) (.file b)) := by
    have hloc := locate_clear hmade.wellFormed hn (hclear hmade.isOpen hlast) hf .create
    rw [dropLast_concat, hmade.directory, hlast] at hloc
    rw [writeBytes, hloc]
    cases he : fs.entry? (placeOf (front ++ [name])) with
    | none => rfl
    | some e =>
      obtain ⟨c, rfl⟩ := hp e he
      rfl
  refine ⟨mid, hmid, hmade, ⟨fun hd => ?_, by rw [hplace, dropLast_concat, hmade.directory]⟩,
    ?_⟩
  · rw [hlast] at hd
    obtain ⟨c, hc⟩ := hp _ hd
    cases hc
  · have hparent : (absolute (front ++ [name])).parent = absolute front := by
      simp [absolute, Path.parent]
    unfold writeText
    rw [bind_of_ok (show (get : EStateM Fault Files Files) fs = .ok fs fs from rfl), hin,
      bind_of_ok (lift_ok () fs), hparent, bind_of_ok hmid]
    simp only [writeEncoded, hb, change]
    rw [bind_of_ok (show (get : EStateM Fault Files Files) mid = .ok mid mid from rfl), hwrite,
      bind_of_ok (lift_ok _ mid)]
    rfl

/-- A file is written at the end of an open way, with the directories above it. -/
theorem writeText_clear :
    ∃ gs, writeText (absolute root) (absolute (front ++ [name])) text fs = .ok () gs ∧
      gs.WellFormed ∧ gs.workingDirectory = fs.workingDirectory ∧
      ∀ l, gs.entry? l = if l = placeOf (front ++ [name]) then some (.file b)
        else if l <+: placeOf front then some .directory else fs.entry? l := by
  obtain ⟨mid, -, hmade, hvacant, hwrite⟩ := writeText_eq_put hn hf hwf ho hp hr hb
  refine ⟨_, hwrite, hvacant.wellFormed_put hmade.wellFormed _, hmade.working, fun l => ?_⟩
  rw [entry_put hvacant.ne_nil, hmade.entry]

/-- Where no file was, one that was written and then removed is written as before. -/
theorem writeText_of_removed (hnone : fs.entry? (placeOf (front ++ [name])) = none) :
    ∃ gs, writeText (absolute root) (absolute (front ++ [name])) text fs = .ok () gs ∧
      writeText (absolute root) (absolute (front ++ [name])) text
        (gs.without (placeOf (front ++ [name]))) = .ok () gs := by
  have hplace : placeOf (front ++ [name]) = placeOf front ++ [name.asName] := placeOf_append _ _
  obtain ⟨mid, -, hmade, hvacant, hwrite⟩ := writeText_eq_put hn hf hwf ho hp hr hb
  have hlast : mid.entry? (placeOf (front ++ [name])) = none := by
    rw [hmade.entry, if_neg, hnone]
    rw [hplace]
    exact not_prefix_of_concat _ _
  -- The directories are there now, so nothing but the file is put.
  obtain ⟨last, hlast', -, -, hagain⟩ := writeText_eq_put hn hf hmade.wellFormed hmade.isOpen
    (fun e he => by cases hlast.symm.trans he) hr hb
  have hsame : ensureDirectories (absolute front) mid = .ok () mid := by
    have hpresent := ensureDirectory_of_present (fun n hm => hn n (by simp [hm]))
      (hf.front (prefix_append _ _)) hmade.wellFormed hmade.isOpen hmade.directory
    rw [← reverse_reverse front] at hpresent
    have hfrom : ensureDirectoriesFrom .root front.reverse mid = (mid, .ok ()) :=
      ensureDirectoriesFrom_of_ok hpresent
    simp only [ensureDirectories, absolute, hfrom]
  cases hsame.symm.trans hlast'
  refine ⟨_, hwrite, ?_⟩
  rw [without_put hvacant.ne_nil hlast]
  exact hagain

end

section

variable {front : Location} (hn : ∀ n ∈ front, EntryName n) {name : Text} (hname : PathName name)
  (hf : Fits (front ++ [name]))

include hn

theorem placeOf_concat (name : Text) : placeOf (front ++ [name]) = front ++ [name.asName] := by
  rw [placeOf_append, placeOf_of_own hn]
  rfl

theorem Open.clear_concat {fs : Files} (ho : fs.Open front) {name : Text}
    (hl : ∀ t, fs.entry? (front ++ [name.asName]) ≠ some (.link t)) :
    fs.Clear (front ++ [name]) := by
  refine ⟨fun mid hm => ?_, ?_⟩
  · rw [dropLast_concat] at hm
    rw [placeOf_of_own fun n hx => hn n (hm.subset hx)]
    exact ho mid hm
  · rwa [placeOf_concat hn]

include hname in
theorem pathName_concat : ∀ n ∈ front ++ [name], PathName n :=
  forall_mem_concat.mpr ⟨fun n hm => (hn n hm).toPathName, hname⟩

include hname hf

/-- A file is written below a place, with the directories above it. -/
theorem writeText_open {fs : Files} (hwf : fs.WellFormed) (ho : fs.Open front)
    (hp : ∀ e, fs.entry? (front ++ [name.asName]) = some e → ∃ c, e = .file c) {root : Location}
    (hr : root <+: front) {text : Text} {b : Bytes} (hb : Utf8.encode text = .ok b) :
    ∃ gs, writeText (absolute root) (absolute (front ++ [name])) text fs = .ok () gs ∧
      gs.WellFormed ∧ gs.workingDirectory = fs.workingDirectory ∧
      ∀ l, gs.entry? l = if l = front ++ [name.asName] then some (.file b)
        else if l <+: front then some .directory else fs.entry? l := by
  rw [← placeOf_concat hn] at hp ⊢
  rw [← placeOf_of_own hn] at ho
  have hwrites := writeText_clear (pathName_concat hn hname) hf hwf ho hp hr hb
  rwa [placeOf_of_own hn] at hwrites

/-- A file is removed. -/
theorem removeFile_open {fs : Files} (hwf : fs.WellFormed) (ho : fs.Open front) {c : Bytes}
    (hc : fs.entry? (front ++ [name.asName]) = some (.file c)) :
    fs.removeFile (absolute (front ++ [name])) = .ok (fs.without (front ++ [name.asName])) := by
  have hdir := hwf.above hc (prefix_append _ _) (by simp)
  have hclear : fs.Clear (front ++ [name]) := ho.clear_concat hn (by simp [hc])
  have hloc := locate_clear hwf (pathName_concat hn hname) hclear hf .keep
  rw [placeOf_concat hn, dropLast_concat, placeOf_of_own hn, hdir, hc] at hloc
  rw [removeFile, hloc]
  rfl

end

/-- A directory is removed, with all that is in it. -/
theorem removeTree_open {names : Location} (hn : ∀ n ∈ names, EntryName n) (hf : Fits names)
    {fs : Files} (hwf : fs.WellFormed) (ho : fs.Open names)
    (hd : fs.entry? names = some .directory) :
    fs.removeTree (absolute names) = .ok (fs.withoutTree names) := by
  rw [← placeOf_of_own hn] at ho
  have hloc := locate_clear hwf (fun n hm => (hn n hm).toPathName) ho.clear hf .keep
  rw [placeOf_dropLast, placeOf_of_own hn, hwf.parent names _ hd, hd] at hloc
  rw [removeTree, hloc]
  rfl

end RoutePlugins.Files
