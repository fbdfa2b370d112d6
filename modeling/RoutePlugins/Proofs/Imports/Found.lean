import RoutePlugins.Proofs.Files.Resolved

/-!
# Imported files

A path is looked at before an import resolves to it. So whether it leads to a file is told without a
fault, its text is read as the path again, and the import is remembered just as it was found.
-/

namespace RoutePlugins

open List

variable {s t specifier : Text} {i : ResolvedImport}

/-! ### Texts put together from settled ones -/

namespace Text

theorem Settled.of_subset (h : t.Settled) (hs : ∀ p ∈ s.points, p ∈ t.points) :
    s.Settled := fun p hm => h p (hs p hm)

theorem Settled.append (hs : s.Settled) (ht : t.Settled) : (s ++ t).Settled :=
  forall_mem_append.mpr ⟨hs, ht⟩

theorem Settled.concat {ts : List Text} (h : ∀ t ∈ ts, t.Settled) : (concat ts).Settled := by
  intro p hm
  obtain ⟨t, ht, hp⟩ := mem_flatMap.mp hm
  exact h t ht p hp

theorem Settled.joinWith {sep : Text} (hsep : sep.Settled) {ts : List Text}
    (h : ∀ t ∈ ts, t.Settled) : (joinWith sep ts).Settled := by
  intro p hm
  rcases mem_joinWith hm with hm | ⟨t, ht, hm⟩
  · exact hsep p hm
  · exact h t ht p hm

theorem Settled.split (h : t.Settled) {sep : CodePoint} : ∀ piece ∈ t.split sep, piece.Settled := by
  intro piece hm
  obtain ⟨ps, hps, rfl⟩ := mem_map.mp hm
  exact h.of_subset fun p hp => (mem_piece_iff.mp ⟨ps, hps, hp⟩).1

end Text

namespace Path

variable {p : Path}

theorem settled_parse (h : t.Settled) : ∀ name ∈ (parse t).names, name.Settled :=
  fun name hm => h.split name (mem_filter.mp hm).1

theorem settled_text (h : ∀ name ∈ p.names, name.Settled) : p.text.Settled := by
  have hanchor : p.anchor.text.Settled := by
    cases p.anchor with
    | relative => exact Text.settled_ofChars _
    | root => exact Text.settled_ofChars _
    | doubleRoot => exact Text.settled_ofChars _
  have hout : p.writtenOut.Settled := hanchor.append (.joinWith (Text.settled_ofChars _) h)
  unfold text
  split
  · exact Text.settled_ofChars _
  · exact hout

theorem settled_names (h : p.text.Settled) : ∀ name ∈ p.names, name.Settled := by
  intro name hm
  have hout : p.text = p.writtenOut := by
    unfold text
    split
    · next heq =>
      rw [heq] at hm
      cases hm
    · rfl
  rw [hout] at h
  refine h.of_subset fun q hq => ?_
  exact mem_append.mpr (.inr (Text.mem_joinWith_of_mem hm hq))

/-! ### Double dots -/

private theorem mem_of_mem_foldl {f : List Text → Text → List Text}
    (hf : ∀ here name n, n ∈ f here name → n ∈ here ∨ n = name) {start names : List Text} {n : Text}
    (hm : n ∈ names.foldl f start) : n ∈ start ∨ n ∈ names := by
  induction names generalizing start with
  | nil => exact .inl hm
  | cons name rest ih =>
    rcases ih hm with h | h
    · rcases hf start name n h with h | rfl
      · exact .inl h
      · exact .inr (by simp)
    · exact .inr (by simp [h])

/-- Taking double dots lexically brings no new names. -/
theorem mem_of_mem_normalize {n : Text} (hm : n ∈ p.normalize.names) : n ∈ p.names := by
  have hstep : ∀ (c : Prop) [Decidable c] (here : List Text) (name n : Text),
      n ∈ (if c then here.dropLast else here ++ [name]) → n ∈ here ∨ n = name := by
    intro c _ here name n hn
    split at hn
    · exact .inl (dropLast_subset _ hn)
    · simpa using hn
  unfold normalize at hm
  split at hm
  · exact (mem_of_mem_foldl (fun _ _ _ => hstep _ _ _ _) hm).resolve_left not_mem_nil
  · exact (mem_of_mem_foldl (fun _ _ _ => hstep _ _ _ _) hm).resolve_left not_mem_nil

theorem IsPlain.normalize (h : p.IsPlain) : p.normalize.IsPlain :=
  fun n hm => h n (mem_of_mem_normalize hm)

theorem isAbsolute_normalize (p : Path) : p.normalize.isAbsolute = p.isAbsolute := by
  unfold normalize
  split
  · rfl
  · rfl

/-- A path from a root has no double dots. -/
def Flat (p : Path) : Prop := p.isAbsolute = true → ∀ n ∈ p.names, n ≠ ".."

theorem IsPlain.flat_normalize (h : p.IsPlain) : p.normalize.Flat := by
  intro habs n hm
  rw [isAbsolute_normalize] at habs
  exact ((proper_normalize habs h).2 n hm).notDots

/-- An absolute path without double dots stays as it is. -/
theorem normalize_normalize (habs : p.isAbsolute = true) (h : p.IsPlain) :
    p.normalize.normalize = p.normalize := by
  obtain ⟨habs', hnames⟩ := proper_normalize habs h
  rw [normalize, if_pos habs', foldDots_of_noDots fun n hm => (hnames n hm).notDots]
  rfl

end Path

/-! ### Paths that were looked at -/

/-- A text that can name a file has a byte for each code point at least. -/
theorem Text.length_le_nameSize (h : t.unnameable? = none) : t.points.length ≤ t.nameSize := by
  have hpoint : ∀ p ∈ t.points, 1 ≤ (namePointBytes p).length := by
    intro p hm
    cases p with
    | char c =>
      rw [namePointBytes, String.length_utf8EncodeChar]
      exact c.utf8Size_pos
    | half n =>
      obtain ⟨b, hb⟩ := Option.isSome_iff_exists.mp (nameByte_of_nameable h _ hm rfl)
      rw [namePointBytes, hb]
      exact Nat.le_refl 1
  have hfold : ∀ (ps : List CodePoint) (n : Nat), (∀ p ∈ ps, 1 ≤ (namePointBytes p).length) →
      n + ps.length ≤ ps.foldl (fun n p => n + (namePointBytes p).length) n := by
    intro ps
    induction ps with
    | nil => intro n _; exact Nat.le_refl n
    | cons p ps ih =>
      intro n hps
      have hp := hps p (by simp)
      have hrest := ih (n + (namePointBytes p).length) fun q hq => hps q (by simp [hq])
      rw [foldl_cons, length_cons]
      omega
  have hsize := hfold t.points 0 hpoint
  rwa [Nat.zero_add] at hsize

namespace Files

variable {fs : Files} {p : Path}

theorem stat_of_foundWith {q : Entry → Bool} (h : foundWith q (fs.stat p) = .ok true) :
    ∃ e, fs.stat p = .ok e := by
  cases hs : fs.stat p with
  | ok e => exact ⟨e, rfl⟩
  | error e =>
    rw [hs, foundWith] at h
    split at h
    · cases h
    · cases h

/-- A path that leads to something has a text that is kept as it is. -/
theorem settled_of_foundWith {q : Entry → Bool} (h : foundWith q (fs.stat p) = .ok true) :
    p.text.Settled := by
  obtain ⟨e, he⟩ := stat_of_foundWith h
  exact Text.settled_of_nameable (checkPath_eq_ok (checkPath_of_stat he)).1

end Files

namespace Imports

/-- A path that was looked at: it is read from its text, whether it leads to a file is known, and
its text is kept as it is. -/
structure LookedAt (fs : Files) (p : Path) : Prop where
  plain : p.IsPlain
  known : ∃ b, fs.isFile p = .ok b
  settled : p.text.Settled

variable {fs : Files}

variable {p root : Path} {ext : Text}

theorem LookedAt.of_isFile (hp : p.IsPlain) (h : fs.isFile p = .ok true) :
    LookedAt fs p := ⟨hp, ⟨true, h⟩, Files.settled_of_foundWith h⟩

/-- A plain name stays plain with a source extension behind it, and is no double dot. -/
theorem plainName_extended {name : Text} (hn : PlainName name) (he : ext ∈ sourceExts) :
    PlainName (name ++ ext) ∧ name ++ ext ≠ ".." := by
  have hlen : ∀ ext ∈ sourceExts, 3 ≤ ext.points.length ∧ ext.contains '/' = false := by decide
  obtain ⟨hl, hs⟩ := hlen ext he
  have hpoints : (name ++ ext).points = name.points ++ ext.points := rfl
  have hlong {t : Text} (ht : t.points.length < 3) : name ++ ext ≠ t := by
    rintro rfl
    rw [hpoints, length_append] at ht
    omega
  refine ⟨⟨?_, hlong (by decide), ?_⟩, hlong (by decide)⟩
  · have hne : (name ++ ext).points ≠ [] := by
      rw [hpoints]
      intro h
      rw [append_eq_nil_iff] at h
      rw [h.2] at hl
      simp at hl
    simpa [Text.isEmpty] using hne
  · rw [Text.contains_eq_false] at hs ⊢
    rw [hpoints, mem_append, not_or]
    exact ⟨Text.contains_eq_false.mp hn.noSlash, hs⟩

private theorem extendName_eq_ok {q : Path} (hp : p.IsPlain) (he : ext ∈ sourceExts)
    (h : p.extendName ext = .ok q) : q.IsPlain ∧ (p.Flat → q.Flat) := by
  unfold Path.extendName at h
  split at h
  · cases h
  · next hne =>
    have hname : PlainName p.name := by
      unfold Path.name
      cases hl : p.names.getLast? with
      | none =>
        rw [List.getLast?_eq_none_iff.mp hl] at hne
        simp at hne
      | some name => exact hp name (mem_of_getLast? hl)
    obtain ⟨hnew, hdots⟩ := plainName_extended hname he
    dsimp only at h
    rw [hnew.noSlash] at h
    cases h
    exact ⟨hp.parent.child hnew, fun hflat habs =>
      forall_mem_concat.mpr ⟨fun n hm => hflat habs n (dropLast_subset _ hm), hdots⟩⟩

/-- An index file lies in the directory of a candidate. -/
private theorem flat_index (hp : p.Flat) (he : ext ∈ sourceExts) :
    (p.joinText ("index" ++ ext)).Flat := by
  have hnames : ∀ ext ∈ sourceExts, (Path.parse ("index" ++ ext)).isAbsolute = false ∧
      ∀ n ∈ (Path.parse ("index" ++ ext)).names, n ≠ ".." := by
    decide
  obtain ⟨hrel, hdots⟩ := hnames ext he
  rw [Path.joinText, Path.join, if_neg (by simp [hrel])]
  intro habs n hm
  exact (mem_append.mp hm).elim (hp habs n) (hdots n)

private theorem lookedAt_of_findExtended {exts : List Text} (hexts : ∀ e ∈ exts, e ∈ sourceExts)
    {candidate p : Path} (hc : candidate.IsPlain)
    (h : findExtended fs candidate exts = .ok (some p)) :
    LookedAt fs p ∧ (candidate.Flat → p.Flat) := by
  induction exts with
  | nil => cases h
  | cons ext rest ih =>
    obtain ⟨q, hq, h⟩ := bind_ok_iff.mp h
    obtain ⟨b, hb, h⟩ := bind_ok_iff.mp h
    cases b with
    | true =>
      cases h
      obtain ⟨hplain, hflat⟩ := extendName_eq_ok hc (hexts ext (by simp)) hq
      exact ⟨.of_isFile hplain hb, hflat⟩
    | false => exact ih (fun e hm => hexts e (by simp [hm])) h

/-- The source that a candidate stands for was looked at. If it stands for none, it is no file. -/
theorem findSource_eq_ok {candidate : Path} (hc : candidate.IsPlain) {o : Option Path}
    (h : findSource fs sourceExts candidate = .ok o) :
    (∀ p, o = some p → LookedAt fs p ∧ (candidate.Flat → p.Flat)) ∧
      (o = none → fs.isFile candidate = .ok false) := by
  have hsome {p : Path} (hp : LookedAt fs p) (hflat : candidate.Flat → p.Flat) :
      (∀ q, some p = some q → LookedAt fs q ∧ (candidate.Flat → q.Flat)) ∧
        (some p = none → fs.isFile candidate = .ok false) := by
    constructor
    · rintro q ⟨⟩
      exact ⟨hp, hflat⟩
    · rintro ⟨⟩
  unfold findSource at h
  obtain ⟨b, hb, h⟩ := bind_ok_iff.mp h
  cases b with
  | true =>
    cases h
    exact hsome (.of_isFile hc hb) id
  | false =>
    obtain ⟨extended, hx, h⟩ := bind_ok_iff.mp h
    cases extended with
    | some p =>
      cases h
      obtain ⟨hp, hflat⟩ := lookedAt_of_findExtended (fun _ hm => hm) hc hx
      exact hsome hp hflat
    | none =>
      obtain ⟨index, hi, h⟩ := bind_ok_iff.mp h
      cases index with
      | some p =>
        cases h
        obtain ⟨hm, hp⟩ := mem_of_findM? hi
        obtain ⟨ext, hext, rfl⟩ := mem_map.mp hm
        exact hsome (.of_isFile (hc.join (Path.isPlain_parse _)) hp) fun hf => flat_index hf hext
      | none =>
        obtain ⟨d, hd, h⟩ := bind_ok_iff.mp h
        cases d with
        | true =>
          cases h
          exact hsome ⟨hc, ⟨false, hb⟩, Files.settled_of_foundWith hd⟩ id
        | false =>
          cases h
          constructor
          · rintro q ⟨⟩
          · exact fun _ => hb

/-- The first source among some candidates was looked at. If there is none, no candidate is a
file. -/
theorem firstSource_eq_ok {candidates : List Path} (hc : ∀ c ∈ candidates, c.IsPlain)
    {o : Option Path} (h : firstSource fs candidates = .ok o) :
    (∀ p, o = some p → LookedAt fs p ∧ p.Flat) ∧
      (o = none → ∀ c ∈ candidates, fs.isFile c.normalize = .ok false) := by
  induction candidates with
  | nil =>
    cases h
    simp
  | cons c rest ih =>
    obtain ⟨o', ho', h⟩ := bind_ok_iff.mp h
    have hplain := hc c (by simp)
    obtain ⟨hfound, hno⟩ := findSource_eq_ok hplain.normalize ho'
    cases o' with
    | some p =>
      cases h
      refine ⟨fun q hq => ?_, by simp⟩
      obtain ⟨hlooked, hflat⟩ := hfound q hq
      exact ⟨hlooked, hflat hplain.flat_normalize⟩
    | none =>
      obtain ⟨hfound', hno'⟩ := ih (fun c hm => hc c (by simp [hm])) h
      exact ⟨hfound', fun ho => forall_mem_cons.mpr ⟨hno rfl, hno' ho⟩⟩

/-! ### What specifiers resolve to -/

/-- A root from which imports are resolved: an absolute path whose text is kept as it is. -/
structure IsRoot (root : Path) : Prop where
  absolute : root.isAbsolute = true
  plain : root.IsPlain
  settled : root.text.Settled

/-- A resolved path may be a root. -/
theorem isRoot_of_resolve (hn : fs.StartsProper) (h : fs.resolve p = .ok root) : IsRoot root where
  absolute := (Files.proper_of_resolve hn h).1
  plain := Files.isPlain_of_resolve hn h
  settled := Text.settled_of_nameable (Files.nameable_of_resolve h)

theorem isPlain_projectCandidates (hroot : root.IsPlain) (aliases : Option Aliases)
    (specifier : Text) : ∀ c ∈ projectCandidates root aliases specifier, c.IsPlain := by
  cases aliases with
  | none => simp [projectCandidates]
  | some a =>
    have hbase : (root.joinText a.baseUrl).normalize.IsPlain :=
      (hroot.join (Path.isPlain_parse _)).normalize
    refine forall_mem_concat.mpr ⟨fun c hm => ?_, hbase.join (Path.isPlain_parse _)⟩
    obtain ⟨⟨pattern, targets⟩, -, hm⟩ := mem_flatMap.mp hm
    obtain ⟨target, -, rfl⟩ := mem_map.mp hm
    exact hbase.join (Path.isPlain_parse _)

/-- The path at which a package would be installed. -/
def packagePath (root : Path) (specifier : Text) : Path :=
  ((root.child "node_modules").joinText specifier).normalize

theorem plainName_nodeModules : PlainName "node_modules" :=
  ⟨by decide, by decide, by decide⟩

/-- The candidates of a specifier that does not begin with a dot. -/
theorem isPlain_bareCandidates (hroot : root.IsPlain) {importer : Path} (hi : importer.IsPlain)
    (aliases : Option Aliases) (specifier : Text) :
    ∀ c ∈ projectCandidates root aliases specifier ++
      [packagePath root specifier, importer.parent.joinText specifier], c.IsPlain := by
  refine forall_mem_append.mpr ⟨isPlain_projectCandidates hroot aliases specifier,
    forall_mem_cons.mpr ⟨?_, forall_mem_singleton.mpr ?_⟩⟩
  · exact ((hroot.child plainName_nodeModules).join (Path.isPlain_parse _)).normalize
  · exact hi.parent.join (Path.isPlain_parse _)

private theorem settled_packagePath (hroot : IsRoot root) (hs : specifier.Settled) :
    (packagePath root specifier).text.Settled := by
  refine Path.settled_text fun name hm => ?_
  have hm := Path.mem_of_mem_normalize hm
  unfold Path.joinText Path.join at hm
  split at hm
  · exact Path.settled_parse hs name hm
  · rcases mem_append.mp hm with hm | hm
    · rcases mem_append.mp hm with hm | hm
      · exact Path.settled_names hroot.settled name hm
      · rw [mem_singleton.mp hm]
        exact Text.settled_ofChars _
    · exact Path.settled_parse hs name hm

/-- Whatever a specifier resolves to was looked at, and its double dots were taken lexically. -/
theorem lookedAt_of_resolve (hroot : IsRoot root) {aliases : Option Aliases}
    (hs : specifier.Settled) {importer : Path} (hi : importer.IsPlain)
    (h : resolve fs root aliases specifier importer = .ok p) : LookedAt fs p ∧ p.Flat := by
  have hbeside : (importer.parent.joinText specifier).IsPlain :=
    hi.parent.join (Path.isPlain_parse _)
  have hmodules := hroot.plain.child plainName_nodeModules
  have hjoined : ((root.child "node_modules").joinText specifier).IsPlain :=
    hmodules.join (Path.isPlain_parse _)
  unfold resolve at h
  split at h
  · obtain ⟨o, ho, h⟩ := bind_ok_iff.mp h
    have hfound := firstSource_eq_ok (by simpa using hbeside) ho
    cases o with
    | some q =>
      cases h
      exact hfound.1 p rfl
    | none => cases h
  · obtain ⟨o, ho, h⟩ := bind_ok_iff.mp h
    obtain ⟨hfound, hno⟩ :=
      firstSource_eq_ok (isPlain_bareCandidates hroot.plain hi aliases specifier) ho
    cases o with
    | some q =>
      cases h
      exact hfound p rfl
    | none =>
      dsimp only at h
      split at h
      · cases h
      · cases h
        -- The package was looked at first, before it was given up.
        have hfile := hno rfl (packagePath root specifier) (by simp)
        have habs : ((root.child "node_modules").joinText specifier).isAbsolute = true :=
          Path.isAbsolute_join (p := root.child "node_modules") hroot.absolute _
        rw [packagePath, Path.normalize_normalize habs hjoined] at hfile
        exact ⟨⟨hjoined.normalize, ⟨false, hfile⟩, settled_packagePath hroot hs⟩,
          hjoined.flat_normalize⟩

end Imports

/-! ### Bindings -/

/-- Every text of a binding is kept as it is. -/
structure ImportBinding.Settled (b : ImportBinding) : Prop where
  specifier : b.specifier.Settled
  exportName : b.exportName.Settled
  localName : ∀ s, b.localName = some s → s.Settled

namespace ParsedFile

/-- The text of a node is made of characters. -/
theorem settled_text (f : ParsedFile) (n : Node) : (f.text n).Settled := Text.settled_ofChars _

theorem settled_stringValue {f : ParsedFile} {n : Node} (h : f.stringValue? n = some s) :
    s.Settled := by
  unfold stringValue? at h
  split at h
  · cases h
    refine .concat fun t hm => ?_
    obtain ⟨c, -, rfl⟩ := mem_map.mp hm
    exact f.settled_text c
  · split at h
    · split at h
      · cases h
      · cases h
        refine (f.settled_text n).of_subset fun p hp => ?_
        exact mem_of_mem_drop (dropLast_subset _ hp)
    · cases h

end ParsedFile

namespace ImportBinding

variable {f : ParsedFile}

private theorem settled_ofSpecifier (hs : specifier.Settled) (spec : Node) :
    ∀ b ∈ ofSpecifier f specifier spec, b.Settled := by
  unfold ofSpecifier
  split
  · simp
  · split
    · simp
    · next name _ =>
      intro b hm
      rw [mem_singleton.mp hm]
      have himported : ∀ s, (if name.isA "string" then f.stringValue? name
          else some (f.text name)) = some s → s.Settled := by
        intro s hsome
        split at hsome
        · exact ParsedFile.settled_stringValue hsome
        · cases hsome
          exact f.settled_text name
      refine ⟨hs, ?_, ?_⟩
      · dsimp only
        cases hi : (if name.isA "string" then f.stringValue? name else some (f.text name)) with
        | none => exact Text.settled_ofChars _
        | some s => exact himported s hi
      · intro s hsome
        dsimp only at hsome
        split at hsome
        · cases hsome
          exact f.settled_text _
        · exact himported s hsome

private theorem settled_ofClausePart (hs : specifier.Settled) (part : Node) :
    ∀ b ∈ ofClausePart f specifier part, b.Settled := by
  unfold ofClausePart
  split
  · intro b hm
    rw [mem_singleton.mp hm]
    refine ⟨hs, Text.settled_ofChars _, ?_⟩
    rintro s ⟨⟩
    exact f.settled_text part
  · split
    · intro b hm
      rw [mem_singleton.mp hm]
      refine ⟨hs, Text.settled_ofChars _, fun s hsome => ?_⟩
      obtain ⟨n, -, rfl⟩ := Option.map_eq_some_iff.mp hsome
      exact f.settled_text n
    · split
      · intro b hm
        obtain ⟨spec, -, hm⟩ := mem_flatMap.mp hm
        exact settled_ofSpecifier hs spec b hm
      · simp

private theorem settled_ofStatement (n : Node) : ∀ b ∈ ofStatement f n, b.Settled := by
  unfold ofStatement
  split
  · next specifier clause hs _ =>
    obtain ⟨source, -, hs⟩ := Option.bind_eq_some_iff.mp hs
    intro b hm
    obtain ⟨part, -, hm⟩ := mem_flatMap.mp hm
    exact settled_ofClausePart (ParsedFile.settled_stringValue hs) part b hm
  · simp

private theorem settled_ofCall (v : Visit) : ∀ b ∈ ofCall f v, b.Settled := by
  intro b hm
  have hsome := Option.mem_toList.mp hm
  obtain ⟨function, -, hsome⟩ := Option.bind_eq_some_iff.mp hsome
  obtain ⟨⟨⟩, -, hsome⟩ := Option.bind_eq_some_iff.mp hsome
  obtain ⟨arguments, -, hsome⟩ := Option.bind_eq_some_iff.mp hsome
  obtain ⟨argument, -, hsome⟩ := Option.bind_eq_some_iff.mp hsome
  obtain ⟨specifier, hs, hsome⟩ := Option.bind_eq_some_iff.mp hsome
  obtain ⟨name, hname, hb⟩ := Option.bind_eq_some_iff.mp hsome
  cases hb
  refine ⟨ParsedFile.settled_stringValue hs, Text.settled_ofChars _, ?_⟩
  rintro s ⟨⟩
  unfold declaredName? at hname
  simp only [Option.bind_eq_bind, Option.bind_eq_some_iff] at hname
  obtain ⟨declarator, -, n, -, hname⟩ := hname
  split at hname
  · cases hname
    exact f.settled_text n
  · cases hname

/-- The bindings of a source file are made of its characters. -/
theorem settled_all (f : ParsedFile) : ∀ b ∈ all f, b.Settled := by
  intro b hm
  obtain ⟨v, -, hm⟩ := mem_flatMap.mp hm
  unfold ofVisit at hm
  split at hm
  · exact settled_ofStatement v.node b hm
  · split at hm
    · exact settled_ofCall v b hm
    · cases hm

end ImportBinding

/-! ### Imports -/

/-- An import of a file that was looked at, all texts of which are kept as they are. -/
structure ResolvedImport.LookedAt (fs : Files) (i : ResolvedImport) : Prop where
  file : ∃ p, i.file = p.text ∧ Imports.LookedAt fs p
  exportName : i.exportName.Settled
  localName : i.localName = .null ∨ ∃ s, i.localName = .str s ∧ s.Settled

namespace ResolvedImport

variable {fs : Files} {resolve : Text → Except Fault Path} {known : List (Text × Text)}
  {found : List ResolvedImport}

/-- The first of some bindings has the file that is known for its specifier, or else the one to
which it resolves. -/
private theorem resolveFrom_cons {b : ImportBinding} {rest : List ImportBinding}
    (h : resolveFrom resolve known (b :: rest) = .ok found) :
    ∃ file others, (Assoc.get? b.specifier known = some file ∨
        ∃ p, resolve b.specifier = .ok p ∧ file = p.text) ∧
      resolveFrom resolve (Assoc.insert b.specifier file known) rest = .ok others ∧
      found = ⟨file, b.exportName, localValue b.localName⟩ :: others := by
  rw [resolveFrom] at h
  split at h
  · next file hget =>
    obtain ⟨_, ⟨⟩, h⟩ := bind_ok_iff.mp h
    obtain ⟨others, hothers, h⟩ := bind_ok_iff.mp h
    cases h
    exact ⟨file, others, .inl hget, hothers, rfl⟩
  · obtain ⟨file, hfile, h⟩ := bind_ok_iff.mp h
    obtain ⟨others, hothers, h⟩ := bind_ok_iff.mp h
    cases h
    cases hp : resolve b.specifier with
    | error e =>
      rw [hp] at hfile
      cases hfile
    | ok p =>
      rw [hp] at hfile
      cases hfile
      exact ⟨p.text, others, .inr ⟨p, rfl, rfl⟩, hothers, rfl⟩

/-- What holds of all paths to which specifiers resolve holds of the files of imports. -/
private theorem forall_of_resolveFrom {Q : Path → Prop}
    (hr : ∀ s p, s.Settled → resolve s = .ok p → Q p)
    (hk : ∀ s file, Assoc.get? s known = some file → ∃ p, file = p.text ∧ Q p)
    {bindings : List ImportBinding} (hb : ∀ b ∈ bindings, b.Settled)
    (h : resolveFrom resolve known bindings = .ok found) :
    ∀ i ∈ found, (∃ p, i.file = p.text ∧ Q p) ∧ i.exportName.Settled ∧
      (i.localName = .null ∨ ∃ s, i.localName = .str s ∧ s.Settled) := by
  induction bindings generalizing known found with
  | nil =>
    cases h
    simp
  | cons b rest ih =>
    obtain ⟨file, others, hfile, hothers, rfl⟩ := resolveFrom_cons h
    have hbs := hb b (by simp)
    have hfound : ∃ p, file = p.text ∧ Q p := by
      rcases hfile with hget | ⟨p, hp, rfl⟩
      · exact hk _ _ hget
      · exact ⟨p, rfl, hr _ _ hbs.specifier hp⟩
    have hknown : ∀ s file', Assoc.get? s (Assoc.insert b.specifier file known) = some file' →
        ∃ p, file' = p.text ∧ Q p := by
      intro s file' hget
      rw [Assoc.get?_insert] at hget
      split at hget
      · cases hget
        exact hfound
      · exact hk s file' hget
    refine forall_mem_cons.mpr ⟨⟨hfound, hbs.exportName, ?_⟩,
      ih hknown (fun c hm => hb c (by simp [hm])) hothers⟩
    cases hl : b.localName with
    | none => exact .inl rfl
    | some s => exact .inr ⟨s, rfl, hbs.localName s hl⟩

section

variable {root : Path} (hroot : Imports.IsRoot root) {aliases : Option Aliases} {f : ParsedFile}
  {found : List ResolvedImport} (h : all fs root aliases f = .ok found)

include hroot h

/-- Every import of a source file is of a file that was looked at. -/
theorem lookedAt_of_all : ∀ i ∈ found, i.LookedAt fs := by
  intro i hi
  obtain ⟨hfile, hexport, hlocal⟩ := forall_of_resolveFrom (fun _ _ hs hp =>
    (Imports.lookedAt_of_resolve hroot hs (Path.isPlain_parse _) hp).1) (by simp [Assoc.get?])
    (ImportBinding.settled_all f) h i hi
  exact ⟨hfile, hexport, hlocal⟩

/-- No import of a source file is of a path from a root with double dots in it. -/
theorem flat_of_all : ∀ i ∈ found, (Path.parse i.file).Flat := by
  intro i hi
  obtain ⟨⟨p, hp, hlooked, hflat⟩, -⟩ := forall_of_resolveFrom (fun _ _ hs hp =>
    Imports.lookedAt_of_resolve hroot hs (Path.isPlain_parse _) hp) (by simp [Assoc.get?])
    (ImportBinding.settled_all f) h i hi
  rwa [hp, Path.parse_text hlooked.plain]

end

/-- Whether an import of a file that was looked at is entered is told without a fault. -/
theorem LookedAt.isEntered (h : i.LookedAt fs) (g : ImportGraph) :
    ∃ b, g.isEntered fs (Path.parse i.file) = .ok b := by
  obtain ⟨p, hp, hlooked⟩ := h.file
  obtain ⟨b, hb⟩ := hlooked.known
  rw [hp, Path.parse_text hlooked.plain]
  unfold ImportGraph.isEntered
  rw [hb]
  split
  · exact ⟨false, rfl⟩
  · cases b with
    | false => exact ⟨false, rfl⟩
    | true =>
      cases p.relativeTo? g.root with
      | some rest => exact ⟨_, rfl⟩
      | none => exact ⟨_, rfl⟩

/-- The text of an entered file is shorter than any that is refused. -/
theorem LookedAt.length_file (h : i.LookedAt fs) {g : ImportGraph}
    (he : g.isEntered fs (Path.parse i.file) = .ok true) :
    i.file.points.length < Files.pathLimit := by
  obtain ⟨p, hp, hlooked⟩ := h.file
  obtain ⟨b, hb⟩ := hlooked.known
  rw [hp, Path.parse_text hlooked.plain] at he
  unfold ImportGraph.isEntered at he
  rw [hb] at he
  split at he
  · cases he
  · cases b with
    | false => cases he
    | true =>
      obtain ⟨e, hs⟩ := Files.stat_of_foundWith hb
      obtain ⟨hname, hsize⟩ := Files.checkPath_eq_ok (Files.checkPath_of_stat hs)
      rw [hp]
      exact Nat.lt_of_le_of_lt (Text.length_le_nameSize hname) hsize

/-- The field of a local name; there is none without one. -/
def localField : Value → List (Text × Json)
  | .str s => [("localName", .str s)]
  | _ => []

/-- The record that is kept for an import. -/
def toJson (i : ResolvedImport) : Json :=
  .obj (("file", .str i.file) :: ("exportName", .str i.exportName) :: localField i.localName)

/-- An import is kept as it is, and is read back from its record. -/
theorem LookedAt.keep (h : i.LookedAt fs) :
    i.toValue.keepWithin 1 = .ok i.toJson ∧ ofValue (.ofJson i.toJson) = .ok i := by
  obtain ⟨file, exportName, localName⟩ := i
  have hfile : file.joined = file := by
    obtain ⟨p, hp, hlooked⟩ := h.file
    rw [show file = p.text from hp]
    exact hlooked.settled.joined
  have hexport : exportName.joined = exportName := h.exportName.joined
  rcases h.localName with hl | ⟨s, hl, hs⟩
  · obtain rfl : localName = .null := hl
    refine ⟨?_, rfl⟩
    change Except.ok (Json.obj [("file", .str file.joined), ("exportName", .str exportName.joined)])
      = _
    rw [hfile, hexport]
    rfl
  · obtain rfl : localName = .str s := hl
    refine ⟨?_, rfl⟩
    change Except.ok (Json.obj [("file", .str file.joined), ("exportName", .str exportName.joined),
      ("localName", .str s.joined)]) = _
    rw [hfile, hexport, hs.joined]
    rfl

end ResolvedImport

end RoutePlugins
