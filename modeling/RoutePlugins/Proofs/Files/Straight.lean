import Mathlib.Data.List.Infix
import RoutePlugins.Proofs.Files.Resolved

/-!
# Straight paths

A path from the root is straight if nothing on it is a link. Looking it up leads to the place with
its names and nowhere else, and resolving it gives the path itself. So what is found at a straight
path is what its place holds, and whether it is below another one is read off the names.
-/

namespace RoutePlugins

variable {e : Entry} {name : Text}

namespace Files

/-- A name that a path can be looked up by. -/
structure PathName (name : Text) : Prop extends ProperName name where
  nameable : name.unnameable? = none
  noNull : name.contains '\x00' = false
  short : name.nameSize ≤ maxName

/-- The place that names from the root lead to, if there is no link on the way. -/
def placeOf (names : List Text) : Location := names.map Text.asName

/-- The names from the root run through no link, and do not end at one. -/
def Straight (fs : Files) (names : List Text) : Prop :=
  ∀ front, front ≠ [] → front <+: names → ∀ t, fs.entry? (placeOf front) ≠ some (.link t)

/-- A path is not refused for its length. -/
def Fits (names : List Text) : Prop := (absolute names).text.nameSize < pathLimit

instance (names : List Text) : Decidable (Fits names) := inferInstanceAs (Decidable (_ < _))

@[simp] theorem placeOf_append (front rest : List Text) :
    placeOf (front ++ rest) = placeOf front ++ placeOf rest := List.map_append

theorem child_absolute (l : Location) (name : Text) :
    (absolute l).child name = absolute (l ++ [name]) := rfl

variable {fs : Files} {names : List Text}

theorem Straight.front {front : List Text} (h : fs.Straight names) (hf : front <+: names) :
    fs.Straight front :=
  fun mid hne hm => h mid hne (hm.trans hf)

/-- The place of a straight path is no link. -/
theorem Straight.not_link (h : fs.Straight names) (t : Text) :
    fs.entry? (placeOf names) ≠ some (.link t) := by
  cases names with
  | nil => simp [placeOf, entry?]
  | cons name rest => exact h (name :: rest) (by simp) (List.prefix_refl _) t

/-! ### Texts of paths -/

theorem text_absolute (names : List Text) :
    (absolute names).text = ⟨.char '/' :: (Text.joinWith "/" names).points⟩ := rfl

theorem mem_points_absolute {p : CodePoint} (h : p ∈ (absolute names).text.points) :
    p = .char '/' ∨ ∃ n ∈ names, p ∈ n.points := by
  obtain h | h := List.mem_cons.mp h
  · exact .inl h
  · exact (Text.mem_joinWith h).imp_left List.mem_singleton.mp

theorem mem_absolute_of_mem {n : Text} (hn : n ∈ names) {p : CodePoint} (hp : p ∈ n.points) :
    p ∈ (absolute names).text.points :=
  List.mem_cons_of_mem _ (Text.mem_joinWith_of_mem hn hp)

/-- The names of a resolved path are names to look up by, if they are short enough. -/
theorem pathName_of_resolve (hwf : fs.WellFormed) {p : Path}
    (h : fs.resolve p = .ok (absolute names)) (hs : ∀ n ∈ names, n.nameSize ≤ maxName) :
    ∀ n ∈ names, PathName n := by
  intro n hm
  refine ⟨(proper_of_resolve hwf.names h).2 n hm, ?_, ?_, hs n hm⟩
  · refine Text.refusedRun?_eq_none_iff.mpr fun p hp => ?_
    exact Text.refusedRun?_eq_none_iff.mp (nameable_of_resolve h) p (mem_absolute_of_mem hm hp)
  · refine Text.contains_eq_false.mpr fun hp => ?_
    exact Text.contains_eq_false.mp (noNull_of_resolve h) (mem_absolute_of_mem hm hp)

section

variable {names : List Text} (hn : ∀ n ∈ names, PathName n)

include hn

theorem nameable_absolute : (absolute names).text.unnameable? = none := by
  refine Text.refusedRun?_eq_none_iff.mpr fun p hp => ?_
  obtain rfl | ⟨n, hm, hp⟩ := mem_points_absolute hp
  · rfl
  · exact Text.refusedRun?_eq_none_iff.mp (hn n hm).nameable p hp

theorem noNull_absolute : (absolute names).text.contains '\x00' = false := by
  refine Text.contains_eq_false.mpr fun hp => ?_
  obtain h | ⟨n, hm, hp⟩ := mem_points_absolute hp
  · cases h
  · exact Text.contains_eq_false.mp (hn n hm).noNull hp

/-- Only the length of a path of proper names can be refused out of hand. -/
theorem checkPath_absolute :
    checkPath (absolute names) =
      if pathLimit ≤ (absolute names).text.nameSize then refuse .nameTooLong (absolute names)
      else .ok () := by
  rw [checkPath, nameable_absolute hn]
  simp only [noNull_absolute hn, Bool.false_eq_true, if_false]

end

/-! ### Looking up -/

theorem prefix_dropLast {α : Type} {front names : List α} (h : front <+: names)
    (hne : front ≠ names) : front <+: names.dropLast := by
  cases names using List.reverseRecOn with
  | nil => exact absurd (List.prefix_nil.mp h) hne
  | append_singleton rest name =>
    rw [List.dropLast_concat]
    exact (List.prefix_concat_iff.mp h).resolve_left hne

theorem not_prefix_of_concat {α : Type} (front : List α) (a : α) : ¬ front ++ [a] <+: front := by
  intro h
  have hlen := h.length_le
  rw [List.length_append, List.length_singleton] at hlen
  omega

/-- Whatever is above something is a directory. -/
theorem WellFormed.above {fs : Files} (h : fs.WellFormed) {l front : Location}
    (he : fs.entry? l = some e) (hf : front <+: l) (hne : front ≠ l) :
    fs.entry? front = some .directory := by
  obtain ⟨rest, rfl⟩ := hf
  induction rest using List.reverseRecOn generalizing e with
  | nil => simp at hne
  | append_singleton rest name ih =>
    have hparent := h.parent _ e he
    rw [← List.append_assoc, List.dropLast_concat] at hparent
    cases rest with
    | nil => simpa using hparent
    | cons n others => exact ih hparent (by simp)

theorem stepsInto_of_pathName (ending : Ending) {rest : List Text}
    (hn : ∀ n ∈ name :: rest, PathName n) : StepsInto ending name rest := by
  have hname := hn name (by simp)
  refine ⟨?_, hname.notDots, ?_, hname.short⟩
  · rw [isIdle, hname.nonempty, Bool.false_or]
    exact beq_false_of_ne hname.notDot
  · rintro ⟨-, rfl⟩
    exact absurd (hn "" (by simp)).nonempty (by decide)

/-- A walk of proper names along which there is no link ends at the place with those names, if the
place before is a directory. Otherwise something is missing on the way, or is a file. -/
theorem walk_straight {fs : Files} (hwf : fs.WellFormed) (ending : Ending) (links : Nat)
    {here : Location} {names : List Text} (hn : ∀ n ∈ names, PathName n)
    (hl : ∀ front, front ≠ [] → front <+: names →
      ∀ t, fs.entry? (here ++ placeOf front) ≠ some (.link t))
    (hhere : names = [] → fs.entry? here = some .directory) :
    fs.entry? (here ++ placeOf names.dropLast) = some .directory ∧
        fs.walk ending links here names =
          .ok (here ++ placeOf names, fs.entry? (here ++ placeOf names)) ∨
      fs.entry? (here ++ placeOf names.dropLast) ≠ some .directory ∧
        (fs.walk ending links here names = .error .missing ∨
          fs.walk ending links here names = .error .notDirectory ∧
            ∃ front c, front <+: names.dropLast ∧
              fs.entry? (here ++ placeOf front) = some (.file c)) := by
  induction names generalizing here with
  | nil =>
    refine .inl ⟨by simpa [placeOf] using hhere rfl, ?_⟩
    rw [walk_eq, walkNames]
    simp [placeOf]
  | cons name rest ih =>
    have hplace (more : List Text) :
        here ++ placeOf (name :: more) = here ++ [name.asName] ++ placeOf more := by
      simp [placeOf]
    -- Without a directory at one place there is none further on.
    have hbeyond {l : Location} (more : Location) (h : fs.entry? l ≠ some .directory) :
        fs.entry? (l ++ more) ≠ some .directory := by
      intro hd
      by_cases hmore : more = []
      · exact h (by rwa [hmore, List.append_nil] at hd)
      · exact h (hwf.above hd (List.prefix_append _ _) (by simpa using hmore))
    rw [walk_eq]
    cases hd : fs.entry? here with
    | none =>
      exact .inr ⟨hbeyond _ (by simp [hd]), .inl (by rw [walkNames, hd])⟩
    | some e =>
      cases e with
      | link t =>
        exact .inr ⟨hbeyond _ (by simp [hd]), .inl (by rw [walkNames, hd])⟩
      | file c =>
        refine .inr ⟨hbeyond _ (by simp [hd]), .inr ⟨by rw [walkNames, hd], [], c, ?_⟩⟩
        exact ⟨List.nil_prefix, by rw [placeOf, List.map_nil, List.append_nil, hd]⟩
      | directory =>
        have hnext : fs.walkNames ending (fs.follower ending links) here (name :: rest) =
            fs.walk ending links (here ++ [name.asName]) rest ∨
            fs.entry? (here ++ [name.asName]) = none ∧
              fs.walkNames ending (fs.follower ending links) here (name :: rest) =
                if rest.isEmpty then .ok (here ++ [name.asName], none) else .error .missing := by
          rw [walkNames_into hd (stepsInto_of_pathName ending hn), walk_eq]
          have hlink := hl [name] (by simp) (by simp)
          split
          · next t ht => exact absurd ht (hlink t)
          · exact .inl rfl
          · next hnone => exact .inr ⟨hnone, rfl⟩
        cases rest with
        | nil =>
          refine .inl ⟨by simpa [placeOf] using hd, ?_⟩
          obtain hnext | ⟨habsent, hnext⟩ := hnext
          · rw [hnext, walk_eq, walkNames]
            rfl
          · rw [hnext, hplace]
            simp [placeOf, habsent]
        | cons next others =>
          rw [List.dropLast_cons_of_ne_nil (by simp), hplace, hplace]
          obtain hnext | ⟨habsent, hnext⟩ := hnext
          · rw [hnext]
            refine (@ih (here ++ [name.asName]) (fun n hm => hn n (by simp [hm])) ?_
              fun h => absurd h (by simp)).imp_right ?_
            · intro front hne hf
              exact hplace front ▸ hl (name :: front) (by simp) (by simpa using hf)
            · rintro ⟨hparent, hmissing | ⟨hnot, front, c, hf, hc⟩⟩
              · exact ⟨hparent, .inl hmissing⟩
              · exact ⟨hparent, .inr ⟨hnot, name :: front, c, by simpa using hf, hplace front ▸ hc⟩⟩
          · have hnone : fs.entry? (here ++ [name.asName]) ≠ some .directory := by simp [habsent]
            exact .inr ⟨hbeyond _ hnone, .inl (by rw [hnext]; rfl)⟩

/-- A walk that is refused refuses its path. -/
theorem locate_of_walk_error {fs : Files} {ending : Ending} {p : Path} {code : OsCode}
    (hc : checkPath p = .ok ())
    (hw : fs.walk ending maxLinks (fs.startOf p) p.names = .error code) :
    fs.locate ending p = refuse code p := by
  simp only [locate, hc, hw, bind, Except.bind]

theorem locate_of_not_fits {names : List Text} (hn : ∀ n ∈ names, PathName n) (hf : ¬ Fits names)
    (fs : Files) (ending : Ending) :
    fs.locate ending (absolute names) = refuse .nameTooLong (absolute names) := by
  rw [locate, checkPath_absolute hn, if_pos (Nat.not_lt.mp hf)]
  rfl

section

variable {fs : Files} (hwf : fs.WellFormed) {names : List Text} (hn : ∀ n ∈ names, PathName n)
  (hs : fs.Straight names)

include hwf hn hs

/-- A straight path that fits leads to the place with its names, if the place before is a directory.
Otherwise it is refused, because something is missing on the way, or is a file. -/
theorem locate_straight (ending : Ending) (hf : Fits names) :
    fs.entry? (placeOf names.dropLast) = some .directory ∧
        fs.locate ending (absolute names) = .ok (placeOf names, fs.entry? (placeOf names)) ∨
      fs.entry? (placeOf names.dropLast) ≠ some .directory ∧
        (fs.locate ending (absolute names) = refuse .missing (absolute names) ∨
          fs.locate ending (absolute names) = refuse .notDirectory (absolute names) ∧
            ∃ front c, front <+: names.dropLast ∧ fs.entry? (placeOf front) = some (.file c)) := by
  have hcheck : checkPath (absolute names) = .ok () := by
    rw [checkPath_absolute hn, if_neg (Nat.not_le.mpr hf)]
  have hwalk := @walk_straight fs hwf ending maxLinks [] names hn hs fun _ => rfl
  obtain ⟨hparent, hw⟩ | ⟨hparent, hw | ⟨hw, hfile⟩⟩ := hwalk
  · exact .inl ⟨hparent, locate_eq_ok.mpr ⟨hcheck, walk_eq_ok.mp hw⟩⟩
  · exact .inr ⟨hparent, .inl (locate_of_walk_error hcheck hw)⟩
  · exact .inr ⟨hparent, .inr ⟨locate_of_walk_error hcheck hw, hfile⟩⟩

/-- Something at the place of a straight path is found by it. -/
theorem locate_of_present (ending : Ending) (hf : Fits names)
    (he : fs.entry? (placeOf names) = some e) :
    fs.locate ending (absolute names) = .ok (placeOf names, some e) := by
  obtain ⟨-, h⟩ | ⟨hparent, -⟩ := locate_straight hwf hn hs ending hf
  · rwa [he] at h
  · have hdir := hwf.parent _ e he
    rw [placeOf, ← List.map_dropLast] at hdir
    exact absurd hdir hparent

theorem stat_of_present (hf : Fits names) (he : fs.entry? (placeOf names) = some e) :
    fs.stat (absolute names) = .ok e := by
  rw [stat, locate_of_present hwf hn hs .follow hf he]
  rfl

/-- Something is found at a straight path exactly if its place holds something. -/
theorem foundWith_straight (hf : Fits names) (q : Entry → Bool) :
    foundWith q (fs.stat (absolute names)) = .ok ((fs.entry? (placeOf names)).any q) := by
  cases he : fs.entry? (placeOf names) with
  | some e =>
    rw [stat_of_present hwf hn hs hf he]
    rfl
  | none =>
    have hstat : fs.stat (absolute names) = refuse .missing (absolute names) ∨
        fs.stat (absolute names) = refuse .notDirectory (absolute names) := by
      unfold stat
      obtain ⟨-, h⟩ | ⟨-, h | ⟨h, -⟩⟩ := locate_straight hwf hn hs .follow hf
      · rw [h, he]
        exact .inl rfl
      · rw [h]
        exact .inl rfl
      · rw [h]
        exact .inr rfl
    obtain h | h := hstat
    · rw [h]
      rfl
    · rw [h]
      rfl

theorem isPresent_straight (hf : Fits names) :
    fs.isPresent (absolute names) = .ok (fs.entry? (placeOf names)).isSome := by
  rw [isPresent, foundWith_straight hwf hn hs hf]
  cases fs.entry? (placeOf names) with
  | none => rfl
  | some e => rfl

theorem isDirectory_straight (hf : Fits names) :
    fs.isDirectory (absolute names) = .ok ((fs.entry? (placeOf names)).any Entry.isDirectory) :=
  foundWith_straight hwf hn hs hf Entry.isDirectory

theorem isFile_straight (hf : Fits names) :
    fs.isFile (absolute names) = .ok ((fs.entry? (placeOf names)).any Entry.isFile) :=
  foundWith_straight hwf hn hs hf Entry.isFile

/-! ### Resolving -/

/-- What refuses a straight path is not a circle of links. -/
theorem locate_straight_cases (ending : Ending) :
    fs.locate ending (absolute names) = .ok (placeOf names, fs.entry? (placeOf names)) ∨
      ∃ code, fs.locate ending (absolute names) = refuse code (absolute names) ∧
        code ≠ .linkLoop := by
  by_cases hf : Fits names
  · obtain ⟨-, h⟩ | ⟨-, h | ⟨h, -⟩⟩ := locate_straight hwf hn hs ending hf
    · exact .inl h
    · exact .inr ⟨.missing, h, by simp⟩
    · exact .inr ⟨.notDirectory, h, by simp⟩
  · exact .inr ⟨.nameTooLong, locate_of_not_fits hn hf fs ending, by simp⟩

/-- A straight path leads to the place with its names. -/
theorem placeOf_of_leads {l : Location} (hl : fs.Leads (absolute names) l) : l = placeOf names := by
  obtain ⟨e, he⟩ := hl
  obtain h | ⟨code, h, -⟩ := locate_straight_cases hwf hn hs .follow
  · exact (congrArg Prod.fst (Except.ok.inj (h.symm.trans he))).symm
  · cases h.symm.trans he

/-- A straight path is no link. -/
theorem linkTarget?_straight : fs.linkTarget? (absolute names) = .ok none := by
  have hlink := hs.not_link
  unfold linkTarget?
  obtain h | ⟨code, h, -⟩ := locate_straight_cases hwf hn hs .keep
  · rw [h]
    cases he : fs.entry? (placeOf names) with
    | none => rfl
    | some e =>
      cases e with
      | directory => rfl
      | file c => rfl
      | link t => exact absurd he (hlink t)
  · rw [h]
    rfl

theorem isLink_straight : fs.isLink (absolute names) = false := by
  have htarget := linkTarget?_straight hwf hn hs
  unfold linkTarget? at htarget
  unfold isLink
  split
  · next h => simp [h] at htarget
  · rfl

end

/-- Resolving the rest of a straight path appends it. -/
theorem resolveNames_straight {fs : Files} (hwf : fs.WellFormed)
    (follow : Path → Text → ResolveM Resolution) {front rest : List Text}
    (hn : ∀ n ∈ front ++ rest, PathName n) (hs : fs.Straight (front ++ rest)) (seen : SeenLinks) :
    fs.resolveNames follow (absolute front) rest seen =
      .ok (.reached (absolute (front ++ rest))) seen := by
  induction rest generalizing front with
  | nil =>
    rw [List.append_nil]
    rfl
  | cons name rest ih =>
    have hname := hn name (by simp)
    have hsplit : front ++ name :: rest = front ++ [name] ++ rest := by simp
    rw [hsplit] at hn hs ⊢
    have hstep : fs.linkTarget? ((absolute front).child name) = .ok none :=
      linkTarget?_straight hwf (fun n hm => hn n (List.mem_append_left _ hm))
        (hs.front (List.prefix_append _ _))
    have hidle : (name.isEmpty || name == ".") = false := by
      rw [hname.nonempty, Bool.false_or]
      exact beq_false_of_ne hname.notDot
    have hup : (name == "..") = false := beq_false_of_ne hname.notDots
    rw [resolveNames, if_neg (by simp [hidle]), if_neg (by simp [hup])]
    simp only [hstep]
    exact ih hn hs

/-- The pieces of the text of an absolute path are an empty name and its names. -/
theorem split_absolute {names : List Text} (hn : ∀ n ∈ names, ProperName n) :
    (absolute names).text.split '/' =
      ("" : Text) :: if names.isEmpty then [("" : Text)] else names := by
  rw [text_absolute]
  change ("" : Text) :: (Text.joinWith "/" names).split '/' = _
  cases names with
  | nil => rfl
  | cons name rest =>
    rw [Text.split_joinWith (by simp) fun n hm => (hn n hm).noSlash]
    rfl

section

variable {fs : Files} (hwf : fs.WellFormed) {names : List Text} (hn : ∀ n ∈ names, PathName n)
  (hs : fs.Straight names)

include hwf hn hs

theorem resolvePath_straight : fs.resolvePath (absolute names) = .ok (absolute names) := by
  have htext : fs.resolveText maxNested ⟨.relative, []⟩ (absolute names).text [] =
      .ok (.reached (absolute names)) [] := by
    have hstart : (absolute names).text.startsWith "/" = true := rfl
    rw [maxNested, resolveText, hstart, if_pos rfl,
      split_absolute fun n hm => (hn n hm).toProperName]
    have hs' : fs.Straight ([] ++ names) := hs
    have hnames := resolveNames_straight hwf (fs.resolveText 999) hn hs' []
    cases names with
    | nil => rfl
    | cons name rest => exact hnames
  have hnormal : ((absolute fs.workingDirectory).join (absolute names)).normalize =
      absolute names := by
    change (⟨.root, Path.foldDots [] names⟩ : Path) = _
    rw [Path.foldDots_of_noDots fun n hm => (hn n hm).notDots]
    rfl
  simp only [resolvePath, htext, hnormal]

/-- A straight path resolves to itself. -/
theorem resolve_straight : fs.resolve (absolute names) = .ok (absolute names) := by
  have hstat : (∃ e, fs.stat (absolute names) = .ok e) ∨
      ∃ code, fs.stat (absolute names) = refuse code (absolute names) ∧ code ≠ .linkLoop := by
    unfold stat
    obtain h | ⟨code, h, hcode⟩ := locate_straight_cases hwf hn hs .follow
    · rw [h]
      cases fs.entry? (placeOf names) with
      | some e => exact .inl ⟨e, rfl⟩
      | none => exact .inr ⟨.missing, rfl, by simp⟩
    · rw [h]
      exact .inr ⟨code, rfl, hcode⟩
  unfold resolve
  rw [resolvePath_straight hwf hn hs]
  obtain ⟨e, h⟩ | ⟨code, h, hcode⟩ := hstat
  · simp only [bind, Except.bind, h]
    rfl
  · simp only [bind, Except.bind, h, refuse]
    cases code with
    | linkLoop => exact absurd rfl hcode
    | _ => rfl

end

variable {fs : Files} {names : List Text} {l : Location}

/-- Whether a straight path is below another is read off the names. -/
theorem isInside_straight (hwf : fs.WellFormed) {root : List Text} (hn : ∀ n ∈ names, PathName n)
    (hs : fs.Straight names) (hroot : root <+: names) :
    fs.isInside (absolute root) (absolute names) = .ok true := by
  have hr : fs.resolve (absolute root) = .ok (absolute root) :=
    resolve_straight hwf (fun n hm => hn n (hroot.subset hm)) (hs.front hroot)
  have hbelow : (absolute names).relativeTo? (absolute root) =
      some ⟨.relative, names.drop root.length⟩ :=
    if_pos (by simpa [absolute] using hroot)
  simp only [isInside, resolve_straight hwf hn hs, hr, hbelow, bind, Except.bind, pure, Except.pure,
    Option.isSome_some]

/-- The text of a straight path below a project root is that of the names below it. -/
theorem relative_straight (hwf : fs.WellFormed) {project : Project} {root : List Text}
    (hn : ∀ n ∈ names, PathName n) (hs : fs.Straight names) (hroot : project.root = absolute root)
    (hbelow : root <+: names) :
    project.relative fs (absolute names) = .ok (Path.text ⟨.relative, names.drop root.length⟩) := by
  have hrel : (absolute names).relativeTo? project.root =
      some ⟨.relative, names.drop root.length⟩ := by
    rw [hroot]
    exact if_pos (by simpa [absolute] using hbelow)
  simp only [Project.relative, resolve_straight hwf hn hs, hrel]

/-! ### Places -/

/-- A name under which something is found in a directory: the text of its bytes. -/
structure EntryName (name : Text) : Prop extends PathName name where
  own : name.asName = name

instance (name : Text) : Decidable (EntryName name) :=
  decidable_of_iff (ProperName name ∧ name.unnameable? = none ∧ name.contains '\x00' = false ∧
      name.nameSize ≤ maxName ∧ name.asName = name)
    ⟨fun ⟨h, h1, h2, h3, h4⟩ => ⟨⟨h, h1, h2, h3⟩, h4⟩,
      fun h => ⟨h.toProperName, h.nameable, h.noNull, h.short, h.own⟩⟩

theorem placeOf_of_own (h : ∀ n ∈ names, EntryName n) : placeOf names = names := by
  have hmap : names.map Text.asName = names.map id :=
    List.map_congr_left fun n hn => (h n hn).own
  rw [placeOf, hmap, List.map_id]

/-- A file system as there are: each place is listed once, by names under which it is found. -/
structure Tidy (fs : Files) : Prop extends WellFormed fs where
  distinct : (Assoc.keys fs.entries).Nodup
  named : ∀ l ∈ Assoc.keys fs.entries, ∀ n ∈ l, EntryName n

instance (fs : Files) : Decidable fs.Tidy :=
  decidable_of_iff (fs.WellFormed ∧ (Assoc.keys fs.entries).Nodup ∧
      ∀ l ∈ Assoc.keys fs.entries, ∀ n ∈ l, EntryName n)
    ⟨fun ⟨h, h1, h2⟩ => ⟨h, h1, h2⟩, fun h => ⟨h.toWellFormed, h.distinct, h.named⟩⟩

theorem entry_isSome_iff (hl : l ≠ []) :
    (fs.entry? l).isSome = true ↔ l ∈ Assoc.keys fs.entries := by
  rw [← Assoc.exists_get?_iff, Option.isSome_iff_exists]
  simp [ entry?, hl]

theorem Tidy.entryName (h : fs.Tidy) (he : fs.entry? l = some e) : ∀ n ∈ l, EntryName n := by
  cases l with
  | nil => simp
  | cons name rest =>
    exact h.named _ ((entry_isSome_iff (by simp)).mp (Option.isSome_of_eq_some he))

/-- The names of a place that is no link, and of the directories above it, are a straight path. -/
theorem Tidy.straight {fs : Files} (h : fs.Tidy) {l : Location} (he : fs.entry? l = some e)
    (hl : ∀ t, e ≠ .link t) : fs.Straight l := by
  intro front _ hf t ht
  have hnames := h.entryName he
  rw [placeOf_of_own fun n hn => hnames n (hf.subset hn)] at ht
  by_cases hfront : front = l
  · subst hfront
    exact hl t (Option.some.inj (he.symm.trans ht))
  · rw [h.above he hf hfront] at ht
    cases ht

/-- The last name of a place in the directory `l`. -/
def nameIn? (l place : Location) : Option Text :=
  if place.dropLast == l then place.getLast? else none

theorem nameIn?_eq_some {place : Location} : nameIn? l place = some name ↔ place = l ++ [name] := by
  unfold nameIn?
  constructor
  · intro h
    split at h
    · next hd =>
      rw [beq_iff_eq] at hd
      rw [← hd]
      exact (List.dropLast_append_getLast? name h).symm
    · cases h
  · rintro rfl
    simp

theorem children_eq (fs : Files) (l : Location) :
    fs.children l = (Assoc.keys fs.entries).filterMap (nameIn? l) := by
  rw [Assoc.keys, List.filterMap_map]
  rfl

theorem mem_children : name ∈ fs.children l ↔ (fs.entry? (l ++ [name])).isSome = true := by
  rw [entry_isSome_iff (by simp), children_eq, List.mem_filterMap]
  simp [nameIn?_eq_some]

theorem nodup_children (h : (Assoc.keys fs.entries).Nodup) (l : Location) :
    (fs.children l).Nodup := by
  rw [children_eq]
  refine h.filterMap fun place other name hp ho => ?_
  exact (nameIn?_eq_some.mp hp).trans (nameIn?_eq_some.mp ho).symm

theorem Tidy.nodup_children (h : fs.Tidy) (l : Location) : (fs.children l).Nodup :=
  Files.nodup_children h.distinct l

end Files

end RoutePlugins
