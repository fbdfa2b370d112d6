import RoutePlugins.Proofs.Motion

/-!
# Walks through a file system

The walks that reach their end, as derivations: at each name a walk stays, goes up, enters what is
there, or follows a link. A path is looked up exactly by such a walk. A file system that grows,
where directories and links stay what they are and nothing new is a link, keeps every walk.
-/

namespace RoutePlugins.Files

/-- Whether a name only asks for a directory. -/
def isIdle (name : Text) : Bool := name.isEmpty || name == "."

/-- A name, with the names after it, that leads from a directory to something in it. -/
structure StepsInto (ending : Ending) (name : Text) (rest : List Text) : Prop where
  busy : isIdle name = false
  notUp : name ≠ ".."
  notSlash : ¬ (ending = .create ∧ rest = [("" : Text)])
  short : name.nameSize ≤ maxName

/-- The walks of names from a location, with at most so many links, that reach their end. -/
inductive Walk (fs : Files) (ending : Ending) : Nat → Location → List Text → Found → Prop
  | done (links : Nat) (here : Location) : Walk fs ending links here [] (here, fs.entry? here)
  | stay {links : Nat} {here : Location} {name : Text} {rest : List Text} {found : Found}
      (hd : fs.entry? here = some .directory) (hn : isIdle name = true)
      (hw : Walk fs ending links here rest found) : Walk fs ending links here (name :: rest) found
  | up {links : Nat} {here : Location} {rest : List Text} {found : Found}
      (hd : fs.entry? here = some .directory)
      (hw : Walk fs ending links here.dropLast rest found) :
      Walk fs ending links here (".." :: rest) found
  | enter {links : Nat} {here : Location} {name : Text} {rest : List Text} {found : Found}
      {e : Entry} (hd : fs.entry? here = some .directory) (hn : StepsInto ending name rest)
      (he : fs.entry? (here ++ [name.asName]) = some e) (hl : ∀ t, e ≠ .link t)
      (hw : Walk fs ending links (here ++ [name.asName]) rest found) :
      Walk fs ending links here (name :: rest) found
  | missing {links : Nat} {here : Location} {name : Text}
      (hd : fs.entry? here = some .directory) (hn : StepsInto ending name [])
      (he : fs.entry? (here ++ [name.asName]) = none) :
      Walk fs ending links here [name] (here ++ [name.asName], none)
  | keep {links : Nat} {here : Location} {name target : Text}
      (hd : fs.entry? here = some .directory) (hn : StepsInto ending name [])
      (he : fs.entry? (here ++ [name.asName]) = some (.link target)) (hk : ending = .keep) :
      Walk fs ending links here [name] (here ++ [name.asName], some (.link target))
  | follow {links : Nat} {here : Location} {name target : Text} {rest : List Text}
      {found : Found} (hd : fs.entry? here = some .directory) (hn : StepsInto ending name rest)
      (he : fs.entry? (here ++ [name.asName]) = some (.link target))
      (hk : ¬ (rest = [] ∧ ending = .keep))
      (hw : Walk fs ending links (targetStart here target) (targetNames target ++ rest) found) :
      Walk fs ending (links + 1) here (name :: rest) found

section

variable {fs : Files} {ending : Ending} {follow : Location → List Text → Except OsCode Found}
  {here : Location} {name : Text} {rest : List Text}

theorem walkNames_idle (hd : fs.entry? here = some .directory) (hn : isIdle name = true) :
    fs.walkNames ending follow here (name :: rest) = fs.walkNames ending follow here rest := by
  rw [walkNames, hd]
  exact if_pos hn

theorem walkNames_up (hd : fs.entry? here = some .directory) :
    fs.walkNames ending follow here (".." :: rest) =
      fs.walkNames ending follow here.dropLast rest := by
  rw [walkNames, hd]
  rfl

/-- What a walk does at a name that leads from a directory to something in it. -/
theorem walkNames_into (hd : fs.entry? here = some .directory)
    (hn : StepsInto ending name rest) :
    fs.walkNames ending follow here (name :: rest) =
      match fs.entry? (here ++ [name.asName]) with
      | some (.link target) =>
        if rest.isEmpty && ending == .keep then
          .ok (here ++ [name.asName], some (.link target))
        else follow (targetStart here target) (targetNames target ++ rest)
      | some _ => fs.walkNames ending follow (here ++ [name.asName]) rest
      | none => if rest.isEmpty then .ok (here ++ [name.asName], none) else .error .missing := by
  have hi : (name.isEmpty || name == ".") = false := hn.busy
  have hu : (name == "..") = false := beq_false_of_ne hn.notUp
  have hc : (ending == .create && rest == [("" : Text)]) = false := by
    simpa using hn.notSlash
  rw [walkNames, hd]
  refine (if_neg (by simp only [hi, Bool.false_eq_true, not_false_eq_true])).trans ?_
  refine (if_neg (by simp only [hu, Bool.false_eq_true, not_false_eq_true])).trans ?_
  refine (if_neg (by simp only [hc, Bool.false_eq_true, not_false_eq_true])).trans ?_
  exact if_neg (Nat.not_lt.mpr hn.short)

private theorem isDirectory_of_walkNames {found : Found}
    (h : fs.walkNames ending follow here (name :: rest) = .ok found) :
    fs.entry? here = some .directory ∧
      (isIdle name = true ∨ name = ".." ∨ StepsInto ending name rest) := by
  rw [walkNames] at h
  split at h
  · next hd =>
    refine ⟨hd, ?_⟩
    by_cases hi : isIdle name = true
    · exact .inl hi
    by_cases hu : name = ".."
    · exact .inr (.inl hu)
    rw [if_neg (by simpa [isIdle] using hi), if_neg (by simpa using hu)] at h
    split at h
    · cases h
    next hc =>
    split at h
    · cases h
    next hs =>
    exact .inr (.inr ⟨by simpa using hi, hu, by simpa using hc, Nat.le_of_not_lt hs⟩)
  · cases h
  · cases h

end

/-- How a walk with some links left goes on at a link. -/
def follower (fs : Files) (ending : Ending) : Nat → Location → List Text → Except OsCode Found
  | 0 => fun _ _ => .error .linkLoop
  | links + 1 => fs.walk ending links

theorem walk_eq (fs : Files) (ending : Ending) (links : Nat) :
    fs.walk ending links = fs.walkNames ending (fs.follower ending links) := by
  cases links with
  | zero => rfl
  | succ links => rfl

variable {fs : Files} {ending : Ending} {found : Found}

/-- If what follows a link is a derivation, so is a walk of names. -/
private theorem walk_of_walkNames {links : Nat} {here : Location} {names : List Text}
    (hf : ∀ {start names}, fs.follower ending links start names = .ok found →
      ∃ fewer, links = fewer + 1 ∧ Walk fs ending fewer start names found)
    (h : fs.walkNames ending (fs.follower ending links) here names = .ok found) :
    Walk fs ending links here names found := by
  induction names generalizing here with
  | nil =>
    cases h
    exact .done links here
  | cons name rest ih =>
    obtain ⟨hd, hi | rfl | hn⟩ := isDirectory_of_walkNames h
    · rw [walkNames_idle hd hi] at h
      exact .stay hd hi (ih h)
    · rw [walkNames_up hd] at h
      exact .up hd (ih h)
    · rw [walkNames_into hd hn] at h
      split at h
      · next target he =>
        split at h
        · next hk =>
          simp only [Bool.and_eq_true, List.isEmpty_iff, beq_iff_eq] at hk
          obtain ⟨rfl, hk⟩ := hk
          cases h
          exact .keep hd hn he hk
        · next hk =>
          obtain ⟨fewer, rfl, hw⟩ := hf h
          exact .follow hd hn he (by simpa using hk) hw
      · next e hl he => exact .enter hd hn he hl (ih h)
      · next he =>
        split at h
        · next hr =>
          obtain rfl := List.isEmpty_iff.mp hr
          cases h
          exact .missing hd hn he
        · cases h

section

variable {links : Nat} {here : Location} {name : Text} {rest names : List Text}

theorem walk_enter (hd : fs.entry? here = some .directory) (hn : StepsInto ending name rest)
    {e : Entry} (he : fs.entry? (here ++ [name.asName]) = some e) (hl : ∀ t, e ≠ .link t) :
    fs.walk ending links here (name :: rest) =
      fs.walk ending links (here ++ [name.asName]) rest := by
  rw [walk_eq, walkNames_into hd hn, he]
  split
  · next t ht => exact absurd (Option.some.inj ht) (hl t)
  · rfl
  · next ht => cases ht

/-- Names are walked to an end exactly along a derivation. -/
theorem walk_eq_ok :
    fs.walk ending links here names = .ok found ↔ Walk fs ending links here names found := by
  constructor
  · intro h
    induction links generalizing here names with
    | zero =>
      rw [walk_eq] at h
      exact walk_of_walkNames (fun h => by cases h) h
    | succ links ih =>
      rw [walk_eq] at h
      exact walk_of_walkNames (fun h => ⟨links, rfl, ih h⟩) h
  · intro h
    induction h with
    | done links here => rw [walk_eq, walkNames]
    | stay hd hn _ ih => rwa [walk_eq, walkNames_idle hd hn, ← walk_eq]
    | up hd _ ih => rwa [walk_eq, walkNames_up hd, ← walk_eq]
    | enter hd hn he hl _ ih => rwa [walk_enter hd hn he hl]
    | missing hd hn he =>
      rw [walk_eq, walkNames_into hd hn, he]
      rfl
    | keep hd hn he hk =>
      rw [walk_eq, walkNames_into hd hn, he, hk]
      rfl
    | follow hd hn he hk _ ih =>
      rw [walk_eq, walkNames_into hd hn, he]
      exact (if_neg (by simpa using hk)).trans ih

end

/-- A path is looked up by a walk, provided that some file can have it. -/
theorem locate_eq_ok {p : Path} :
    fs.locate ending p = .ok found ↔
      checkPath p = .ok () ∧ Walk fs ending maxLinks (fs.startOf p) p.names found := by
  unfold locate
  rw [bind_ok_iff, ← walk_eq_ok]
  constructor
  · rintro ⟨⟨⟩, hp, h⟩
    refine ⟨hp, ?_⟩
    split at h
    · next found' hw =>
      cases h
      exact hw
    · cases h
  · rintro ⟨hp, hw⟩
    refine ⟨(), hp, ?_⟩
    rw [hw]
    rfl

/-! ### First steps -/

section

variable {fs : Files} {ending : Ending} {links : Nat} {here : Location} {name : Text}
  {rest : List Text} {found : Found}

theorem isIdle_dots : isIdle ".." = false := by decide

theorem Walk.of_idle (h : Walk fs ending links here (name :: rest) found)
    (hn : isIdle name = true) : Walk fs ending links here rest found := by
  cases h with
  | stay _ _ hw => exact hw
  | up => simp [isIdle_dots] at hn
  | enter _ hi => simp [hi.busy] at hn
  | missing _ hi => simp [hi.busy] at hn
  | keep _ hi => simp [hi.busy] at hn
  | follow _ hi => simp [hi.busy] at hn

theorem Walk.of_up (h : Walk fs ending links here (".." :: rest) found) :
    Walk fs ending links here.dropLast rest found := by
  cases h with
  | stay _ hn => simp [isIdle_dots] at hn
  | up _ hw => exact hw
  | enter _ hi => exact absurd rfl hi.notUp
  | missing _ hi => exact absurd rfl hi.notUp
  | keep _ hi => exact absurd rfl hi.notUp
  | follow _ hi => exact absurd rfl hi.notUp

theorem Walk.of_enter (h : Walk fs ending links here (name :: rest) found)
    (hb : isIdle name = false) (hu : name ≠ "..") {e : Entry}
    (he : fs.entry? (here ++ [name.asName]) = some e) (hl : ∀ t, e ≠ .link t) :
    Walk fs ending links (here ++ [name.asName]) rest found := by
  cases h with
  | stay _ hn => simp [hb] at hn
  | up => exact absurd rfl hu
  | enter _ _ _ _ hw => exact hw
  | missing _ _ hm => simp [he] at hm
  | keep _ _ hk => exact absurd (Option.some.inj (he.symm.trans hk)) (hl _)
  | follow _ _ hf => exact absurd (Option.some.inj (he.symm.trans hf)) (hl _)

theorem Walk.of_follow (h : Walk fs ending links here (name :: rest) found)
    (hb : isIdle name = false) (hu : name ≠ "..") {target : Text}
    (he : fs.entry? (here ++ [name.asName]) = some (.link target))
    (hk : ¬ (rest = [] ∧ ending = .keep)) :
    ∃ fewer, Walk fs ending fewer (targetStart here target) (targetNames target ++ rest) found := by
  cases h with
  | stay _ hn => simp [hb] at hn
  | up => exact absurd rfl hu
  | enter _ _ hf hl => exact absurd (Option.some.inj (hf.symm.trans he)) (hl _)
  | missing _ _ hm => simp [he] at hm
  | keep _ _ _ hend => exact absurd ⟨rfl, hend⟩ hk
  | follow _ _ hf _ hw =>
    cases he.symm.trans hf
    exact ⟨_, hw⟩

/-- A walk along some name starts in a directory. -/
theorem Walk.directory (h : Walk fs ending links here (name :: rest) found) :
    fs.entry? here = some .directory := by
  cases h with
  | stay hd => exact hd
  | up hd => exact hd
  | enter hd => exact hd
  | missing hd => exact hd
  | keep hd => exact hd
  | follow hd => exact hd

/-- What a walk finds is what is at the place where it ends. -/
theorem Walk.entry_eq {names : List Text} (h : Walk fs ending links here names found) :
    fs.entry? found.1 = found.2 := by
  induction h with
  | done => rfl
  | stay _ _ _ ih => exact ih
  | up _ _ ih => exact ih
  | enter _ _ _ _ _ ih => exact ih
  | missing _ _ he => exact he
  | keep _ _ he => exact he
  | follow _ _ _ _ _ ih => exact ih

end

/-! ### What a walk finds -/

/-- A name that a directory can hold. -/
structure ProperName (name : Text) : Prop where
  nonempty : name.isEmpty = false
  notDot : name ≠ "."
  notDots : name ≠ ".."
  noSlash : name.contains '/' = false

/-- The working directory has proper names. -/
abbrev StartsProper (fs : Files) : Prop := ∀ name ∈ fs.workingDirectory, ProperName name

/-- What there is lies in a directory, and the working directory is one. -/
structure WellFormed (fs : Files) : Prop where
  parent : ∀ l e, fs.entry? l = some e → fs.entry? l.dropLast = some .directory
  working : fs.entry? fs.workingDirectory = some .directory
  names : ∀ name ∈ fs.workingDirectory, ProperName name

instance (name : Text) : Decidable (ProperName name) :=
  decidable_of_iff (name.isEmpty = false ∧ name ≠ "." ∧ name ≠ ".." ∧ name.contains '/' = false)
    ⟨fun h => ⟨h.1, h.2.1, h.2.2.1, h.2.2.2⟩, fun h => ⟨h.1, h.2, h.3, h.4⟩⟩

variable {fs gs : Files} {ending : Ending} {links : Nat} {here l : Location} {names : List Text}
  {found : Found} {p : Path}

/-- A walk starts in a directory. -/
theorem WellFormed.start (h : fs.WellFormed) (p : Path) :
    fs.entry? (fs.startOf p) = some .directory := by
  unfold startOf
  split
  · rfl
  · exact h.working

/-- A place at which a walk with this ending may end: it is in a directory, and holds what was
found. A link is found only by a walk that stays there. -/
structure FoundAt (fs : Files) (ending : Ending) (found : Found) : Prop where
  entry : fs.entry? found.1 = found.2
  inside : fs.entry? found.1.dropLast = some .directory
  link : ∀ t, found.2 = some (.link t) → ending = .keep

/-- A walk from something that is no link ends at a place where it may end. -/
theorem Walk.foundAt (h : fs.WellFormed) (hw : Walk fs ending links here names found)
    (hh : ∃ e, fs.entry? here = some e ∧ ∀ t, e ≠ .link t) : FoundAt fs ending found := by
  induction hw with
  | done links here =>
    obtain ⟨e, he, hl⟩ := hh
    exact ⟨rfl, h.parent here e he, fun t ht => absurd (Option.some.inj (he.symm.trans ht)) (hl t)⟩
  | stay _ _ _ ih => exact ih hh
  | up hd _ ih => exact ih ⟨_, h.parent _ _ hd, by simp⟩
  | enter _ _ he hl _ ih => exact ih ⟨_, he, hl⟩
  | missing hd _ he => exact ⟨he, by simpa using hd, by simp⟩
  | keep hd _ he hk => exact ⟨he, by simpa using hd, fun _ _ => hk⟩
  | follow hd _ _ _ _ ih =>
    refine ih ?_
    unfold targetStart
    split
    · exact ⟨.directory, rfl, by simp⟩
    · exact ⟨.directory, hd, by simp⟩

/-- A path is found at a place where its walk may end. -/
theorem foundAt_of_locate (h : fs.WellFormed) (hp : fs.locate ending p = .ok found) :
    FoundAt fs ending found :=
  (locate_eq_ok.mp hp).2.foundAt h ⟨_, h.start p, by simp⟩

/-- What a walk finds without staying at a link, a walk that follows links finds. -/
theorem Walk.to_follow (hw : Walk fs ending links here names found)
    (hf : ending = .keep → found.2 = none) : Walk fs .follow links here names found := by
  have hs {name : Text} {rest : List Text} (hn : StepsInto ending name rest) :
      StepsInto .follow name rest := ⟨hn.busy, hn.notUp, by simp, hn.short⟩
  induction hw with
  | done links here => exact .done links here
  | stay hd hn _ ih => exact .stay hd hn (ih hf)
  | up hd _ ih => exact .up hd (ih hf)
  | enter hd hn he hl _ ih => exact .enter hd (hs hn) he hl (ih hf)
  | missing hd hn he => exact .missing hd (hs hn) he
  | keep _ _ _ hk => cases hf hk
  | follow hd hn he _ _ ih => exact .follow hd (hs hn) he (by simp) (ih hf)

theorem locate_follow (hp : fs.locate ending p = .ok found) (hf : ending = .keep → found.2 = none) :
    fs.locate .follow p = .ok found := by
  obtain ⟨hc, hw⟩ := locate_eq_ok.mp hp
  exact locate_eq_ok.mpr ⟨hc, hw.to_follow hf⟩

/-! ### Growth -/

/-- Directories and links stay what they are, files stay files, and nothing new is a link. -/
structure Grows (fs gs : Files) : Prop where
  directory : ∀ l, fs.entry? l = some .directory → gs.entry? l = some .directory
  link : ∀ l t, fs.entry? l = some (.link t) ↔ gs.entry? l = some (.link t)
  file : ∀ l c, fs.entry? l = some (.file c) → ∃ c', gs.entry? l = some (.file c')
  working : gs.workingDirectory = fs.workingDirectory

theorem Grows.refl (fs : Files) : fs.Grows fs :=
  ⟨fun _ h => h, fun _ _ => Iff.rfl, fun _ c h => ⟨c, h⟩, rfl⟩

theorem Grows.trans {ks : Files} (h : fs.Grows gs) (h' : gs.Grows ks) : fs.Grows ks where
  directory l hl := h'.directory l (h.directory l hl)
  link l t := (h.link l t).trans (h'.link l t)
  file l c hl := by
    obtain ⟨c', hc⟩ := h.file l c hl
    exact h'.file l c' hc
  working := h'.working.trans h.working

/-- What is there and no link is there after growth, and still no link. -/
theorem Grows.entered (h : fs.Grows gs) {e : Entry} (he : fs.entry? l = some e)
    (hl : ∀ t, e ≠ .link t) : ∃ e', gs.entry? l = some e' ∧ ∀ t, e' ≠ .link t := by
  cases e with
  | directory => exact ⟨_, h.directory l he, by simp⟩
  | link t => exact absurd rfl (hl t)
  | file c =>
    obtain ⟨c', hc⟩ := h.file l c he
    exact ⟨_, hc, by simp⟩

/-- A walk ends at the same place after growth, and finds what is there then. -/
theorem Walk.grows (h : fs.Grows gs) (hw : Walk fs ending links here names found) :
    Walk gs ending links here names (found.1, gs.entry? found.1) := by
  induction hw with
  | done links here => exact .done links here
  | stay hd hn _ ih => exact .stay (h.directory _ hd) hn ih
  | up hd _ ih => exact .up (h.directory _ hd) ih
  | enter hd hn he hl _ ih =>
    obtain ⟨e', he', hl'⟩ := h.entered he hl
    exact .enter (h.directory _ hd) hn he' hl' ih
  | @missing links here name hd hn he =>
    cases he' : gs.entry? (here ++ [name.asName]) with
    | none => exact .missing (h.directory _ hd) hn he'
    | some e =>
      have hl : ∀ t, e ≠ .link t := by
        rintro t rfl
        rw [(h.link _ t).mpr he'] at he
        cases he
      rw [← he']
      exact .enter (h.directory _ hd) hn he' hl (.done links _)
  | keep hd hn he hk =>
    have he' := (h.link _ _).mp he
    rw [he']
    exact .keep (h.directory _ hd) hn he' hk
  | follow hd hn he hk _ ih =>
    exact .follow (h.directory _ hd) hn ((h.link _ _).mp he) hk ih

/-- After growth a path is found at the same place. -/
theorem Grows.locate (h : fs.Grows gs) (hp : fs.locate ending p = .ok found) :
    gs.locate ending p = .ok (found.1, gs.entry? found.1) := by
  obtain ⟨hc, hw⟩ := locate_eq_ok.mp hp
  have hs : gs.startOf p = fs.startOf p := by simp only [startOf, h.working]
  have hg := hw.grows h
  rw [← hs] at hg
  exact locate_eq_ok.mpr ⟨hc, hg⟩

/-- A path leads to a place. -/
def Leads (fs : Files) (p : Path) (l : Location) : Prop :=
  ∃ e, fs.locate .follow p = .ok (l, some e)

/-- A path leads to one place only. -/
theorem Leads.unique {l' : Location} (h : fs.Leads p l) (h' : fs.Leads p l') : l = l' := by
  obtain ⟨e, he⟩ := h
  obtain ⟨e', he'⟩ := h'
  rw [he] at he'
  cases he'
  rfl

/-- Growth leaves paths leading where they led. -/
theorem Grows.leads (h : fs.Grows gs) (hw : fs.WellFormed) (hl : fs.Leads p l) : gs.Leads p l := by
  obtain ⟨e, he⟩ := hl
  have hf := foundAt_of_locate hw he
  obtain ⟨e', he', -⟩ := h.entered hf.entry fun t ht => by
    cases hf.link t (by rw [ht])
  have hg := h.locate he
  rw [he'] at hg
  exact ⟨e', hg⟩

end RoutePlugins.Files
