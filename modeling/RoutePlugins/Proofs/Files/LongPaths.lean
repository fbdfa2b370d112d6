import RoutePlugins.Proofs.Files.Walks

/-!
# Paths that are too long

Whether a path leads to a file, and whether it leads to a directory, is told without a fault unless
the path, or a name that its walk comes to, is longer than any file can have. A walk comes to a name
only through directories that are there, so a long name behind something missing does no harm.
-/

namespace RoutePlugins.Files

/-- The walks that come to a name longer than that of any file. -/
inductive MeetsLong (fs : Files) : Nat → Location → List Text → Prop
  | long {links : Nat} {here : Location} {name : Text} {rest : List Text}
      (hd : fs.entry? here = some .directory) (hb : isIdle name = false) (hu : name ≠ "..")
      (hl : maxName < name.nameSize) : MeetsLong fs links here (name :: rest)
  | stay {links : Nat} {here : Location} {name : Text} {rest : List Text}
      (hd : fs.entry? here = some .directory) (hn : isIdle name = true)
      (hm : MeetsLong fs links here rest) : MeetsLong fs links here (name :: rest)
  | up {links : Nat} {here : Location} {rest : List Text}
      (hd : fs.entry? here = some .directory) (hm : MeetsLong fs links here.dropLast rest) :
      MeetsLong fs links here (".." :: rest)
  | enter {links : Nat} {here : Location} {name : Text} {rest : List Text} {e : Entry}
      (hd : fs.entry? here = some .directory) (hn : StepsInto .follow name rest)
      (he : fs.entry? (here ++ [name.asName]) = some e) (hl : ∀ t, e ≠ .link t)
      (hm : MeetsLong fs links (here ++ [name.asName]) rest) :
      MeetsLong fs links here (name :: rest)
  | follow {links : Nat} {here : Location} {name target : Text} {rest : List Text}
      (hd : fs.entry? here = some .directory) (hn : StepsInto .follow name rest)
      (he : fs.entry? (here ++ [name.asName]) = some (.link target))
      (hm : MeetsLong fs links (targetStart here target) (targetNames target ++ rest)) :
      MeetsLong fs (links + 1) here (name :: rest)

/-- The refusals of a walk that mean that there is nothing to find. -/
def absentCodes : List OsCode := [.missing, .notDirectory, .linkLoop]

variable {code : OsCode} {p : Path} {e : Fault}

theorem meansAbsent_of_mem (h : code ∈ absentCodes) (place : Text) :
    meansAbsent (.os code place) = true := by
  simp only [absentCodes, List.mem_cons, List.not_mem_nil, or_false] at h
  rcases h with rfl | rfl | rfl
  · rfl
  · rfl
  · rfl

variable {fs : Files} {links : Nat} {here : Location} {names : List Text}

private theorem walkNames_long {name : Text} {rest : List Text}
    {follow : Location → List Text → Except OsCode Found}
    (hd : fs.entry? here = some .directory) (hb : isIdle name = false) (hu : name ≠ "..")
    (hl : maxName < name.nameSize) :
    fs.walkNames .follow follow here (name :: rest) = .error .nameTooLong := by
  rw [walkNames, hd]
  have hi : (name.isEmpty || name == ".") = false := hb
  simp [hi, hu, hl]

/-- A walk that is refused for another reason than a missing entry has come to a long name, if that
holds of the walks behind links. -/
private theorem meetsLong_of_walkNames
    (hf : ∀ {start names}, fs.follower .follow links start names = .error code →
      code ∈ absentCodes ∨
        code = .nameTooLong ∧ ∃ fewer, links = fewer + 1 ∧ MeetsLong fs fewer start names)
    (h : fs.walkNames .follow (fs.follower .follow links) here names = .error code) :
    code ∈ absentCodes ∨ code = .nameTooLong ∧ MeetsLong fs links here names := by
  induction names generalizing here with
  | nil => cases h
  | cons name rest ih =>
    by_cases hd : fs.entry? here = some .directory
    · by_cases hi : isIdle name = true
      · rw [walkNames_idle hd hi] at h
        exact (ih h).imp_right (And.imp_right (.stay hd hi))
      have hb : isIdle name = false := by simpa using hi
      by_cases hu : name = ".."
      · subst hu
        rw [walkNames_up hd] at h
        exact (ih h).imp_right (And.imp_right (.up hd))
      by_cases hl : maxName < name.nameSize
      · rw [walkNames_long hd hb hu hl] at h
        cases h
        exact .inr ⟨rfl, .long hd hb hu hl⟩
      have hn : StepsInto .follow name rest := ⟨hb, hu, by simp, Nat.le_of_not_lt hl⟩
      rw [walkNames_into hd hn] at h
      split at h
      · next target he =>
        rw [if_neg (by simp)] at h
        refine (hf h).imp_right ?_
        rintro ⟨hc, fewer, rfl, hm⟩
        exact ⟨hc, .follow hd hn he hm⟩
      · next e hlink he => exact (ih h).imp_right (And.imp_right (.enter hd hn he hlink))
      · split at h
        · cases h
        · cases h
          exact .inl (by decide)
    · rw [walkNames] at h
      split at h
      · next hd' => exact absurd hd' hd
      · cases h
        exact .inl (by decide)
      · cases h
        exact .inl (by decide)

/-- A walk is refused because something is missing, or has come to a long name. -/
theorem meetsLong_of_walk (h : fs.walk .follow links here names = .error code) :
    code ∈ absentCodes ∨ code = .nameTooLong ∧ MeetsLong fs links here names := by
  induction links generalizing here names with
  | zero =>
    rw [walk_eq] at h
    refine meetsLong_of_walkNames (fun h => ?_) h
    cases h
    exact .inl (by decide)
  | succ links ih =>
    rw [walk_eq] at h
    refine meetsLong_of_walkNames (fun h => (ih h).imp_right (And.imp_right fun hm => ?_)) h
    exact ⟨links, rfl, hm⟩

/-- A walk that comes to a long name is refused for it. -/
theorem MeetsLong.walk (h : MeetsLong fs links here names) :
    fs.walk .follow links here names = .error .nameTooLong := by
  induction h with
  | long hd hb hu hl => rw [walk_eq, walkNames_long hd hb hu hl]
  | stay hd hn _ ih => rwa [walk_eq, walkNames_idle hd hn, ← walk_eq]
  | up hd _ ih => rwa [walk_eq, walkNames_up hd, ← walk_eq]
  | enter hd hn he hl _ ih => rwa [walk_enter hd hn he hl]
  | follow hd hn he _ ih =>
    rw [walk_eq, walkNames_into hd hn, he]
    exact (if_neg (by simp)).trans ih

/-- A path that some file could have, were it not too long: it has too many bytes, or its walk comes
to a name that has. -/
structure TooLong (fs : Files) (p : Path) : Prop where
  nameable : p.text.unnameable? = none
  noNull : p.text.contains '\x00' = false
  long : pathLimit ≤ p.text.nameSize ∨ MeetsLong fs maxLinks (fs.startOf p) p.names

/-- A path with a text that a file can have is refused only if that has too many bytes. -/
theorem checkPath_of_nameable (hname : p.text.unnameable? = none)
    (hnull : p.text.contains '\x00' = false) :
    checkPath p = if pathLimit ≤ p.text.nameSize then refuse .nameTooLong p else .ok () := by
  unfold checkPath
  rw [hname]
  exact if_neg (by simp [hnull])

/-- If no file can have the text of a path, there is nothing to find. -/
theorem checkPath_cases (p : Path) :
    (∃ e, checkPath p = .error e ∧ meansAbsent e = true) ∨
      p.text.unnameable? = none ∧ p.text.contains '\x00' = false := by
  unfold checkPath
  split
  · exact .inl ⟨_, rfl, rfl⟩
  next hname =>
  split
  · exact .inl ⟨_, rfl, rfl⟩
  next hnull =>
  exact .inr ⟨hname, by simpa using hnull⟩

/-- What a path leads to is not told because there is nothing, or because the path is too long. -/
theorem stat_eq_error (h : fs.stat p = .error e) :
    meansAbsent e = true ∨ TooLong fs p ∧ e = .os .nameTooLong (Text.quoted p.text) := by
  unfold stat locate at h
  rcases checkPath_cases p with ⟨e', hcheck, habsent⟩ | ⟨hname, hnull⟩
  · rw [hcheck] at h
    cases h
    exact .inl habsent
  rw [checkPath_of_nameable hname hnull] at h
  split at h
  · next hlong =>
    cases h
    exact .inr ⟨⟨hname, hnull, .inl hlong⟩, rfl⟩
  cases hwalk : fs.walk .follow maxLinks (fs.startOf p) p.names with
  | ok found =>
    rw [hwalk] at h
    obtain ⟨l, entry⟩ := found
    cases entry with
    | some x => cases h
    | none =>
      cases h
      exact .inl rfl
  | error code =>
    rw [hwalk] at h
    cases h
    rcases meetsLong_of_walk hwalk with hcode | ⟨rfl, hmeets⟩
    · exact .inl (meansAbsent_of_mem hcode _)
    · exact .inr ⟨⟨hname, hnull, .inr hmeets⟩, rfl⟩

theorem TooLong.stat (h : TooLong fs p) : fs.stat p = refuse .nameTooLong p := by
  unfold Files.stat locate
  rw [checkPath_of_nameable h.nameable h.noNull]
  split
  · rfl
  · next hshort =>
    rw [(h.long.resolve_left hshort).walk]
    rfl

/-- A look at a path raises a fault exactly if the path is too long. -/
theorem foundWith_eq_error_iff {q : Entry → Bool} :
    foundWith q (fs.stat p) = .error e ↔
      TooLong fs p ∧ e = .os .nameTooLong (Text.quoted p.text) := by
  constructor
  · intro h
    cases hstat : fs.stat p with
    | ok x =>
      rw [hstat] at h
      cases h
    | error x =>
      rw [hstat, foundWith] at h
      split at h
      · cases h
      · next hpresent =>
        cases h
        exact (stat_eq_error hstat).resolve_left hpresent
  · rintro ⟨h, rfl⟩
    rw [h.stat]
    rfl

end RoutePlugins.Files
