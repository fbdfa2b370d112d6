import RoutePlugins.Proofs.Files.Walks
import RoutePlugins.Proofs.Maps

/-!
# What writing changes

Making directories and writing files lets a file system grow. A file that is written through some
paths is one to which such a path leads afterwards, so a file to which none of them leads keeps its
bytes.
-/

namespace RoutePlugins.Files

/-- The bytes of the file at a location, if there is one. -/
def contentAt? (fs : Files) (l : Location) : Option Bytes :=
  match fs.entry? l with
  | some (.file content) => some content
  | _ => none

variable {fs gs : Files} {l : Location} {content : Bytes} {P : Path → Prop} {p : Path}

theorem contentAt?_of_entry (h : gs.entry? l = fs.entry? l) :
    gs.contentAt? l = fs.contentAt? l := by
  rw [contentAt?, contentAt?, h]

theorem contentAt?_eq_some :
    fs.contentAt? l = some content ↔ fs.entry? l = some (.file content) := by
  unfold contentAt?
  cases fs.entry? l with
  | none => simp
  | some e =>
    cases e with
    | directory => simp
    | file c => simp
    | link t => simp

/-! ### Checking file systems -/

instance (o : Option Entry) : Decidable (o = some .directory) :=
  match o with
  | some .directory => .isTrue rfl
  | some (.file _) => .isFalse (by simp)
  | some (.link _) => .isFalse (by simp)
  | none => .isFalse (by simp)

instance (o : Option Entry) : Decidable (∀ t, o ≠ some (.link t)) :=
  match o with
  | some .directory => .isTrue (by simp)
  | some (.file _) => .isTrue (by simp)
  | some (.link t) => .isFalse fun h => h t rfl
  | none => .isTrue (by simp)

/-- A file system is well formed if each listed entry is in a directory. -/
theorem wellFormed_iff :
    fs.WellFormed ↔ (∀ e ∈ fs.entries, fs.entry? e.1.dropLast = some .directory) ∧
      fs.entry? fs.workingDirectory = some .directory ∧
      ∀ name ∈ fs.workingDirectory, ProperName name := by
  constructor
  · intro h
    refine ⟨fun e he => ?_, h.working, h.names⟩
    cases hl : e.1 with
    | nil => rfl
    | cons name rest =>
      have hk : e.1 ∈ Assoc.keys fs.entries := List.mem_map_of_mem he
      obtain ⟨e', he'⟩ := Assoc.exists_get?_iff.mpr hk
      refine h.parent (name :: rest) e' ?_
      rw [← hl]
      simpa [ entry?, hl] using he'
  · rintro ⟨hentries, hworking, hnames⟩
    refine ⟨fun l e he => ?_, hworking, hnames⟩
    cases l with
    | nil => rfl
    | cons name rest =>
      have hg : Assoc.get? (name :: rest) fs.entries = some e := by simpa [ entry?] using he
      exact hentries _ (Assoc.mem_of_get? hg)

instance (fs : Files) : Decidable fs.WellFormed := decidable_of_iff _ wellFormed_iff.symm

/-! ### Putting an entry -/

theorem entry_put (hl : l ≠ []) (e : Entry) (l' : Location) :
    entry? (fs.put l e) l' = if l' = l then some e else fs.entry? l' := by
  cases l' with
  | nil => simp [ entry?, Ne.symm hl]
  | cons name rest => simp [ entry?, put, Assoc.get?_insert]

/-- A place in a directory at which there is no directory. -/
structure Vacant (fs : Files) (l : Location) : Prop where
  notDirectory : fs.entry? l ≠ some .directory
  inside : fs.entry? l.dropLast = some .directory

theorem Vacant.ne_nil (h : fs.Vacant l) : l ≠ [] := by
  rintro rfl
  exact h.notDirectory rfl

theorem Vacant.directory_put {l' : Location} (h : fs.Vacant l) (e : Entry)
    (hd : fs.entry? l' = some .directory) : entry? (fs.put l e) l' = some .directory := by
  rw [entry_put h.ne_nil, if_neg]
  · exact hd
  · rintro rfl
    exact h.notDirectory hd

theorem Vacant.wellFormed_put (h : fs.Vacant l) (hw : fs.WellFormed) (e : Entry) :
    (fs.put l e).WellFormed where
  parent l' e' he := by
    refine h.directory_put e ?_
    rw [entry_put h.ne_nil] at he
    split at he
    · next hl =>
      rw [hl]
      exact h.inside
    · exact hw.parent l' e' he
  working := h.directory_put e hw.working
  names := hw.names

/-- A file system grows when an entry is put where nothing is, or a file where a file is. -/
theorem Vacant.grows_put (h : fs.Vacant l) {e : Entry} (hl : ∀ t, e ≠ .link t)
    (hn : ∀ t, fs.entry? l ≠ some (.link t))
    (hf : ∀ c, fs.entry? l = some (.file c) → ∃ c', e = .file c') : fs.Grows (fs.put l e) where
  directory l' hd := h.directory_put e hd
  link l' t := by
    rw [entry_put h.ne_nil]
    split
    · next heq =>
      subst heq
      simp [hn t, hl t]
    · exact Iff.rfl
  file l' c hc := by
    rw [entry_put h.ne_nil]
    split
    · next heq =>
      subst heq
      obtain ⟨c', rfl⟩ := hf c hc
      exact ⟨c', rfl⟩
    · exact ⟨c, hc⟩
  working := rfl

/-! ### Removing entries -/

/-- The file system without what is at a place. -/
def without (fs : Files) (l : Location) : Files :=
  { fs with entries := fs.entries.filter (·.1 != l) }

theorem entry_without (hl : l ≠ []) (l' : Location) :
    entry? (fs.without l) l' = if l' = l then none else fs.entry? l' := by
  cases l' with
  | nil => simp [ entry?, Ne.symm hl]
  | cons name rest =>
    change Assoc.get? (name :: rest) (fs.entries.filter (·.1 != l)) = _
    rw [Assoc.get?_filter_ne]
    rfl

/-- What is put at a place that held nothing is removed again. -/
theorem without_put (hl : l ≠ []) (hnone : fs.entry? l = none) (e : Entry) :
    (fs.put l e).without l = fs := by
  have hother : ∀ entry ∈ fs.entries, (entry.1 != l) = true := by
    intro entry hm
    refine bne_iff_ne.mpr fun heq => ?_
    have hk : l ∈ Assoc.keys fs.entries := heq ▸ List.mem_map_of_mem hm
    obtain ⟨found, hfound⟩ := Assoc.exists_get?_iff.mpr hk
    simp [ entry?, hl, hfound] at hnone
  rw [without, put, Assoc.filter_ne_insert, List.filter_eq_self.mpr hother]

theorem wellFormed_without_of_ne (h : fs.WellFormed) {e : Entry} (hl : fs.entry? l = some e)
    (hd : e ≠ .directory) : (fs.without l).WellFormed := by
  have hne : l ≠ [] := by
    rintro rfl
    exact hd (Option.some.inj hl).symm
  have hkept {l' : Location} (hd' : fs.entry? l' = some .directory) :
      entry? (fs.without l) l' = some .directory := by
    rw [entry_without hne, if_neg]
    · exact hd'
    · rintro rfl
      exact hd (Option.some.inj (hl.symm.trans hd'))
  refine ⟨fun l' e he => hkept ?_, hkept h.working, h.names⟩
  rw [entry_without hne] at he
  split at he
  · cases he
  · exact h.parent l' e he

theorem wellFormed_without (h : fs.WellFormed) {c : Bytes} (hl : fs.entry? l = some (.file c)) :
    (fs.without l).WellFormed :=
  wellFormed_without_of_ne h hl (by simp)

/-- The file system without a place and all that is below it. -/
def withoutTree (fs : Files) (l : Location) : Files :=
  { fs with entries := fs.entries.filter fun e => !l.isPrefixOf e.1 }

theorem entry_withoutTree (hl : l ≠ []) (l' : Location) :
    entry? (fs.withoutTree l) l' = if l <+: l' then none else fs.entry? l' := by
  cases l' with
  | nil => simp [ entry?, hl]
  | cons name rest =>
    change Assoc.get? (name :: rest) (fs.entries.filter fun e => !l.isPrefixOf e.1) = _
    rw [Assoc.get?_filter (fun place => !l.isPrefixOf place)]
    by_cases hp : l <+: name :: rest
    · rw [List.isPrefixOf_iff_prefix.mpr hp, if_pos hp]
      rfl
    · rw [Bool.eq_false_iff.mpr fun h => hp (List.isPrefixOf_iff_prefix.mp h), if_neg hp]
      rfl

theorem wellFormed_withoutTree {fs : Files} (h : fs.WellFormed) {l : Location} (hl : l ≠ [])
    (hw : ¬ l <+: fs.workingDirectory) : (fs.withoutTree l).WellFormed := by
  refine ⟨fun l' e he => ?_, ?_, h.names⟩
  · rw [entry_withoutTree hl] at he ⊢
    split at he
    · cases he
    · next hout =>
      rw [if_neg fun hin => hout (hin.trans (List.dropLast_prefix l'))]
      exact h.parent l' e he
  · rw [entry_withoutTree hl]
    exact (if_neg hw).trans h.working

/-! ### Writing through paths -/

/-- What writing through the paths `P` does to a well-formed file system. -/
structure Written (P : Path → Prop) (fs gs : Files) : Prop where
  wellFormed : gs.WellFormed
  grows : fs.Grows gs
  kept : ∀ l, (∀ p, P p → ¬ gs.Leads p l) → gs.contentAt? l = fs.contentAt? l

/-- A well-formed file system changes only by writing through the paths `P`. -/
def Writes (P : Path → Prop) (fs gs : Files) : Prop := fs.WellFormed → Written P fs gs

theorem Writes.mono {Q : Path → Prop} (hpq : ∀ p, P p → Q p) (h : Writes P fs gs) :
    Writes Q fs gs := fun hw =>
  ⟨(h hw).wellFormed, (h hw).grows, fun l hl => (h hw).kept l fun p hp => hl p (hpq p hp)⟩

instance (P : Path → Prop) : IsPreorder Files (Writes P) where
  refl fs hw := ⟨hw, .refl fs, fun _ _ => rfl⟩
  trans fs gs ks h h' hw := by
    have h1 := h hw
    have h2 := h' h1.wellFormed
    refine ⟨h2.wellFormed, h1.grows.trans h2.grows, fun l hl => (h2.kept l hl).trans ?_⟩
    exact h1.kept l fun p hp hlead => hl p hp (h2.grows.leads h1.wellFormed hlead)

/-- The place at which a file may be written. -/
theorem vacant_of_locate_create (hw : fs.WellFormed) {o : Option Entry}
    (h : fs.locate .create p = .ok (l, o)) (ho : o ≠ some .directory) :
    fs.Vacant l ∧ ∀ t, fs.entry? l ≠ some (.link t) := by
  have hf := foundAt_of_locate hw h
  refine ⟨⟨by rwa [hf.entry], hf.inside⟩, fun t ht => ?_⟩
  rw [hf.entry] at ht
  cases hf.link t ht

/-- A file that was written can be found by its path. -/
theorem locate_of_writeBytes (hw : fs.WellFormed) (h : fs.writeBytes p content = .ok gs) :
    ∃ l, fs.Vacant l ∧ (∀ t, fs.entry? l ≠ some (.link t)) ∧ gs = fs.put l (.file content) ∧
      gs.locate .follow p = .ok (l, some (.file content)) := by
  unfold writeBytes at h
  obtain ⟨⟨l, o⟩, hl, h⟩ := bind_ok_iff.mp h
  split at h
  · cases h
  · next l' o' hne heq =>
    cases heq
    cases h
    obtain ⟨hv, hn⟩ := vacant_of_locate_create hw hl hne
    have hg : fs.Grows (fs.put l (.file content)) := hv.grows_put (by simp) hn (by simp)
    have hp := hg.locate (locate_follow hl (by simp))
    rw [entry_put hv.ne_nil, if_pos rfl] at hp
    exact ⟨l, hv, hn, rfl, hp⟩

theorem writes_of_writeBytes (hp : P p) (h : fs.writeBytes p content = .ok gs) :
    Writes P fs gs := by
  intro hw
  obtain ⟨l, hv, hn, rfl, hlead⟩ := locate_of_writeBytes hw h
  refine ⟨hv.wellFormed_put hw _, hv.grows_put (by simp) hn (by simp), fun l' hl' => ?_⟩
  refine contentAt?_of_entry ?_
  rw [entry_put hv.ne_nil, if_neg]
  rintro rfl
  exact hl' p hp ⟨_, hlead⟩

/-- A directory that was made is at a place that held nothing, and can be found by its path. -/
theorem locate_of_makeDirectory (hw : fs.WellFormed) (h : fs.makeDirectory p = .ok gs) :
    ∃ l, fs.Vacant l ∧ fs.entry? l = none ∧ gs = fs.put l .directory ∧ fs.Grows gs ∧
      gs.locate .follow p = .ok (l, some .directory) := by
  unfold makeDirectory at h
  obtain ⟨⟨l, o⟩, hl, h⟩ := bind_ok_iff.mp h
  split at h
  · next l' heq =>
    cases heq
    cases h
    have hf := foundAt_of_locate hw hl
    have hnone : fs.entry? l = none := hf.entry
    have hv : fs.Vacant l := ⟨by simp [hnone], hf.inside⟩
    have hg : fs.Grows (fs.put l .directory) :=
      hv.grows_put (by simp) (by simp [hnone]) (by simp [hnone])
    have hp := hg.locate (locate_follow hl fun _ => rfl)
    rw [entry_put hv.ne_nil, if_pos rfl] at hp
    exact ⟨l, hv, hnone, rfl, hg, hp⟩
  · cases h

theorem writes_of_makeDirectory (h : fs.makeDirectory p = .ok gs) : Writes P fs gs := by
  intro hw
  obtain ⟨l, hv, hnone, rfl, hg, -⟩ := locate_of_makeDirectory hw h
  refine ⟨hv.wellFormed_put hw _, hg, fun l' _ => ?_⟩
  rw [contentAt?, contentAt?, entry_put hv.ne_nil]
  split_ifs with heq
  · rw [heq, hnone]
  · rfl

section

variable {R : Files → Files → Prop} [IsPreorder Files R]

theorem moves_change {f : Files → Except Fault Files} (h : ∀ fs gs, f fs = .ok gs → R fs gs) :
    Moves R (change f) := by
  refine Moves.get_bind fun fs => ?_
  cases hf : f fs with
  | ok gs => exact h fs gs hf
  | error e => exact refl_of R fs

theorem rel_of_ensureDirectory {p : Path} {fs gs : Files}
    (hmake : ∀ fs gs, fs.makeDirectory p = .ok gs → R fs gs) (h : fs.ensureDirectory p = .ok gs) :
    R fs gs := by
  unfold ensureDirectory at h
  split at h
  · next hm =>
    cases h
    exact hmake _ _ hm
  · cases h
  · obtain ⟨b, -, h⟩ := bind_ok_iff.mp h
    split at h
    · cases h
      exact refl_of R fs
    · cases h
  · cases h

theorem rel_ensureDirectoriesFrom {anchor : Anchor} {names : List Text}
    (hmake : ∀ front, front <+: names.reverse → ∀ fs gs,
      fs.makeDirectory ⟨anchor, front⟩ = .ok gs → R fs gs) (fs : Files) :
    R fs (ensureDirectoriesFrom anchor names fs).1 := by
  induction names generalizing fs with
  | nil =>
    unfold ensureDirectoriesFrom
    dsimp only
    split
    · next hm => exact rel_of_ensureDirectory (hmake _ (List.prefix_refl _)) hm
    · next heq => cases heq
    · exact refl_of R fs
  | cons name above ih =>
    have hlast := hmake _ (List.prefix_refl _)
    rw [List.reverse_cons] at hmake
    have ha := ih (fun front hf => hmake front (hf.trans (List.prefix_append _ _))) fs
    unfold ensureDirectoriesFrom
    dsimp only
    split
    · next hm => exact rel_of_ensureDirectory hlast hm
    · next heq =>
      cases heq
      split
      · next he => rwa [he] at ha
      · next he =>
        rw [he] at ha
        split
        · next hm => exact trans_of R ha (rel_of_ensureDirectory hlast hm)
        · exact ha
    · exact refl_of R fs

/-- Making the directories on the way of a path moves along a relation if making each one does. -/
theorem moves_ensureDirectories_of {p : Path} (hmake : ∀ front, front <+: p.names → ∀ fs gs,
      fs.makeDirectory ⟨p.anchor, front⟩ = .ok gs → R fs gs) : Moves R (ensureDirectories p) := by
  intro fs
  rw [← List.reverse_reverse p.names] at hmake
  have h := rel_ensureDirectoriesFrom hmake fs
  unfold ensureDirectories
  split
  · next he => rwa [he] at h
  · next he => rwa [he] at h

/-- Writing a text moves along a relation if making the directories and writing the bytes do. -/
theorem moves_writeText_of (root : Path) {p : Path} (hdirs : Moves R (ensureDirectories p.parent))
    (hwrite : ∀ content fs gs, fs.writeBytes p content = .ok gs → R fs gs) (text : Text) :
    Moves R (writeText root p text) := by
  have hb (content : Bytes) : Moves R (change (·.writeBytes p content)) :=
    moves_change (hwrite content)
  unfold writeText
  refine Moves.get.bind fun fs => (Moves.lift _).bind fun _ => hdirs.bind fun _ => ?_
  unfold writeEncoded
  split
  · exact hb _
  · exact (hb []).bind fun _ => .throw _

end

theorem moves_ensureDirectories (P : Path → Prop) (p : Path) :
    Moves (Writes P) (ensureDirectories p) :=
  moves_ensureDirectories_of fun _ _ _ _ => writes_of_makeDirectory

/-- Writing a text changes only the file to which the path leads. -/
theorem moves_writeText {P : Path → Prop} (root : Path) {p : Path} (hp : P p) (text : Text) :
    Moves (Writes P) (writeText root p text) :=
  moves_writeText_of root (moves_ensureDirectories P p.parent)
    (fun _ _ _ => writes_of_writeBytes hp) text

/-- Writing a document changes only the file to which the path leads. -/
theorem moves_writeValue {P : Path → Prop} (root : Path) {p : Path} (hp : P p) (v : Value) :
    Moves (Writes P) (writeValue root p v) :=
  (Moves.lift _).bind fun j => moves_writeText root hp j.write

end RoutePlugins.Files
