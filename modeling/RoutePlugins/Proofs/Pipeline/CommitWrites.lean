import RoutePlugins.Proofs.Files.Resolved
import RoutePlugins.Proofs.Pipeline.CommitDecision

/-!
# What a commit writes

A commit first looks which of the staged texts are there already, up to line ends, and then writes
the others in turn. So a file to which staged paths lead holds in the end the text that was written
there last; or, where all of these paths were skipped, the bytes that it held before.
-/

namespace RoutePlugins

variable {b : Bytes} {t : Text}

/-! ### Encoding -/

theorem Text.chars_ofChars (cs : List Char) : (ofChars cs).chars = cs := by
  change (cs.map CodePoint.char).map (fun p => p.char?.getD '?') = cs
  rw [List.map_map]
  exact List.map_id cs

namespace Utf8

private theorem chars_of_refusedRun {start : Nat} {ps : List CodePoint}
    (h : refusedRun? CodePoint.isHalf start ps = none) :
    ps = (ps.map fun p => p.char?.getD '?').map CodePoint.char := by
  induction ps generalizing start with
  | nil => rfl
  | cons p ps ih =>
    rw [refusedRun?] at h
    cases p with
    | half n => cases h
    | char c =>
      rw [List.map_cons, List.map_cons, ← ih h]
      rfl

/-- A text that has bytes is made of characters. -/
theorem eq_ofChars_of_encode (h : encode t = .ok b) :
    t = Text.ofChars t.chars ∧ b = encodeChars t.chars := by
  unfold encode at h
  split at h
  · cases h
  · next hr =>
    cases h
    obtain ⟨points⟩ := t
    exact ⟨congrArg Text.mk (chars_of_refusedRun hr), rfl⟩

/-- A text of characters has bytes. -/
theorem encode_ofChars (cs : List Char) : encode (Text.ofChars cs) = .ok (encodeChars cs) := by
  have hrun (start : Nat) : refusedRun? CodePoint.isHalf start (cs.map .char) = none := by
    induction cs generalizing start with
    | nil => rfl
    | cons c cs ih => exact ih (start + 1)
  unfold encode
  rw [show (Text.ofChars cs).points = cs.map .char from rfl, hrun 0, Text.chars_ofChars]

theorem encodeChars_injective {cs ds : List Char} (h : encodeChars cs = encodeChars ds) :
    cs = ds := by
  have hb : cs.utf8Encode = ds.utf8Encode := congrArg List.toByteArray h
  have hd := congrArg ByteArray.utf8Decode? hb
  rw [List.utf8Decode?_utf8Encode, List.utf8Decode?_utf8Encode] at hd
  simpa using hd

/-- Two texts with the same bytes are one. -/
theorem encode_injective {s : Text} (hs : encode s = .ok b) (ht : encode t = .ok b) : s = t := by
  obtain ⟨hs, hbs⟩ := eq_ofChars_of_encode hs
  obtain ⟨ht, hbt⟩ := eq_ofChars_of_encode ht
  rw [hs, ht, encodeChars_injective (hbs.symm.trans hbt)]

/-- A text that has bytes is kept as it is. -/
theorem joined_of_encode (h : encode t = .ok b) : t.joined = t := by
  obtain ⟨ht, -⟩ := eq_ofChars_of_encode h
  rw [ht]
  exact (Text.settled_ofChars t.chars).joined

end Utf8

namespace Files

variable {fs : Files} {p : Path}

/-! ### Writing one text -/

/-- A text that was written has bytes, and they are what its path leads to. -/
theorem writeText_eq_ok {gs : Files} (hw : fs.WellFormed) {root : Path} {text : Text}
    (h : writeText root p text fs = .ok () gs) :
    ∃ l b, Utf8.encode text = .ok b ∧ gs.Leads p l ∧ gs.contentAt? l = some b := by
  unfold writeText at h
  obtain ⟨fs', u, hget, h⟩ := bind_eq_ok.mp h
  cases hget
  obtain ⟨⟨⟩, -, h⟩ := lift_bind_eq_ok.mp h
  obtain ⟨⟨⟩, u, hdirs, h⟩ := bind_eq_ok.mp h
  have hu := ((moves_ensureDirectories (fun _ => False) p.parent).of_ok hdirs hw).wellFormed
  unfold writeEncoded at h
  cases hb : Utf8.encode text with
  | error e =>
    rw [hb] at h
    obtain ⟨⟨⟩, u', -, h⟩ := bind_eq_ok.mp h
    cases h
  | ok b =>
    rw [hb] at h
    obtain ⟨fs', u', hget, h⟩ := bind_eq_ok.mp h
    cases hget
    obtain ⟨gs', hwrite, h⟩ := lift_bind_eq_ok.mp h
    cases h
    obtain ⟨l, -, -, -, hl⟩ := locate_of_writeBytes hu hwrite
    refine ⟨l, b, rfl, ⟨_, hl⟩, contentAt?_eq_some.mpr ?_⟩
    exact (foundAt_of_locate (writes_of_writeBytes (P := fun q => q = p) rfl hwrite hu).wellFormed
      hl).entry

/-- Reading the bytes of a path gives those of the file to which it leads. -/
theorem readBytes_eq_ok (hw : fs.WellFormed) :
    fs.readBytes p = .ok b ↔ ∃ l, fs.Leads p l ∧ fs.contentAt? l = some b := by
  constructor
  · intro h
    obtain ⟨entry, hs, hb⟩ := bind_ok_iff.mp h
    obtain ⟨⟨l, o⟩, hl, hs⟩ := bind_ok_iff.mp hs
    cases o with
    | none => cases hs
    | some e =>
      cases hs
      cases entry with
      | directory => cases hb
      | link target => cases hb
      | file content =>
        cases hb
        exact ⟨l, ⟨_, hl⟩, contentAt?_eq_some.mpr (foundAt_of_locate hw hl).entry⟩
  · rintro ⟨l, ⟨e, hl⟩, hc⟩
    have he : fs.entry? l = some e := (foundAt_of_locate hw hl).entry
    rw [contentAt?_eq_some, he] at hc
    cases hc
    rw [readBytes, stat, hl]
    rfl

/-- A path with a text leads to a file. -/
theorem leads_of_readText (hw : fs.WellFormed) {text : Text} (h : fs.readText p = .ok text) :
    ∃ l b, fs.Leads p l ∧ fs.contentAt? l = some b := by
  obtain ⟨b, hb, -⟩ := bind_ok_iff.mp h
  obtain ⟨l, hl, hc⟩ := (readBytes_eq_ok hw).mp hb
  exact ⟨l, b, hl, hc⟩

end Files

namespace Pipeline

open World Files

/-! ### Writing texts in turn -/

/-- Some of the paths of targets. -/
def IsTarget (targets : List (Path × Json)) (p : Path) : Prop := ∃ j, (p, j) ∈ targets

variable {root : Path} {target : Path × Json} {targets : List (Path × Json)} {w w' : World}
  {entries : List (Text × Text)} {e : Text × Text} {fs : Files} {project : Project}
  {texts : List (Text × Json)}

/-- A target is written along a relation if its text is, and the directories on its way are made
along it. -/
theorem moves_writeStaged_of {R : Files → Files → Prop} [IsPreorder Files R]
    (htext : ∀ text, Moves R (writeText root target.1 text))
    (hdirs : Moves R (ensureDirectories target.1.parent)) :
    Moves (OnFiles R) (writeStaged root target) := by
  unfold writeStaged
  split
  · exact Run.moves_changeFiles (htext _)
  · refine Moves.bind (Moves.get.bind fun _ => .lift _) fun _ => ?_
    exact (Run.moves_changeFiles hdirs).bind fun _ => .throw _

variable {P : Path → Prop} {R : World → World → Prop} {p : Path} {n : Nat} {gs : Files}

theorem moves_writeStaged (root : Path) (hp : P target.1) :
    Moves (OnFiles (Writes P)) (writeStaged root target) :=
  moves_writeStaged_of (moves_writeText root hp) (moves_ensureDirectories P _)

/-- Texts are written along a relation if each of them is. -/
theorem moves_writeAll_of [IsPreorder World R]
    (h : ∀ target ∈ targets, Moves R (writeStaged root target)) :
    Moves R (writeAll root targets) := by
  induction targets with
  | nil => exact .pure ()
  | cons target rest ih =>
    have hrest := ih fun t ht => h t (by simp [ht])
    have hone := h target (by simp)
    intro w
    rw [writeAll]
    dsimp only
    split
    · next u hu => exact trans_of _ (hone.of_ok hu) (hrest u)
    · next e u hu =>
      have hmove := trans_of _ (hone.of_error hu) (hrest u)
      split
      · next hv => rwa [hv] at hmove
      · next hv => rwa [hv] at hmove

theorem moves_writeAll (root : Path) (hp : ∀ target ∈ targets, P target.1) :
    Moves (OnFiles (Writes P)) (writeAll root targets) :=
  moves_writeAll_of fun target ht => moves_writeStaged root (hp target ht)

theorem writeStaged_eq_ok (hw : w.files.WellFormed) (h : writeStaged root target w = .ok () w') :
    ∃ text l b, target.2 = .str text ∧ Utf8.encode text = .ok b ∧ w'.files.Leads target.1 l ∧
      w'.files.contentAt? l = some b := by
  unfold writeStaged at h
  cases hj : target.2 with
  | str text =>
    rw [hj] at h
    obtain ⟨l, b, hb, hl, hc⟩ := writeText_eq_ok hw (Run.changeFiles_eq_ok h)
    exact ⟨text, l, b, rfl, hb, hl, hc⟩
  | _ =>
    rw [hj] at h
    obtain ⟨⟨⟩, u, -, h⟩ := bind_eq_ok.mp h
    obtain ⟨⟨⟩, u', -, h⟩ := bind_eq_ok.mp h
    cases h

/-- After targets were written in turn, each of them leads to a file, and a file to which some of
them lead holds the text of one of these. -/
theorem writeAll_eq_ok (hw : w.files.WellFormed) (h : writeAll root targets w = .ok () w') :
    (∀ target ∈ targets, ∃ l, w'.files.Leads target.1 l) ∧
      ∀ l, (∃ p, IsTarget targets p ∧ w'.files.Leads p l) →
        ∃ p text b, (p, Json.str text) ∈ targets ∧ w'.files.Leads p l ∧
          Utf8.encode text = .ok b ∧ w'.files.contentAt? l = some b := by
  induction targets generalizing w with
  | nil =>
    refine ⟨by simp, ?_⟩
    rintro l ⟨p, ⟨j, hj⟩, -⟩
    simp at hj
  | cons target rest ih =>
    rw [writeAll] at h
    cases hone : writeStaged root target w with
    | error e u =>
      simp only [hone] at h
      split at h
      · cases h
      · cases h
    | ok a u =>
      simp only [hone] at h
      have hu : u.files.WellFormed :=
        ((moves_writeStaged (P := fun _ => True) root trivial).of_ok hone hw).wellFormed
      have hrest : Written (IsTarget rest) u.files w'.files :=
        (moves_writeAll root fun t ht => ⟨t.2, ht⟩).of_ok h hu
      obtain ⟨hall, hlast⟩ := ih hu h
      obtain ⟨text, l1, b, hj, hb, hl1, hc⟩ := writeStaged_eq_ok hw hone
      have hl1' := hrest.grows.leads hu hl1
      refine ⟨fun t ht => ?_, fun l hex => ?_⟩
      · obtain rfl | ht := List.mem_cons.mp ht
        · exact ⟨l1, hl1'⟩
        · exact hall t ht
      · -- The last target that leads here is among the rest, or it is the first.
        by_cases hlater : ∃ p, IsTarget rest p ∧ w'.files.Leads p l
        · obtain ⟨p, t, c, hm, hp⟩ := hlast l hlater
          exact ⟨p, t, c, by simp [hm], hp⟩
        · obtain ⟨p, ⟨j, hm⟩, hp⟩ := hex
          obtain hm | hm := List.mem_cons.mp hm
          · obtain rfl : l = l1 := by
              rw [← hm] at hl1'
              exact hp.unique hl1'
            have hkept := hrest.kept l fun q hq hlead => hlater ⟨q, hq, hlead⟩
            refine ⟨target.1, text, b, ?_, hl1', hb, hkept.trans hc⟩
            rw [← hj]
            simp
          · exact absurd ⟨p, ⟨j, hm⟩, hp⟩ hlater

/-! ### Skipped texts -/

/-- Staged texts as a run keeps them. -/
def asTexts (entries : List (Text × Text)) : List (Text × Json) :=
  entries.map fun e => (e.1, .str e.2)

/-- Texts staged under the texts of paths, one for each. -/
structure Keyed (entries : List (Text × Text)) : Prop where
  nodup : (Assoc.keys entries).Nodup
  text : ∀ e ∈ entries, (Path.parse e.1).text = e.1

theorem Keyed.stagedFor (h : Keyed entries) (he : e ∈ entries) :
    stagedFor (asTexts entries) (Path.parse e.1) = .ok (.str e.2) := by
  have hk : (Assoc.keys (asTexts entries)).Nodup := by
    simpa [asTexts, Assoc.keys, Function.comp_def] using h.nodup
  have hm : (e.1, Json.str e.2) ∈ asTexts entries := List.mem_map_of_mem he
  rw [Pipeline.stagedFor, h.text e he, Assoc.get?_of_mem hk hm]

private theorem readText_of_absent (h : fs.isPresent p = .ok false) (text : Text) :
    fs.readText p ≠ .ok text := by
  intro hr
  obtain ⟨b, hb, -⟩ := bind_ok_iff.mp hr
  obtain ⟨e, he, -⟩ := bind_ok_iff.mp hb
  rw [isPresent, he] at h
  cases h

/-- A staged text is skipped if the file has that text, and is to be written otherwise. -/
theorem pendingFor_eq_ok (hk : Keyed entries) (he : e ∈ entries) {o : Option (Path × Json)}
    (h : pendingFor fs (asTexts entries) (Path.parse e.1) = .ok o) :
    o = none ∧ fs.readText (Path.parse e.1) = .ok e.2 ∨
      o = some (Path.parse e.1, .str e.2) ∧ fs.readText (Path.parse e.1) ≠ .ok e.2 := by
  unfold pendingFor at h
  obtain ⟨present, hp, h⟩ := bind_ok_iff.mp h
  cases present with
  | true =>
    obtain ⟨text, ht, h⟩ := bind_ok_iff.mp h
    obtain ⟨code, hc, h⟩ := bind_ok_iff.mp h
    rw [hk.stagedFor he] at hc
    cases hc
    by_cases heq : e.2 = text
    · subst heq
      have hsame : (Json.str e.2).same (.str e.2) = true := by simp [Json.same, Json.sameScalar]
      rw [hsame] at h
      cases h
      exact .inl ⟨rfl, ht⟩
    · have hsame : (Json.str e.2).same (.str text) = false := by
        simp [Json.same, Json.sameScalar, heq]
      rw [hsame] at h
      cases h
      refine .inr ⟨rfl, fun hr => heq ?_⟩
      rw [ht] at hr
      cases hr
      rfl
  | false =>
    obtain ⟨code, hc, h⟩ := bind_ok_iff.mp h
    rw [hk.stagedFor he] at hc
    cases hc
    cases h
    exact .inr ⟨rfl, readText_of_absent hp e.2⟩

/-- The parts of writing staged texts. -/
theorem writeTexts_eq_ok (h : writeTexts project texts w = .ok n w') :
    ∃ pending u, SameSources w u ∧
      (texts.map fun e => Path.parse e.1).mapM (pendingFor w.files texts) = .ok pending ∧
      writeAll project.root (pending.filterMap id) u = .ok () w' := by
  obtain ⟨w0, u, hget, h⟩ := bind_eq_ok.mp h
  cases hget
  obtain ⟨⟨⟩, u, hinside, h⟩ := bind_eq_ok.mp h
  obtain ⟨pending, hpending', h⟩ := lift_bind_eq_ok.mp h
  obtain ⟨⟨⟩, v, hall, h⟩ := bind_eq_ok.mp h
  cases h
  refine ⟨pending, u, ?_, hpending', hall⟩
  exact (Moves.forM (R := SameSources) fun p _ => Moves.lift _).of_ok hinside

theorem pendingFor_eq_some (h : pendingFor fs texts p = .ok (some target)) : target.1 = p := by
  unfold pendingFor at h
  obtain ⟨present, -, h⟩ := bind_ok_iff.mp h
  cases present with
  | true =>
    obtain ⟨text, -, h⟩ := bind_ok_iff.mp h
    obtain ⟨code, -, h⟩ := bind_ok_iff.mp h
    dsimp only [pure, Except.pure] at h
    split at h
    · cases h
    · cases h
      rfl
  | false =>
    obtain ⟨code, -, h⟩ := bind_ok_iff.mp h
    cases h
    rfl

/-- Staged texts are written along a relation if each of them is, through the path for which it was
staged. -/
theorem moves_writeTexts_of [IsPreorder World R]
    (h : ∀ e ∈ texts, ∀ j, Moves R (writeStaged project.root (Path.parse e.1, j))) :
    Moves R (writeTexts project texts) := by
  refine Moves.get.bind fun w => (Moves.forM fun p _ => Moves.lift _).bind fun _ => ?_
  refine (Moves.lift _).bind_from fun u pending u' hlift => ?_
  obtain ⟨hpending, rfl⟩ := lift_eq_ok.mp hlift
  refine ((moves_writeAll_of fun target ht => ?_).bind fun _ => .pure _) u
  obtain ⟨path, j⟩ := target
  have hmem : some (path, j) ∈ pending := by simpa using ht
  obtain ⟨p, hpm, hpend⟩ := exists_of_forall₂_left (forall₂_of_except_mapM hpending).flip hmem
  obtain ⟨e, he, rfl⟩ := List.mem_map.mp hpm
  obtain rfl : path = Path.parse e.1 := pendingFor_eq_some hpend
  exact h e he j

/-- What is written is what is not skipped. -/
theorem mem_pending_iff (hk : Keyed entries) {pending : List (Option (Path × Json))}
    (h : ((asTexts entries).map fun e => Path.parse e.1).mapM (pendingFor fs (asTexts entries)) =
      .ok pending) (target : Path × Json) :
    target ∈ pending.filterMap id ↔ ∃ e ∈ entries, target = (Path.parse e.1, .str e.2) ∧
      fs.readText (Path.parse e.1) ≠ .ok e.2 := by
  have hall := forall₂_of_except_mapM h
  rw [asTexts, List.map_map, List.forall₂_map_left_iff] at hall
  have hmem : target ∈ pending.filterMap id ↔ some target ∈ pending := by simp
  rw [hmem]
  constructor
  · intro ht
    obtain ⟨e, he, hp⟩ := exists_of_forall₂_left hall.flip ht
    obtain ⟨hn, -⟩ | ⟨hs, hne⟩ := pendingFor_eq_ok hk he hp
    · cases hn
    · cases hs
      exact ⟨e, he, rfl, hne⟩
  · rintro ⟨e, he, rfl, hne⟩
    obtain ⟨o, ho, hp⟩ := exists_of_forall₂_left hall he
    obtain ⟨-, heq⟩ | ⟨rfl, -⟩ := pendingFor_eq_ok hk he hp
    · exact absurd heq hne
    · exact ho

/-! ### What is there in the end -/

/-- The files do not have the text that is staged for a path. -/
def Pending (fs : Files) (e : Text × Text) : Prop := fs.readText (Path.parse e.1) ≠ .ok e.2

/-- What writing staged texts does to the files: it touches a file only where a text is pending, and
leaves the text there that was written last. -/
structure TextsWritten (entries : List (Text × Text)) (fs gs : Files) : Prop where
  wellFormed : gs.WellFormed
  grows : fs.Grows gs
  present : ∀ e ∈ entries, ∃ l b, gs.Leads (Path.parse e.1) l ∧ gs.contentAt? l = some b
  last : ∀ l, (∃ e ∈ entries, Pending fs e ∧ gs.Leads (Path.parse e.1) l) →
    ∃ e ∈ entries, ∃ b, gs.Leads (Path.parse e.1) l ∧ Utf8.encode e.2 = .ok b ∧
      gs.contentAt? l = some b
  skipped : ∀ l, (∀ e ∈ entries, gs.Leads (Path.parse e.1) l → ¬ Pending fs e) →
    gs.contentAt? l = fs.contentAt? l

theorem textsWritten_of_writeTexts (hk : Keyed entries) (hw : w.files.WellFormed)
    (h : writeTexts project (asTexts entries) w = .ok n w') :
    TextsWritten entries w.files w'.files := by
  obtain ⟨pending, u, hu, hp, hall⟩ := writeTexts_eq_ok h
  have hfiles : u.files = w.files := congrArg Sources.files hu
  have hmem := mem_pending_iff hk hp
  rw [← hfiles] at hw
  have hwritten : Written (IsTarget (pending.filterMap id)) u.files w'.files :=
    (moves_writeAll project.root fun t ht => ⟨t.2, ht⟩).of_ok hall hw
  obtain ⟨hleads, hlast⟩ := writeAll_eq_ok hw hall
  have htarget {e : Text × Text} (he : e ∈ entries) (hpend : Pending w.files e) :
      (Path.parse e.1, Json.str e.2) ∈ pending.filterMap id := (hmem _).mpr ⟨e, he, rfl, hpend⟩
  rw [hfiles] at hwritten
  rw [hfiles] at hw
  refine ⟨hwritten.wellFormed, hwritten.grows, fun e he => ?_, fun l hl => ?_, fun l hl => ?_⟩
  · by_cases hpend : Pending w.files e
    · obtain ⟨l, hl⟩ := hleads _ (htarget he hpend)
      obtain ⟨-, -, b, -, -, -, hb⟩ := hlast l ⟨_, ⟨_, htarget he hpend⟩, hl⟩
      exact ⟨l, b, hl, hb⟩
    · obtain ⟨l, content, hl, hc⟩ := leads_of_readText hw (not_not.mp hpend)
      obtain ⟨b, hb⟩ := hwritten.grows.file l content (contentAt?_eq_some.mp hc)
      exact ⟨l, b, hwritten.grows.leads hw hl, contentAt?_eq_some.mpr hb⟩
  · obtain ⟨e, he, hpend, hlead⟩ := hl
    obtain ⟨p, text, b, ht, hp, hb, hc⟩ := hlast l ⟨_, ⟨_, htarget he hpend⟩, hlead⟩
    obtain ⟨e', he', heq, -⟩ := (hmem _).mp ht
    cases heq
    exact ⟨e', he', b, hp, hb, hc⟩
  · refine hwritten.kept l ?_
    rintro p ⟨j, hj⟩ hlead
    obtain ⟨e, he, heq, hpend⟩ := (hmem _).mp hj
    cases heq
    exact hl e he hlead hpend

/-- A path is a file whose bytes are exactly those of a text. -/
def Exact (gs : Files) (e : Text × Text) : Prop :=
  ∃ b, Utf8.encode e.2 = .ok b ∧ gs.readBytes (Path.parse e.1) = .ok b

/-- Two texts are staged for paths that lead to one file. -/
def SameFile (gs : Files) (e e' : Text × Text) : Prop :=
  ∃ l, gs.Leads (Path.parse e.1) l ∧ gs.Leads (Path.parse e'.1) l

/-- A staged text has bytes, no other text is staged for its file, and the file had these bytes or
is written to. -/
def Lands (fs gs : Files) (entries : List (Text × Text)) (e : Text × Text) : Prop :=
  ∃ b, Utf8.encode e.2 = .ok b ∧ (∀ e' ∈ entries, SameFile gs e e' → e'.2 = e.2) ∧
    (fs.readBytes (Path.parse e.1) = .ok b ∨ ∃ e' ∈ entries, SameFile gs e e' ∧ Pending fs e')

/-- A text that lands is in its file. -/
theorem TextsWritten.exact (hw : fs.WellFormed) (h : TextsWritten entries fs gs) (he : e ∈ entries)
    (hlands : Lands fs gs entries e) : Exact gs e := by
  obtain ⟨b, hb, hsame, hor⟩ := hlands
  obtain ⟨l, -, hl, -⟩ := h.present e he
  refine ⟨b, hb, (readBytes_eq_ok h.wellFormed).mpr ⟨l, hl, ?_⟩⟩
  by_cases hpend : ∃ e' ∈ entries, Pending fs e' ∧ gs.Leads (Path.parse e'.1) l
  · obtain ⟨e', he', b', hl', hb', hc⟩ := h.last l hpend
    rw [hsame e' he' ⟨l, hl, hl'⟩, hb] at hb'
    cases hb'
    exact hc
  · have hskip := h.skipped l fun e' he' hl' hp => hpend ⟨e', he', hp, hl'⟩
    obtain hold | ⟨e', he', ⟨l', hl', hlead⟩, hnew⟩ := hor
    · obtain ⟨l', hl', hc⟩ := (readBytes_eq_ok hw).mp hold
      rw [hskip, ← (h.grows.leads hw hl').unique hl]
      exact hc
    · rw [hl'.unique hl] at hlead
      exact absurd ⟨e', he', hnew, hlead⟩ hpend

/-- If all texts are in their files, all of them land. -/
theorem TextsWritten.lands (hw : fs.WellFormed) (h : TextsWritten entries fs gs)
    (hall : ∀ e ∈ entries, Exact gs e) (he : e ∈ entries) : Lands fs gs entries e := by
  obtain ⟨b, hb, hread⟩ := hall e he
  obtain ⟨l, hl, hc⟩ := (readBytes_eq_ok h.wellFormed).mp hread
  refine ⟨b, hb, ?_, ?_⟩
  · rintro e' he' ⟨l', hl', hlead⟩
    obtain ⟨b', hb', hread'⟩ := hall e' he'
    obtain ⟨l'', hl'', hc'⟩ := (readBytes_eq_ok h.wellFormed).mp hread'
    rw [hl''.unique hlead, hl'.unique hl, hc] at hc'
    cases hc'
    exact Utf8.encode_injective hb' hb
  · by_cases hpend : ∃ e' ∈ entries, Pending fs e' ∧ gs.Leads (Path.parse e'.1) l
    · obtain ⟨e', he', hp, hlead⟩ := hpend
      exact .inr ⟨e', he', ⟨l, hl, hlead⟩, hp⟩
    · -- The path was skipped, so it led to a file before, and to this one.
      have hskip := h.skipped l fun e' he' hl' hp => hpend ⟨e', he', hp, hl'⟩
      have hread : fs.readText (Path.parse e.1) = .ok e.2 :=
        not_not.mp fun hp => hpend ⟨e, he, hp, hl⟩
      obtain ⟨l', -, hl', -⟩ := leads_of_readText hw hread
      have hsame : l' = l := (h.grows.leads hw hl').unique hl
      subst hsame
      exact .inl ((readBytes_eq_ok hw).mpr ⟨l', hl', hskip.symm.trans hc⟩)

end Pipeline

end RoutePlugins
