import RoutePlugins.Digest.Gate
import RoutePlugins.Proofs.Pipeline.CommitWrites

/-!
# Digest gates

A gate has begun its work once the digest is written. Work that only writes files lets the files
grow, so the digest can then be forgotten: the file at its path is removed, and nothing is found
there any more. A gate that fails before it has begun leaves a digest that was remembered.
-/

namespace RoutePlugins

variable {c : Bytes} {p : Path}

namespace Files

/-! ### Removing a file -/

variable {fs : Files} {links : Nat} {here : Location} {names : List Text} {found : Found}

/-- A walk that stays at a link finds what a walk that follows it finds, or a link that leads
there. -/
theorem Walk.keep_of_follow (h : Walk fs .follow links here names found) :
    ∃ found', Walk fs .keep links here names found' ∧ (found' = found ∨
      ∃ t fewer, found'.2 = some (.link t) ∧ fs.entry? found'.1 = some (.link t) ∧
        Walk fs .follow fewer (targetStart found'.1.dropLast t) (targetNames t) found) := by
  have hs {name : Text} {rest : List Text} (hn : StepsInto .follow name rest) :
      StepsInto .keep name rest := ⟨hn.busy, hn.notUp, by simp, hn.short⟩
  induction h with
  | done links here => exact ⟨_, .done links here, .inl rfl⟩
  | stay hd hn _ ih =>
    obtain ⟨found', hw, h⟩ := ih
    exact ⟨found', .stay hd hn hw, h⟩
  | up hd _ ih =>
    obtain ⟨found', hw, h⟩ := ih
    exact ⟨found', .up hd hw, h⟩
  | enter hd hn he hl _ ih =>
    obtain ⟨found', hw, h⟩ := ih
    exact ⟨found', .enter hd (hs hn) he hl hw, h⟩
  | missing hd hn he => exact ⟨_, .missing hd (hs hn) he, .inl rfl⟩
  | keep _ _ _ hk => cases hk
  | @follow links here name target rest found hd hn he _ hw ih =>
    cases rest with
    | nil =>
      refine ⟨_, .keep hd (hs hn) he rfl, .inr ⟨target, links, rfl, he, ?_⟩⟩
      rw [List.append_nil] at hw
      simpa using hw
    | cons next rest =>
      obtain ⟨found', hw', h⟩ := ih
      exact ⟨found', .follow hd (hs hn) he (by simp) hw', h⟩

/-- No walk goes on beyond a file. -/
theorem Walk.not_beyond_file {ending : Ending} {more : Nat} {rest : List Text} {goal : Found}
    (h : Walk fs .follow links here names goal) (hgoal : goal.2 = some (.file c)) (hr : rest ≠ []) :
    ¬ Walk fs ending more here (names ++ rest) found := by
  intro hw
  obtain ⟨fewer, hrest⟩ := h.after (by simp [hgoal]) hr hw
  obtain ⟨name, rest, rfl⟩ := List.exists_cons_of_ne_nil hr
  have hdir := hrest.directory
  rw [h.entry_eq, hgoal] at hdir
  cases hdir

/-- Once what a walk ends at is removed, the walk finds nothing there. What a walk comes through on
its way is a directory, or a link that leads to one; so none of it is what was removed, if that was
a file or a link to one. -/
theorem Walk.without (hwf : fs.WellFormed) (h : Walk fs .keep links here names found)
    (hhere : fs.entry? here = some .directory) (hdir : fs.entry? found.1 ≠ some .directory)
    (hlink : ∀ t, fs.entry? found.1 = some (.link t) → ∃ fewer goal c,
      Walk fs .follow fewer (targetStart found.1.dropLast t) (targetNames t) goal ∧
        goal.2 = some (.file c)) :
    Walk (fs.without found.1) .follow links here names (found.1, none) := by
  have hs {name : Text} {rest : List Text} (hn : StepsInto .keep name rest) :
      StepsInto .follow name rest := ⟨hn.busy, hn.notUp, by simp, hn.short⟩
  have hne : found.1 ≠ [] := by
    intro hnil
    rw [hnil] at hdir
    exact hdir rfl
  have hentry := @entry_without fs _ hne
  have hnone : entry? (fs.without found.1) found.1 = none := by rw [hentry, if_pos rfl]
  have hkept {l : Location} (hl : fs.entry? l = some .directory) :
      entry? (fs.without found.1) l = some .directory := by
    rw [hentry, if_neg]
    · exact hl
    · rintro rfl
      exact hdir hl
  induction h with
  | done links here => exact absurd hhere hdir
  | stay hd hn _ ih => exact .stay (hkept hd) hn (ih hhere hdir hlink hne hentry hnone hkept)
  | up hd _ ih =>
    exact .up (hkept hd) (ih (hwf.parent _ _ hd) hdir hlink hne hentry hnone hkept)
  | @enter links here name rest found e hd hn he hl hw ih =>
    cases e with
    | directory =>
      exact .enter (hkept hd) (hs hn) (hkept he) (by simp)
        (ih he hdir hlink hne hentry hnone hkept)
    | link t => exact absurd rfl (hl t)
    | file c =>
      -- Nothing is below a file, so the walk ends here.
      cases rest with
      | nil =>
        cases hw
        exact .missing (hkept hd) (hs hn) hnone
      | cons next rest => cases he.symm.trans hw.directory
  | missing hd hn _ => exact .missing (hkept hd) (hs hn) hnone
  | keep hd hn _ _ => exact .missing (hkept hd) (hs hn) hnone
  | @follow links here name target rest found hd hn he hk hw ih =>
    have hrest : rest ≠ [] := fun hr => hk ⟨hr, rfl⟩
    have hon : here ++ [name.asName] ≠ found.1 := by
      intro heq
      obtain ⟨fewer, goal, c, hgoal, hfile⟩ := hlink target (heq ▸ he)
      rw [← heq, List.dropLast_concat] at hgoal
      exact hgoal.not_beyond_file hfile hrest hw
    have hstart : fs.entry? (targetStart here target) = some .directory := by
      unfold targetStart
      split
      · rfl
      · exact hd
    refine .follow (hkept hd) (hs hn) ?_ (by simp)
      (ih hstart hdir hlink hne hentry hnone hkept)
    rw [hentry, if_neg hon]
    exact he

/-- A path that leads to a file can be removed, and then nothing is present there. -/
theorem removeFile_of_file (hwf : fs.WellFormed) {l : Location}
    (h : fs.locate .follow p = .ok (l, some (.file c))) :
    ∃ gs, fs.removeFile p = .ok gs ∧ gs.isPresent p = .ok false := by
  obtain ⟨hcheck, hwalk⟩ := locate_eq_ok.mp h
  obtain ⟨⟨l', o⟩, hkeep, hcase⟩ := hwalk.keep_of_follow
  have hlocate := locate_eq_ok.mpr ⟨hcheck, hkeep⟩
  have hentry : fs.entry? l' = o := (foundAt_of_locate hwf hlocate).entry
  have hwithout : Walk (fs.without l') .follow maxLinks (fs.startOf p) p.names (l', none) := by
    refine hkeep.without hwf (hwf.start p) ?_ fun t ht => ?_
    · change fs.entry? l' ≠ _
      rw [hentry]
      rcases hcase with heq | ⟨t, -, ho, -⟩
      · cases heq
        simp
      · rw [show o = some (.link t) from ho]
        simp
    · rcases hcase with heq | ⟨t', fewer, -, ht', hw⟩
      · cases heq
        cases hentry.symm.trans ht
      · cases ht'.symm.trans ht
        exact ⟨fewer, _, c, hw, rfl⟩
  refine ⟨fs.without l', ?_, ?_⟩
  · unfold removeFile
    rw [hlocate]
    rcases hcase with heq | ⟨t, -, ho, -⟩
    · cases heq
      rfl
    · cases ho
      rfl
  · unfold isPresent stat
    rw [locate_eq_ok.mpr ⟨hcheck, hwithout⟩]
    rfl

/-! ### Writing that fails -/

/-- A text that has bytes and cannot be written leaves every file as it is. -/
theorem writes_of_writeText_error {gs : Files} {root : Path} {text : Text} {b : Bytes} {e : Fault}
    (hb : Utf8.encode text = .ok b) (h : writeText root p text fs = .error e gs) :
    Writes (fun _ => False) fs gs := by
  unfold writeText at h
  rw [bind_of_ok (show (get : EStateM Fault Files Files) fs = .ok fs fs from rfl)] at h
  cases hin : fs.ensureInside root p with
  | error e' =>
    rw [hin] at h
    cases h
    exact refl_of (Writes fun _ => False) fs
  | ok u =>
    rw [hin, bind_of_ok (lift_ok u fs)] at h
    cases hdirs : ensureDirectories p.parent fs with
    | error e' ks =>
      rw [bind_of_error hdirs] at h
      cases h
      exact (moves_ensureDirectories (fun _ => False) p.parent).of_error hdirs
    | ok u ks =>
      rw [bind_of_ok hdirs, writeEncoded, hb] at h
      have hks := (moves_ensureDirectories (fun _ => False) p.parent).of_ok hdirs
      change (lift (ks.writeBytes p b) >>= fun gs => set gs : EStateM Fault Files PUnit) ks = _ at h
      cases hwrite : ks.writeBytes p b with
      | ok ls =>
        rw [hwrite] at h
        cases h
      | error e' =>
        rw [hwrite] at h
        cases h
        exact hks

end Files

namespace Gate

open World Files

variable {α : Type} {project : Project} {key : Text} {work : Run α} {dir : Option Path}
  {w w' w1 : World}

/-- A gate finds a directory changed and writes its digest, so that the work is to be done from
`w1`. -/
def Begins (project : Project) (key : Text) (dir : Option Path) (w w1 : World) : Prop :=
  ∃ current last p, Digest.ofDirectory Sha256.hexText w.files project dir = .ok current ∧
    lastDigest w.files project key = .ok last ∧ last ≠ some (current : Text) ∧
    digestPath project key = .ok p ∧
    Run.changeFiles (Files.writeText project.root p current) w = .ok () w1

theorem Begins.unique {w2 : World} (h : Begins project key dir w w1)
    (h' : Begins project key dir w w2) : w1 = w2 := by
  obtain ⟨current, last, p, hc, -, -, hp, hwrite⟩ := h
  obtain ⟨current', last', p', hc', -, -, hp', hwrite'⟩ := h'
  cases hc.symm.trans hc'
  cases hp.symm.trans hp'
  cases hwrite.symm.trans hwrite'
  rfl

theorem Begins.parser (h : Begins project key dir w w1) : w1.parser = w.parser := by
  obtain ⟨current, -, p, -, -, -, -, hwrite⟩ := h
  unfold Run.changeFiles at hwrite
  split at hwrite
  · cases hwrite
    rfl
  · cases hwrite

/-- A gate that has begun does the work. -/
theorem runIfChanged_of_begins (h : Begins project key dir w w1) :
    runIfChanged project key work dir w = (do return some (← guarded project key work)) w1 := by
  obtain ⟨current, last, p, hcurrent, hlast, hne, hp, hwrite⟩ := h
  unfold runIfChanged
  rw [bind_of_ok (Run.onFiles_of_ok hcurrent), bind_of_ok (Run.onFiles_of_ok hlast),
    if_neg (by simpa using hne), hp]
  exact bind_of_ok hwrite

variable (work) in
/-- A gate that does not begin skips its work, because the digest is the one that is remembered, or
fails, and then leaves every file as it is. -/
theorem runIfChanged_of_not_begins (h : ¬ ∃ w1, Begins project key dir w w1) :
    (∃ current, Digest.ofDirectory Sha256.hexText w.files project dir = .ok current ∧
      lastDigest w.files project key = .ok (some (current : Text)) ∧
      runIfChanged project key work dir w = .ok none w) ∨
    ∃ e w', runIfChanged project key work dir w = .error e w' ∧
      Writes (fun _ => False) w.files w'.files := by
  have hrefl := refl_of (Writes fun _ => False) w.files
  unfold runIfChanged
  cases hcurrent : Digest.ofDirectory Sha256.hexText w.files project dir with
  | error e =>
    rw [bind_of_error (Run.onFiles_of_error hcurrent)]
    exact .inr ⟨e, w, rfl, hrefl⟩
  | ok current =>
    rw [bind_of_ok (Run.onFiles_of_ok hcurrent)]
    cases hlast : lastDigest w.files project key with
    | error e =>
      rw [bind_of_error (Run.onFiles_of_error hlast)]
      exact .inr ⟨e, w, rfl, hrefl⟩
    | ok last =>
      rw [bind_of_ok (Run.onFiles_of_ok hlast)]
      by_cases hsame : last = some (current : Text)
      · rw [if_pos (by simpa using hsame), hsame]
        exact .inl ⟨current, rfl, rfl, rfl⟩
      · rw [if_neg (by simpa using hsame)]
        cases hp : digestPath project key with
        | error e => exact .inr ⟨e, w, rfl, hrefl⟩
        | ok p =>
          rw [bind_of_ok (Run.lift_ok p w)]
          cases hwrite : Run.changeFiles (Files.writeText project.root p current) w with
          | ok u w1 => exact absurd ⟨w1, current, last, p, hcurrent, hlast, hsame, hp, hwrite⟩ h
          | error e w1 =>
            refine .inr ⟨e, w1, bind_of_error hwrite, ?_⟩
            exact writes_of_writeText_error (Utf8.encode_ofChars _)
              (Run.changeFiles_eq_error hwrite)

/-- A gate skips its work only if the digest is the one that is remembered. -/
theorem runIfChanged_eq_none (h : runIfChanged project key work dir w = .ok none w') :
    ∃ current, Digest.ofDirectory Sha256.hexText w.files project dir = .ok current ∧
      lastDigest w.files project key = .ok (some (current : Text)) ∧ w' = w := by
  by_cases hb : ∃ w1, Begins project key dir w w1
  · obtain ⟨w1, hb⟩ := hb
    rw [runIfChanged_of_begins hb] at h
    obtain ⟨a, u, -, h⟩ := bind_eq_ok.mp h
    cases h
  · obtain ⟨current, hcurrent, hlast, hnone⟩ | ⟨e, u, herror, -⟩ :=
      runIfChanged_of_not_begins work hb
    · cases hnone.symm.trans h
      exact ⟨current, hcurrent, hlast, rfl⟩
    · cases herror.symm.trans h

/-- A gate that gives a result has begun, and the work has given that result. -/
theorem runIfChanged_eq_some {a : α} (h : runIfChanged project key work dir w = .ok (some a) w') :
    ∃ w1, Begins project key dir w w1 ∧ work w1 = .ok a w' := by
  by_cases hb : ∃ w1, Begins project key dir w w1
  · obtain ⟨w1, hb⟩ := hb
    rw [runIfChanged_of_begins hb] at h
    obtain ⟨b, u, hwork, h⟩ := bind_eq_ok.mp h
    cases h
    refine ⟨w1, hb, ?_⟩
    unfold guarded at hwork
    split at hwork
    · next hok =>
      cases hwork
      exact hok
    · split at hwork
      · cases hwork
      · split at hwork
        · cases hwork
        · cases hwork
  · obtain ⟨current, -, -, hnone⟩ | ⟨e, u, herror, -⟩ := runIfChanged_of_not_begins work hb
    · cases hnone.symm.trans h
    · cases herror.symm.trans h

/-- While no file changes, a digest that is remembered stays remembered. -/
theorem lastDigest_of_written {fs gs : Files} (hw : fs.WellFormed)
    (h : Written (fun _ => False) fs gs) {d : Text}
    (hlast : lastDigest fs project key = .ok (some d)) :
    lastDigest gs project key = .ok (some d) := by
  obtain ⟨p, hp, hlast⟩ := bind_ok_iff.mp hlast
  obtain ⟨present, hpresent, hlast⟩ := bind_ok_iff.mp hlast
  cases present with
  | false => cases hlast
  | true =>
    obtain ⟨text, htext, hlast⟩ := bind_ok_iff.mp hlast
    obtain ⟨b, hb, hdecoded⟩ := bind_ok_iff.mp htext
    obtain ⟨l, hl, hc⟩ := (readBytes_eq_ok hw).mp hb
    have hlead := h.grows.leads hw hl
    have hb' : gs.readBytes p = .ok b :=
      (readBytes_eq_ok h.wellFormed).mpr ⟨l, hlead, (h.kept l fun _ hf => hf.elim).trans hc⟩
    have hpresent' : gs.isPresent p = .ok true := by
      obtain ⟨e, he⟩ := hlead
      rw [isPresent, stat, he]
      rfl
    rw [lastDigest, hp]
    change (gs.isPresent p >>= _) = _
    rw [hpresent']
    change ((gs.readBytes p >>= textOf) >>= _) = _
    rw [hb', show (Except.ok b >>= textOf : Except Fault Text) = .ok text from hdecoded]
    exact hlast

/-- The digest is in its file when the work is begun. -/
theorem Begins.written (h : Begins project key dir w w1) (hw : w.files.WellFormed) :
    ∃ p l c, digestPath project key = .ok p ∧ w1.files.WellFormed ∧
      w1.files.locate .follow p = .ok (l, some (.file c)) := by
  obtain ⟨current, last, p, -, -, -, hp, hwrite⟩ := h
  have hwrite := Run.changeFiles_eq_ok hwrite
  obtain ⟨l, b, -, ⟨e, hl⟩, hc⟩ := writeText_eq_ok hw hwrite
  have hwf := ((moves_writeText (P := fun q => q = p) _ rfl _).of_ok hwrite hw).wellFormed
  have hentry := (foundAt_of_locate hwf hl).entry
  rw [contentAt?_eq_some.mp hc] at hentry
  cases hentry
  exact ⟨p, l, b, hp, hwf, hl⟩

/-- Work that has written files and failed leaves the digest to be forgotten. -/
theorem forget_of_grows {l : Location} (hp : digestPath project key = .ok p)
    (hl : w1.files.locate .follow p = .ok (l, some (.file c))) (hw : w1.files.WellFormed)
    (h : Written (fun _ => True) w1.files w.files) :
    ∃ w', forget project key w = .ok () w' ∧ lastDigest w'.files project key = .ok none := by
  obtain ⟨c', hc'⟩ := h.grows.file l c (foundAt_of_locate hw hl).entry
  have hl' := h.grows.locate hl
  rw [hc'] at hl'
  obtain ⟨gs, hgs, habsent⟩ := removeFile_of_file h.wellFormed hl'
  have hpresent : w.files.isPresent p = .ok true := by
    rw [isPresent, stat, hl']
    rfl
  refine ⟨{ w with files := gs }, ?_, ?_⟩
  · unfold forget
    rw [hp, bind_of_ok (Run.lift_ok p w), bind_of_ok (Run.onFiles_of_ok hpresent), if_pos rfl]
    exact Run.changeFiles_of_ok (change_of_ok hgs)
  · rw [lastDigest, hp]
    change (gs.isPresent p >>= _) = _
    rw [habsent]
    rfl

/-- How a gate fails: after it has begun, with the fault of its work and no digest remembered, or
before, and then every file is as it was. -/
theorem runIfChanged_eq_error {e : Fault} (hw : w.files.WellFormed)
    (hwork : Moves (OnFiles (Writes fun _ => True)) work) (he : e.isInterruption = false)
    (h : runIfChanged project key work dir w = .error e w') :
    (∃ w1 w2, Begins project key dir w w1 ∧ work w1 = .error e w2 ∧
      lastDigest w'.files project key = .ok none) ∨
    (¬ ∃ w1, Begins project key dir w w1) ∧ Written (fun _ => False) w.files w'.files := by
  by_cases hb : ∃ w1, Begins project key dir w w1
  · obtain ⟨w1, hb⟩ := hb
    rw [runIfChanged_of_begins hb] at h
    obtain ⟨p, l, c, hp, hwf, hl⟩ := hb.written hw
    have hguarded : guarded project key work w1 = .error e w' :=
      (bind_eq_error.mp h).resolve_right fun ⟨_, _, _, h⟩ => by cases h
    unfold guarded at hguarded
    cases hrun : work w1 with
    | ok a u =>
      rw [hrun] at hguarded
      cases hguarded
    | error e' w2 =>
      rw [hrun] at hguarded
      dsimp only at hguarded
      split at hguarded
      · next hint =>
        cases hguarded
        rw [hint] at he
        cases he
      · obtain ⟨w3, hforget, hlast⟩ := forget_of_grows hp hl hwf (hwork.of_error hrun hwf)
        rw [hforget] at hguarded
        cases hguarded
        exact .inl ⟨w1, w2, hb, hrun, hlast⟩
  · refine .inr ⟨hb, ?_⟩
    obtain ⟨current, -, -, hnone⟩ | ⟨e', u, herror, hwrites⟩ :=
      runIfChanged_of_not_begins work hb
    · cases hnone.symm.trans h
    · cases herror.symm.trans h
      exact hwrites hw

end Gate

end RoutePlugins
