import RoutePlugins.Pipeline.CompileHook
import RoutePlugins.Proofs.Digest.Gate
import RoutePlugins.Proofs.Files.Confined
import RoutePlugins.Proofs.Pipeline.AbortSafety
import RoutePlugins.Proofs.Pipeline.StagedTexts

/-!
# Writing stays inside

Whatever runs, hooks, gates and single writes do, in whatever order, a file that is new or has
changed is below the root, whatever plugins stage and however links lead, as long as the links on
the way to what is written are in sight.
-/

namespace RoutePlugins

open Files World

variable {project : Project} {key : Text} {w : World}

/-! ### Plain paths -/

section

variable {root : Location}

theorem isPlain_absolute (hn : OwnNames root) : (absolute root).IsPlain := fun n hm =>
  ⟨(hn n hm).nonempty, (hn n hm).notDot, (hn n hm).noSlash⟩

theorem isPlain_joinText {p : Path} (hp : p.IsPlain) (t : Text) : (p.joinText t).IsPlain :=
  hp.join (Path.isPlain_parse t)

theorem isPlain_dataDir (hn : OwnNames root) (hroot : project.root = absolute root) :
    project.dataDir.IsPlain := by
  rw [Project.dataDir, hroot]
  exact (isPlain_absolute hn).child ⟨by decide, by decide, by decide⟩

theorem isPlain_artifact (hn : OwnNames root) (hroot : project.root = absolute root) (name : Text)
    {artifact : Text} (ha : artifact ∈ Pipeline.artifactNames) :
    ((project.pluginDir name).child artifact).IsPlain := by
  have hplain : ∀ a ∈ Pipeline.artifactNames, PlainName a := by
    have hall : Pipeline.artifactNames.all (fun a => !a.isEmpty && a != "." && !a.contains '/') =
        true := by decide
    intro a hm
    have h := List.all_eq_true.mp hall a hm
    simp only [Bool.and_eq_true, Bool.not_eq_true', bne_iff_ne] at h
    exact ⟨h.1.1, h.1.2, h.2⟩
  exact (isPlain_joinText (isPlain_dataDir hn hroot) name).child (hplain artifact ha)

theorem isPlain_digestPath (hn : OwnNames root) (hroot : project.root = absolute root) {p : Path}
    (h : Gate.digestPath project key = .ok p) : p.IsPlain := by
  unfold Gate.digestPath at h
  split at h
  · cases h
  · cases h
    exact isPlain_joinText ((isPlain_dataDir hn hroot).child ⟨by decide, by decide, by decide⟩) _

end

/-! ### Runs -/

namespace Pipeline

/-- The paths that a run may write to: the artifacts of its plugins, and what its sessions have
staged. -/
def Setup.MayWrite (r : Setup) (w : World) (p : Path) : Prop :=
  IsArtifact r.project r.names p ∨
    ∃ sessions w1, r.sessions w = .ok sessions w1 ∧ ∃ s ∈ sessions, ∃ entries,
      s.stagedTexts = .ok entries ∧ ∃ e ∈ entries, p = Path.parse e.1

/-- What is merged was staged by a session. -/
theorem mem_of_mergeStaged {sessions : List PluginSession} {m m' : Merged} {w' : World}
    (h : mergeStaged project sessions m w = .ok m' w') {e : Text × Json} (he : e ∈ m'.texts) :
    e ∈ m.texts ∨ ∃ s ∈ sessions, ∃ entries, s.stagedTexts = .ok entries ∧ e ∈ entries := by
  induction sessions generalizing m w with
  | nil =>
    cases h
    exact .inl he
  | cons s rest ih =>
    obtain ⟨entries, hentries, h1⟩ := lift_bind_eq_ok.mp h
    obtain ⟨m1, v, hm, hrest⟩ := bind_eq_ok.mp h1
    obtain hmem | ⟨t, ht, hstaged⟩ := ih hrest
    · rw [mergeEntries_eq_ok hm] at hmem
      obtain hnew | hold := Assoc.mem_update hmem
      · exact .inr ⟨s, by simp, entries, hentries, hnew⟩
      · exact .inl hold
    · exact .inr ⟨t, by simp [ht], hstaged⟩

section

variable {root : Location} {P : Path → Prop} (hn : OwnNames root)

include hn

theorem moves_writeTexts_confined (hroot : project.root = absolute root)
    {texts : List (Text × Json)} (hP : ∀ e ∈ texts, P (Path.parse e.1)) :
    Moves (OnFiles (Confines root P)) (writeTexts project texts) := by
  refine moves_writeTexts_of fun e he j => ?_
  rw [hroot]
  exact moves_writeStaged_of (moves_writeText_confined hn (Path.isPlain_parse e.1) (hP e he))
    (moves_ensureDirectories_confined _)

/-- A commit is confined if the artifacts and what the sessions have staged are in sight. -/
theorem moves_commit_confined (hroot : project.root = absolute root) (writesFiles : Bool)
    {sessions : List PluginSession}
    (hart : ∀ p, IsArtifact project (sessions.map (·.plugin.name)) p → P p)
    (hstaged : ∀ s ∈ sessions, ∀ entries, s.stagedTexts = .ok entries →
      ∀ e ∈ entries, P (Path.parse e.1)) :
    Moves (OnFiles (Confines root P)) (commit project writesFiles sessions) := by
  have hsame : ∀ w w', SameSources w w' → OnFiles (Confines root P) w w' :=
    fun _ _ h => OnFiles.of_sameSources h
  have hhistory : ∀ w history, OnFiles (Confines root P) w { w with history } :=
    fun w _ => refl_of (Confines root P) w.files
  have hput : ∀ s ∈ sessions, ∀ artifact ∈ artifactNames, ∀ v,
      Moves (OnFiles (Confines root P)) (Run.changeFiles (Files.writeValue project.root
        ((project.pluginDir s.plugin.name).child artifact) v)) := by
    intro s hs artifact ha v
    have hP := hart _ ⟨s.plugin.name, List.mem_map_of_mem hs, artifact, ha, rfl⟩
    have hplain := isPlain_artifact hn hroot s.plugin.name ha
    rw [hroot]
    exact Run.moves_changeFiles (moves_writeValue_confined hn hplain hP v)
  refine (moves_settleAll_of hsame hput).bind_from fun w settled u hsettle => ?_
  obtain ⟨result, failed⟩ := settled
  obtain ⟨merged, v, hmerge, -, htexts, -⟩ := settleAll_eq_ok hsettle
  refine moves_endingStores hhistory sessions (Moves.ite ?_ ?_) u
  · refine moves_conclude_of hsame
      (fun _ => moves_writeTexts_confined hn hroot fun e he => ?_) sessions
    rw [htexts] at he
    obtain hnil | ⟨s, hs, entries, hentries, hmem⟩ := mem_of_mergeStaged hmerge he
    · cases hnil
    · exact hstaged s (List.mem_of_mem_filter hs) entries hentries e hmem
  · exact (moves_showAbort _ _ _).onFiles

/-- A run is confined if what it may write is in sight. -/
theorem confines_run {r : Setup} (hroot : r.project.root = absolute root)
    (hP : ∀ p, r.MayWrite w p → P p) : OnFiles (Confines root P) w (endState (r.run w)) := by
  have hsessions : Moves (OnFiles (Confines root P)) r.sessions := (moves_sessions r).onFiles
  refine hsessions.bind_at fun sessions w1 hs => ?_
  have hnames : sessions.map (·.plugin.name) = r.names := by
    rw [Setup.names, ← plugins_of_sessions hs, List.map_map]
    rfl
  refine moves_commit_confined hn hroot r.writesFiles ?_ ?_ w1
  · intro p hp
    rw [hnames] at hp
    exact hP p (.inl hp)
  · exact fun s hm entries hentries e he =>
      hP _ (.inr ⟨sessions, w1, hs, s, hm, entries, hentries, e, he, rfl⟩)

end

/-- Where one of the staged texts is for a path that is not inside, none is written. -/
theorem writeTexts_of_not_inside {texts : List (Text × Json)} {e : Text × Json} (he : e ∈ texts)
    (h : w.files.isInside project.root (Path.parse e.1) ≠ .ok true) :
    ∃ fault, writeTexts project texts w = .error fault w := by
  have hall : ∀ targets : List Path, Path.parse e.1 ∈ targets →
      ∃ fault, (targets.forM fun p => Run.lift (w.files.ensureInside project.root p)) w =
        .error fault w := by
    intro targets hm
    induction targets with
    | nil => cases hm
    | cons p rest ih =>
      change ∃ fault, (Run.lift (w.files.ensureInside project.root p) >>= fun _ =>
        rest.forM fun p => Run.lift (w.files.ensureInside project.root p)) w = .error fault w
      by_cases hin : w.files.isInside project.root p = .ok true
      · rw [ensureInside_of_inside hin, bind_of_ok (Run.lift_ok () w)]
        refine ih ((List.mem_cons.mp hm).resolve_left ?_)
        rintro rfl
        exact h hin
      · obtain ⟨fault, hf⟩ := ensureInside_of_not_inside hin
        rw [hf]
        exact ⟨fault, rfl⟩
  obtain ⟨fault, hf⟩ := hall (texts.map fun e => Path.parse e.1) (List.mem_map_of_mem he)
  refine ⟨fault, ?_⟩
  rw [writeTexts, bind_of_ok (show (get : Run World) w = .ok w w from rfl)]
  exact bind_of_error hf

end Pipeline

/-! ### Gates and hooks -/

namespace Gate

section

variable {root : Location} {P : Path → Prop}

theorem moves_forget_confined (project : Project) (key : Text) :
    Moves (OnFiles (Confines root P)) (forget project key) := by
  have hremove (p : Path) : Moves (OnFiles (Confines root P))
      (Run.changeFiles (Files.change (·.removeFile p))) :=
    Run.moves_changeFiles (moves_change fun _ _ h => confines_of_removeFile h)
  refine (Moves.lift _).bind fun p => (Moves.get.bind fun _ => .lift _).bind fun present => ?_
  cases present with
  | true => exact hremove p
  | false => exact .pure _

theorem confines_guarded {α : Type} {work : Run α}
    (hwork : OnFiles (Confines root P) w (endState (work w))) :
    OnFiles (Confines root P) w (endState (guarded project key work w)) := by
  unfold guarded
  cases h : work w with
  | ok a u =>
    rw [h] at hwork
    exact hwork
  | error e u =>
    rw [h] at hwork
    dsimp only
    split
    · exact hwork
    · have hforget : OnFiles (Confines root P) u (endState (forget project key u)) :=
        moves_forget_confined project key u
      split
      · next hf =>
        rw [hf] at hforget
        exact trans_of _ hwork hforget
      · next hf =>
        rw [hf] at hforget
        exact trans_of _ hwork hforget

/-- A gated run is confined if the digest is in sight and the work, where it is done, is
confined. -/
theorem confines_runIfChanged (hn : OwnNames root) {α : Type}
    (hroot : project.root = absolute root) {work : Run α} {dir : Option Path}
    (hP : ∀ p, digestPath project key = .ok p → P p) (hwork : ∀ w1, Begins project key dir w w1 →
      OnFiles (Confines root P) w1 (endState (work w1))) :
    OnFiles (Confines root P) w (endState (runIfChanged project key work dir w)) := by
  by_cases hb : ∃ w1, Begins project key dir w w1
  · obtain ⟨w1, hb⟩ := hb
    have hguarded : OnFiles (Confines root P) w1 (endState (guarded project key work w1)) :=
      confines_guarded (hwork w1 hb)
    rw [runIfChanged_of_begins hb]
    obtain ⟨current, last, p, -, -, -, hp, hwrite⟩ := hb
    have hdigest : OnFiles (Confines root P) w w1 := by
      rw [hroot] at hwrite
      exact (Run.moves_changeFiles (moves_writeText_confined hn (isPlain_digestPath hn hroot hp)
        (hP p hp) _)).of_ok hwrite
    refine trans_of _ hdigest ?_
    rwa [endState_bind fun _ _ => rfl]
  · obtain ⟨current, -, -, hnone⟩ | ⟨e, u, herror, hwrites⟩ := runIfChanged_of_not_begins work hb
    · rw [hnone]
      exact refl_of (OnFiles (Confines root P)) w
    · rw [herror]
      exact confines_of_writes hwrites

end

end Gate

namespace CompileHook

/-- The files after a hook has run are those after its gated run, or those before it. -/
theorem files_of_run (h : CompileHook) (w : World) :
    (endState (run (w, h))).1.files = w.files ∨
      (endState (run (w, h))).1.files =
        (endState
          (Gate.runIfChanged h.setup.project pluginsDigestKey h.setup.run none w)).files := by
  unfold run
  dsimp only
  split
  · exact .inl rfl
  · right
    split
    · next hgate =>
      rw [hgate]
      rfl
    · next hgate =>
      rw [hgate]
      rfl
    · next w1 hgate =>
      rw [hgate]
      split
      · next hdone => cases hdone
      · next hdone =>
        cases hdone
        split
        · rfl
        · split
          · rfl
          · rfl

end CompileHook

/-! ### Whatever is done -/

/-- What is done to a project: a run, a hook that is called, work behind a gate, and the write of a
document. -/
inductive Act where
  | run (setup : Pipeline.Setup)
  | hook (hook : CompileHook)
  | gated (project : Project) (key : Text) (dir : Option Path) (work : Act)
  | write (root : Path) (file : Text) (v : Value)

namespace Act

/-- Do it. -/
def perform : Act → Run Unit
  | .run setup => do let _ ← setup.run
  | .hook h => fun w =>
    match CompileHook.run (w, h) with
    | .ok _ s => .ok () s.1
    | .error e s => .error e s.1
  | .gated project key dir work => do let _ ← Gate.runIfChanged project key work.perform dir
  | .write root file v => Run.changeFiles (writeValue root (Path.parse file) v)

/-- Everything is done to the project with this root. -/
def On (root : Path) : Act → Prop
  | .run setup => setup.project.root = root
  | .hook h => h.setup.project.root = root
  | .gated project _ _ work => project.root = root ∧ work.On root
  | .write root' _ _ => root' = root

/-- The paths that may be written to, from a state on. -/
def MayWrite : Act → World → Path → Prop
  | .run setup, w, p => setup.MayWrite w p
  | .hook h, w, p => Gate.digestPath h.setup.project pluginsDigestKey = .ok p ∨
      ∃ w1, Gate.Begins h.setup.project pluginsDigestKey none w w1 ∧ h.setup.MayWrite w1 p
  | .gated project key dir work, w, p => Gate.digestPath project key = .ok p ∨
      ∃ w1, Gate.Begins project key dir w w1 ∧ work.MayWrite w1 p
  | .write _ file _, _, p => p = Path.parse file

/-- The state after some acts, each done whether the ones before failed or not. -/
def performAll (acts : List Act) (w : World) : World :=
  acts.foldl (fun w act => endState (act.perform w)) w

section

variable {root : Location} {P : Path → Prop} (hn : OwnNames root)

include hn

/-- One act is confined if what it may write is in sight. -/
theorem confines_perform (act : Act) (hon : act.On (absolute root))
    (hP : ∀ p, act.MayWrite w p → P p) :
    OnFiles (Confines root P) w (endState (act.perform w)) := by
  induction act generalizing w with
  | run setup =>
    rw [perform, endState_bind fun _ _ => rfl]
    exact Pipeline.confines_run hn hon hP
  | hook h =>
    have hend : endState ((Act.hook h).perform w) = (endState (CompileHook.run (w, h))).1 := by
      rw [perform]
      dsimp only
      cases CompileHook.run (w, h) with
      | ok a s => rfl
      | error e s => rfl
    have hgate : OnFiles (Confines root P) w (endState
        (Gate.runIfChanged h.setup.project pluginsDigestKey h.setup.run none w)) :=
      Gate.confines_runIfChanged hn hon (fun p hp => hP p (.inl hp)) fun w1 hb =>
        Pipeline.confines_run hn hon fun p hp => hP p (.inr ⟨w1, hb, hp⟩)
    rw [hend]
    change Confines root P w.files _
    obtain hsame | hsame := CompileHook.files_of_run h w
    · rw [hsame]
      exact refl_of (Confines root P) w.files
    · rw [hsame]
      exact hgate
  | gated project key dir work ih =>
    rw [perform, endState_bind fun _ _ => rfl]
    exact Gate.confines_runIfChanged hn hon.1 (fun p hp => hP p (.inl hp)) fun w1 hb =>
      ih hon.2 fun p hp => hP p (.inr ⟨w1, hb, hp⟩)
  | write root' file v =>
    obtain rfl : root' = absolute root := hon
    exact Run.moves_changeFiles
      (moves_writeValue_confined hn (Path.isPlain_parse file) (hP _ rfl) v) w

/-- Acts are confined, one after the other, if what each of them may write is in sight. -/
theorem confines_performAll (acts : List Act) (hon : ∀ act ∈ acts, act.On (absolute root))
    (hP : ∀ front act rest, acts = front ++ act :: rest →
      ∀ p, act.MayWrite (performAll front w) p → P p) :
    OnFiles (Confines root P) w (performAll acts w) := by
  induction acts generalizing w with
  | nil => exact refl_of (Confines root P) w.files
  | cons act rest ih =>
    refine trans_of _ (confines_perform hn act (hon act (by simp)) (hP [] act rest rfl)) ?_
    refine ih (fun a ha => hon a (by simp [ha])) fun front a others heq => ?_
    refine hP (act :: front) a others ?_
    rw [heq]
    rfl

end

/-- Whatever is done to a project, in whatever order and whatever fails of it, a file that is new or
has changed is below the root of the project, if the links on the way to what is written are in
sight. A path that leads to a place outside is then not found inside. A write that is not found
inside fails and changes nothing, and so does writing staged texts if one of them is not. -/
theorem containment (root : Location) (acts : List Act) (w : World) (hn : OwnNames root)
    (hw : w.files.Houses root) (hon : ∀ act ∈ acts, act.On (absolute root))
    (hsight : ∀ front act rest, acts = front ++ act :: rest →
      ∀ p, act.MayWrite (performAll front w) p → w.files.InSight p) :
    (∀ l b, (performAll acts w).files.contentAt? l = some b →
      w.files.contentAt? l = some b ∨ root <+: l) ∧
    (∀ (fs : Files) (p : Path) l o, fs.Houses root → p.IsPlain → fs.InSight p →
      fs.locate .create p = .ok (l, o) → ¬ root <+: l →
      fs.isInside (absolute root) p ≠ .ok true) ∧
    (∀ (fs : Files) p, fs.isInside (absolute root) p ≠ .ok true →
      (∀ text, ∃ e, writeText (absolute root) p text fs = .error e fs) ∧
      ∀ v, ∃ e, writeValue (absolute root) p v fs = .error e fs) ∧
    ∀ project texts u, project.root = absolute root → (∃ e ∈ texts,
        u.files.isInside (absolute root) (Path.parse e.1) ≠ .ok true) →
      ∃ e, Pipeline.writeTexts project texts u = .error e u := by
  refine ⟨?_, ?_, ?_, ?_⟩
  · exact (confines_performAll hn acts hon hsight hw fun p hp => hp).content
  · intro fs p l o hh hp hs hl hout hin
    exact hout (below_of_isInside hh hn hp hs hin (.refl fs) hl)
  · intro fs p hin
    exact ⟨writeText_of_not_inside hin, writeValue_of_not_inside hin⟩
  · rintro project texts u hroot ⟨e, he, hin⟩
    rw [← hroot] at hin
    exact Pipeline.writeTexts_of_not_inside he hin

/-! ### Links that lead out -/

namespace Sample

open Pipeline.Sample

/-- A link to a directory inside, and one that leads out. -/
def twoLinks : List (Location × Entry) :=
  [(["outside"], .directory), (["proj", "sub"], .directory), (["proj", "in"], .link "sub"),
    (["proj", "out"], .link "/outside")]

/-- A plugin that puts a text for a file outside among the staged ones. -/
def escaping : Plugin :=
  ⟨"a", .map [], none, none, none,
    some (.ask (.store (.set stagedPath.toValue (.map [(.str "/proj/out/z.ts", .str "x")])))
      fun _ => .done .null)⟩

/-- Two documents are written through the links, and the plugin is run. -/
def threeActs : List Act :=
  [.write (absolute ["proj"]) "/proj/in/x.json" (.int 1),
    .write (absolute ["proj"]) "/proj/out/y.json" (.int 2), .run (setupOf [escaping])]

def projectRoot : Location := ["proj"]

/-- Whether some sessions have staged texts for paths from the root only. -/
def stagesFromRoot (sessions : List PluginSession) : Bool :=
  sessions.all fun s => (s.stagedTexts.toOption.getD []).all fun e => (Path.parse e.1).isAbsolute

end Sample

open Sample Pipeline.Sample

/-- One document is written, inside; the other and the staged text are not. -/
theorem containment_two_links :
    (performAll threeActs (worldWith twoLinks)).files.contentAt? ["proj", "sub", "x.json"] =
        some [49] ∧
      (∃ e u, (Act.run (setupOf [escaping])).perform
        (performAll (threeActs.take 2) (worldWith twoLinks)) = .error e u) ∧
      ∀ l b, (performAll threeActs (worldWith twoLinks)).files.contentAt? l = some b →
        (filesWith twoLinks).contentAt? l = some b ∨ projectRoot <+: l := by
  have hn : OwnNames projectRoot := by
    intro n hm
    rw [List.mem_singleton.mp hm]
    decide +kernel
  have hhigh : ∀ e ∈ (filesWith twoLinks).entries, e.1.length ≤ highest := by decide +kernel
  have hfails : observeFault (fun _ _ => true) ((Act.run (setupOf [escaping])).perform
      (performAll (threeActs.take 2) (worldWith twoLinks))) = some true := by decide +kernel
  have hstaged : observe (fun sessions _ => stagesFromRoot sessions) ((setupOf [escaping]).sessions
      (performAll (threeActs.take 2) (worldWith twoLinks))) = some true := by
    decide +kernel
  obtain ⟨e, u, he, -⟩ := error_of_observeFault hfails
  refine ⟨by decide +kernel, ⟨e, u, he⟩, ?_⟩
  refine (containment projectRoot threeActs (worldWith twoLinks) hn
    ⟨by decide +kernel, by decide +kernel, by decide +kernel⟩ ?_ ?_).1
  · intro act hm
    simp only [threeActs, List.mem_cons, List.not_mem_nil, or_false] at hm
    obtain rfl | rfl | rfl := hm
    · rfl
    · rfl
    · rfl
  · intro front act rest heq p hp
    refine inSight_of_high hhigh ?_
    rcases front with _ | ⟨first, _ | ⟨second, _ | ⟨third, front⟩⟩⟩
    · cases heq
      rw [show p = _ from hp]
      decide +kernel
    · cases heq
      rw [show p = _ from hp]
      decide +kernel
    · cases heq
      obtain ⟨name, -, artifact, -, rfl⟩ |
        ⟨sessions, w1, hs, s, hm, entries, hentries, e', he', rfl⟩ := hp
      · exact Path.isAbsolute_join (p := Project.dataDir _) rfl _
      · obtain ⟨sessions', w1', hs', hall⟩ := ok_of_observe hstaged
        cases hs.symm.trans hs'
        have hs' := List.all_eq_true.mp hall s hm
        rw [hentries] at hs'
        exact List.all_eq_true.mp hs' e' he'
    · simp [threeActs] at heq

namespace Sample

/-- A name of 252 bytes. -/
def wideName : Text := Text.ofChars (List.replicate 63 (Char.ofNat 0x10348))

/-- A directory whose path has 2530 bytes. -/
def deepPlace : Location := "proj" :: List.replicate 10 wideName

/-- A directory whose path has 4301 bytes. -/
def deeperPlace : Location := deepPlace ++ List.replicate 7 wideName

/-- A link to the directory that lies deep, and below it, too deep to be seen, one that leads
out. -/
def unseenLink : Files where
  entries := ((["outside"] : Location), Entry.directory) ::
    ((["proj", "s"] : Location), .link (absolute deepPlace).text) ::
    (deeperPlace ++ [("out" : Text)], .link "/outside") ::
    (deeperPlace.inits.drop 1).map (·, Entry.directory)
  workingDirectory := ["proj"]

/-- A path through both links. -/
def throughBoth : Path :=
  absolute ((["proj", "s"] : Location) ++ List.replicate 7 wideName ++
    (["out", "x.json"] : Location))

end Sample

/-- A document that is to be written below the root is written outside, through a link that is not
seen when its path is resolved. -/
theorem written_through_unseen_link :
    unseenLink.Houses projectRoot ∧
      unseenLink.isInside (absolute projectRoot) throughBoth = .ok true ∧
      unseenLink.contentAt? ["outside", "x.json"] = none ∧
      ∃ gs, writeValue (absolute projectRoot) throughBoth (.int 1) unseenLink = .ok () gs ∧
        gs.contentAt? ["outside", "x.json"] = some [49] := by
  have hinside : (unseenLink.isInside (absolute projectRoot) throughBoth).toOption = some true := by
    decide +kernel
  have hwrite : observe (fun _ gs => gs.contentAt? ["outside", "x.json"])
      (writeValue (absolute projectRoot) throughBoth (.int 1) unseenLink) = some (some [49]) := by
    decide +kernel
  obtain ⟨⟨⟩, gs, hgs, hcontent⟩ := ok_of_observe hwrite
  exact ⟨⟨by decide +kernel, by decide +kernel, by decide +kernel⟩, ok_of_toOption hinside,
    by decide +kernel, gs, hgs, hcontent⟩

end Act

end RoutePlugins
