import RoutePlugins.Proofs.Json.Artifacts
import RoutePlugins.Proofs.Ledger.ErrorTables
import RoutePlugins.Proofs.Pipeline.CommitExactness

/-!
# What a run leaves behind

At the end of a run the artifacts of a plugin hold the documents of what its session ended with,
unless something else that the run writes leads to the same files. Two of them tell what the run
gave: the list of errors and the table of staged texts.
-/

namespace RoutePlugins.Pipeline

open World Files

/-- The artifacts that tell what a run gave: the errors and the staged texts. -/
def telltales : List Text := ["errors.json", "rewrites.json"]

/-- No other artifact of some plugins leads to a file that tells what a run gave. -/
def ArtifactsApart (fs : Files) (project : Project) (names : List Text) : Prop :=
  ∀ name ∈ names, ∀ telltale ∈ telltales, ∀ other ∈ names, ∀ artifact ∈ artifactNames, ∀ l,
    fs.Leads ((project.pluginDir name).child telltale) l →
    fs.Leads ((project.pluginDir other).child artifact) l → other = name ∧ artifact = telltale

/-- No text is staged for a file that tells what a run gave. -/
def SparesTelltales (fs : Files) (project : Project) (names : List Text)
    (texts : List (Text × Json)) : Prop :=
  ∀ name ∈ names, ∀ telltale ∈ telltales, ∀ e ∈ texts, ∀ l,
    fs.Leads ((project.pluginDir name).child telltale) l → ¬ fs.Leads (Path.parse e.1) l

/-! ### One session -/

/-- No other artifact of some plugins leads to the file of an artifact. -/
def Alone (fs : Files) (project : Project) (names : List Text) (name artifact : Text) : Prop :=
  ∀ other ∈ names, ∀ also ∈ artifactNames, ∀ l,
    fs.Leads ((project.pluginDir name).child artifact) l →
    fs.Leads ((project.pluginDir other).child also) l → other = name ∧ also = artifact

theorem Alone.of_grows {fs gs : Files} {project : Project} {names : List Text}
    {name artifact : Text} (h : Alone gs project names name artifact) (hw : fs.WellFormed)
    (hg : fs.Grows gs) : Alone fs project names name artifact :=
  fun other ho also ha l hl hl' => h other ho also ha l (hg.leads hw hl) (hg.leads hw hl')

end Pipeline

/-- What a session leaves behind, with the names of the artifacts. -/
def PluginSession.artifacts (s : PluginSession) : Except Fault (List (Text × Value)) := do
  let errors ← s.persistedErrors
  let warnings ← s.records .warning
  let collection ← s.table? collectionPath
  let staged ← s.table? stagedPath
  return Pipeline.artifactNames.zip [collection, .ofJson s.derived, errors, warnings, staged]

theorem PluginSession.artifacts_eq_ok {s : PluginSession} {rows : List (Text × Value)}
    (h : s.artifacts = .ok rows) :
    ∃ errors warnings collection staged, s.persistedErrors = .ok errors ∧
      s.records .warning = .ok warnings ∧ s.table? collectionPath = .ok collection ∧
      s.table? stagedPath = .ok staged ∧ rows =
        Pipeline.artifactNames.zip [collection, .ofJson s.derived, errors, warnings, staged] := by
  obtain ⟨errors, he, h⟩ := bind_ok_iff.mp h
  obtain ⟨warnings, hw, h⟩ := bind_ok_iff.mp h
  obtain ⟨collection, hc, h⟩ := bind_ok_iff.mp h
  obtain ⟨staged, hs, h⟩ := bind_ok_iff.mp h
  cases h
  exact ⟨errors, warnings, collection, staged, he, hw, hc, hs, rfl⟩

theorem PluginSession.names_of_artifacts {s : PluginSession} {rows : List (Text × Value)}
    (h : s.artifacts = .ok rows) : rows.map Prod.fst = Pipeline.artifactNames := by
  obtain ⟨_, _, _, _, -, -, -, -, rfl⟩ := artifacts_eq_ok h
  rfl

namespace Pipeline

open World Files

/-- Write an artifact of a plugin. -/
def putArtifact (project : Project) (plugin : Text) (e : Text × Value) : Run Unit :=
  Run.changeFiles (Files.writeValue project.root ((project.pluginDir plugin).child e.1) e.2)

variable {project : Project} {result result' : RunResult} {s : PluginSession} {w w' : World}
  {names : List Text} {sessions : List PluginSession} {P : Path → Prop} {r : Setup}

/-- Settling a session writes what it leaves behind, one artifact after the other. -/
theorem settle_eq_ok (h : settle project result s w = .ok result' w') :
    ∃ rows, s.artifacts = .ok rows ∧
      rows.forM (putArtifact project s.plugin.name) w = .ok () w' := by
  obtain ⟨errors, he, h⟩ := lift_bind_eq_ok.mp h
  obtain ⟨warnings, hw, h⟩ := lift_bind_eq_ok.mp h
  obtain ⟨collection, hc, h⟩ := lift_bind_eq_ok.mp h
  obtain ⟨staged, hs, h⟩ := lift_bind_eq_ok.mp h
  obtain ⟨⟨⟩, w5, hpersist, h⟩ := bind_eq_ok.mp h
  cases h
  refine ⟨_, by rw [PluginSession.artifacts, he, hw, hc, hs]; rfl, ?_⟩
  obtain ⟨⟨⟩, u1, p1, hpersist⟩ := bind_eq_ok.mp hpersist
  obtain ⟨⟨⟩, u2, p2, hpersist⟩ := bind_eq_ok.mp hpersist
  obtain ⟨⟨⟩, u3, p3, hpersist⟩ := bind_eq_ok.mp hpersist
  obtain ⟨⟨⟩, u4, p4, p5⟩ := bind_eq_ok.mp hpersist
  exact bind_eq_ok.mpr ⟨(), u1, p1, bind_eq_ok.mpr ⟨(), u2, p2, bind_eq_ok.mpr ⟨(), u3, p3,
    bind_eq_ok.mpr ⟨(), u4, p4, bind_eq_ok.mpr ⟨(), w', p5, rfl⟩⟩⟩⟩⟩

/-- Artifacts of one plugin that were written hold their documents, unless another of them leads to
the same file. -/
theorem holds_of_puts {plugin : Text} {rows : List (Text × Value)} (hw : w.files.WellFormed)
    (hrows : ∀ e ∈ rows, e.1 ∈ artifactNames) (hnodup : (rows.map Prod.fst).Nodup)
    (h : rows.forM (putArtifact project plugin) w = .ok () w') :
    ∀ e ∈ rows, Alone w'.files project [plugin] plugin e.1 → ∀ j, e.2 = .ofJson j →
      w'.files.HoldsDocument ((project.pluginDir plugin).child e.1) j := by
  induction rows generalizing w with
  | nil => simp
  | cons e rest ih =>
    change (putArtifact project plugin e >>= fun _ => rest.forM (putArtifact project plugin)) w = _
      at h
    obtain ⟨⟨⟩, u, hput, h⟩ := bind_eq_ok.mp h
    rw [List.map_cons, List.nodup_cons] at hnodup
    have hmoves : Moves (OnFiles (Writes fun q =>
        ∃ e ∈ rest, q = (project.pluginDir plugin).child e.1))
        (rest.forM (putArtifact project plugin)) :=
      .forM fun e he => Run.moves_changeFiles (moves_writeValue _ ⟨e, he, rfl⟩ _)
    have hu : u.files.WellFormed :=
      ((Run.moves_changeFiles (moves_writeValue (P := fun _ => True) _ trivial e.2)).of_ok hput
        hw).wellFormed
    refine List.forall_mem_cons.mpr ⟨fun halone j hj => ?_,
      ih hu (fun e he => hrows e (by simp [he])) hnodup.2 h⟩
    have hfirst : u.files.HoldsDocument ((project.pluginDir plugin).child e.1) j :=
      holdsDocument_of_writeValue hw (hj ▸ Value.document_ofJson j) (Run.changeFiles_eq_ok hput)
    refine hfirst.written hu (hmoves.of_ok h hu) ?_
    rintro q ⟨e', he', rfl⟩ l hl hl'
    obtain ⟨-, hsame⟩ := halone plugin (by simp) e'.1 (hrows e' (by simp [he'])) l hl hl'
    exact hnodup.1 (hsame ▸ List.mem_map_of_mem he')

/-- The files hold what a session has left behind, as far as its artifacts are alone and are
spared. -/
def Holds (fs : Files) (project : Project) (names : List Text) (P : Path → Prop)
    (s : PluginSession) : Prop :=
  ∃ rows, s.artifacts = .ok rows ∧ ∀ e ∈ rows, Alone fs project names s.plugin.name e.1 →
    (∀ q, P q → ∀ l, fs.Leads ((project.pluginDir s.plugin.name).child e.1) l → ¬ fs.Leads q l) →
      ∀ j, e.2 = .ofJson j → fs.HoldsDocument ((project.pluginDir s.plugin.name).child e.1) j

theorem holds_of_settle (hw : w.files.WellFormed) (h : settle project result s w = .ok result' w') :
    Holds w'.files project [s.plugin.name] (fun _ => False) s := by
  obtain ⟨rows, hrows, hputs⟩ := settle_eq_ok h
  have hnames := PluginSession.names_of_artifacts hrows
  refine ⟨rows, hrows, fun e he halone _ => holds_of_puts hw (fun e he => ?_) ?_ hputs e he halone⟩
  · rw [← hnames]
    exact List.mem_map_of_mem he
  · rw [hnames]
    decide

/-! ### All sessions -/

/-- What each session has left behind is there after all of them were settled. -/
theorem holds_of_foldlM (hw : w.files.WellFormed) (hnames : ∀ s ∈ sessions, s.plugin.name ∈ names)
    (hnodup : (sessions.map (·.plugin.name)).Nodup)
    (h : sessions.foldlM (settle project) result w = .ok result' w') :
    ∀ s ∈ sessions, Holds w'.files project names (fun _ => False) s := by
  induction sessions generalizing result w with
  | nil => simp
  | cons s rest ih =>
    rw [List.foldlM_cons] at h
    obtain ⟨next, u, hs, h⟩ := bind_eq_ok.mp h
    rw [List.map_cons, List.nodup_cons] at hnodup
    have hname : s.plugin.name ∈ names := hnames s (by simp)
    have hu : u.files.WellFormed :=
      ((moves_settle result fun _ ha v => moves_artifact hname ha v).of_ok hs hw).wellFormed
    have hrest : ∀ t ∈ rest, t.plugin.name ∈ rest.map (·.plugin.name) :=
      fun t ht => List.mem_map_of_mem ht
    have hlater : Written (IsArtifact project (rest.map (·.plugin.name))) u.files w'.files :=
      (Moves.foldlM _ fun result t ht => moves_settle result fun _ ha v =>
        moves_artifact (hrest t ht) ha v).of_ok h hu
    refine List.forall_mem_cons.mpr ⟨?_, ih hu (fun t ht => hnames t (by simp [ht])) hnodup.2 h⟩
    obtain ⟨rows, hrows, hheld⟩ := holds_of_settle hw hs
    refine ⟨rows, hrows, fun e he halone _ j hj => ?_⟩
    have hone : Alone u.files project [s.plugin.name] s.plugin.name e.1 := by
      intro other ho
      rw [List.mem_singleton.mp ho]
      exact halone.of_grows hu hlater.grows _ hname
    refine (hheld e he hone (fun _ hf => hf.elim) j hj).written hu hlater ?_
    rintro q ⟨name, hn, also, ha, rfl⟩ l hl hl'
    obtain ⟨t, htm, rfl⟩ := List.mem_map.mp hn
    obtain ⟨hsame, -⟩ := halone _ (hnames t (by simp [htm])) also ha l hl hl'
    exact hnodup.1 (hsame ▸ hn)

theorem holds_of_settleAll {settled : RunResult × List Text} (hw : w.files.WellFormed)
    (hnames : ∀ s ∈ sessions, s.plugin.name ∈ names) (hnodup : (sessions.map (·.plugin.name)).Nodup)
    (h : settleAll project sessions w = .ok settled w') :
    ∀ s ∈ sessions, Holds w'.files project names (fun _ => False) s := by
  obtain ⟨merged, u, hm, h⟩ := bind_eq_ok.mp h
  obtain ⟨result, v, hf, h⟩ := bind_eq_ok.mp h
  obtain ⟨failed, v', hn, h⟩ := bind_eq_ok.mp h
  cases h
  obtain ⟨-, rfl⟩ := lift_eq_ok.mp hn
  have hu : u.files = w.files := congrArg Sources.files ((moves_mergeStaged _ _ _).of_ok hm)
  exact holds_of_foldlM (hu ▸ hw) hnames hnodup hf

/-! ### After the decision -/

theorem written_of_sameSources (hw : w.files.WellFormed) (h : SameSources w w') :
    Written P w.files w'.files := by
  have hfiles : w'.files = w.files := congrArg Sources.files h
  rw [hfiles]
  exact refl_of (Writes P) w.files hw

/-- Staged texts are written through the paths for which they were staged. -/
theorem written_of_writeTexts {texts : List (Text × Json)} {n : Nat} (hw : w.files.WellFormed)
    (h : writeTexts project texts w = .ok n w') :
    Written (fun q => ∃ e ∈ texts, q = Path.parse e.1) w.files w'.files := by
  obtain ⟨pending, u, hu, hp, hall⟩ := writeTexts_eq_ok h
  have hfiles : u.files = w.files := congrArg Sources.files hu
  rw [← hfiles] at hw ⊢
  refine (moves_writeAll project.root fun target ht => ?_).of_ok hall hw
  have hmem : some target ∈ pending := by simpa using ht
  obtain ⟨p, hpm, hpend⟩ := exists_of_forall₂_left (forall₂_of_except_mapM hp).flip hmem
  obtain ⟨e, he, rfl⟩ := List.mem_map.mp hpm
  exact ⟨e, he, pendingFor_eq_some hpend⟩

/-- A run that concludes writes through the paths of the staged texts, if it is to write files. -/
theorem written_of_conclude {writesFiles : Bool} (hw : w.files.WellFormed)
    (h : conclude project writesFiles sessions result w = .ok result' w') :
    Written (fun q => writesFiles = true ∧ ∃ e ∈ result.staged, q = Path.parse e.1)
      w.files w'.files := by
  cases writesFiles with
  | false => exact written_of_sameSources hw ((moves_conclude project sessions result).of_ok h)
  | true =>
    obtain ⟨-, hwrites⟩ := conclude_eq_ok h
    obtain ⟨u, n, v, hu, hwrite, hv⟩ := hwrites rfl
    have huf : u.files = w.files := congrArg Sources.files hu
    have hvf : w'.files = v.files := congrArg Sources.files hv
    rw [← huf] at hw ⊢
    rw [hvf]
    exact Writes.mono (fun q hq => ⟨rfl, hq⟩) (fun hw => written_of_writeTexts hw hwrite) hw

theorem exists_failed {failed : List Text} (h : failedNames sessions = .ok failed)
    (hne : failed ≠ []) : ∃ s ∈ sessions, s.hasFailed = .ok true := by
  obtain ⟨hnone, hall⟩ := failedNames_eq_ok h
  by_contra hno
  refine hne (hnone.mpr fun s hm => ?_)
  obtain ⟨b, hb⟩ := hall s hm
  cases b with
  | false => exact hb
  | true => exact absurd ⟨s, hm, hb⟩ hno

/-- What the sessions of a run have left behind before the decision is there in the end. -/
theorem holds_of_run (hnodup : r.names.Nodup) {w1 w2 w3 : World} (hw : w.files.WellFormed)
    (hs : r.sessions w = .ok sessions w1) {settled : RunResult × List Text}
    (hset : settleAll r.project sessions w1 = .ok settled w2) (hend : Written P w2.files w3.files) :
    ∀ s ∈ sessions, Holds w3.files r.project r.names P s := by
  have hfiles : w1.files = w.files := congrArg Sources.files ((moves_sessions r).of_ok hs)
  have hw2 := (written_of_settleAll hw hs hset).wellFormed
  have hnames : (sessions.map (·.plugin.name)).Nodup := by
    rwa [Setup.names, ← plugins_of_sessions hs, List.map_map] at hnodup
  intro s hm
  obtain ⟨rows, hrows, hheld⟩ :=
    holds_of_settleAll (hfiles ▸ hw) (name_of_sessions hs) hnames hset s hm
  refine ⟨rows, hrows, fun e he halone hspare j hj => ?_⟩
  exact (hheld e he (halone.of_grows hw2 hend.grows) (fun _ hf => hf.elim) j hj).written hw2 hend
    hspare

/-- The files hold the errors and the staged texts with which a session has ended. -/
structure Left (fs : Files) (project : Project) (s : PluginSession) : Prop where
  errors : ∀ j, s.persistedErrors = .ok (.ofJson j) →
    fs.HoldsDocument ((project.pluginDir s.plugin.name).child "errors.json") j
  staged : ∀ j, s.table? stagedPath = .ok (.ofJson j) →
    fs.HoldsDocument ((project.pluginDir s.plugin.name).child "rewrites.json") j

theorem Holds.left {fs : Files} (h : Holds fs project names P s)
    (halone : ∀ telltale ∈ telltales, Alone fs project names s.plugin.name telltale)
    (hspare : ∀ telltale ∈ telltales, ∀ q, P q → ∀ l,
      fs.Leads ((project.pluginDir s.plugin.name).child telltale) l → ¬ fs.Leads q l) :
    Left fs project s := by
  obtain ⟨rows, hrows, hheld⟩ := h
  obtain ⟨errors, warnings, collection, staged, he, -, -, hs, rfl⟩ :=
    PluginSession.artifacts_eq_ok hrows
  have htells : ("errors.json" : Text) ∈ telltales ∧ ("rewrites.json" : Text) ∈ telltales := by
    decide
  constructor
  · intro j hj
    rw [he] at hj
    exact hheld ("errors.json", errors) (by simp [artifactNames]) (halone _ htells.1)
      (hspare _ htells.1) j (Except.ok.inj hj)
  · intro j hj
    rw [hs] at hj
    exact hheld ("rewrites.json", staged) (by simp [artifactNames]) (halone _ htells.2)
      (hspare _ htells.2) j (Except.ok.inj hj)

/-! ### Runs -/

/-- The paths through which a run writes the staged texts, if it does. -/
def IsStaged (r : Setup) (result : RunResult) (p : Path) : Prop :=
  r.writesFiles = true ∧ result.committed = true ∧ ∃ e ∈ result.staged, p = Path.parse e.1

/-- A run that returns tells of its sessions, and the files hold what they have left behind. -/
theorem held_of_run {r : Setup} (hnodup : r.names.Nodup) {w w' : World} (hw : w.files.WellFormed)
    {result : RunResult} (h : r.run w = .ok result w') :
    ∃ sessions w1, r.sessions w = .ok sessions w1 ∧ Reports result sessions ∧
      ∀ s ∈ sessions, Holds w'.files r.project r.names (IsStaged r result) s := by
  obtain ⟨sessions, w1, settled, failed, w2, w3, hs, hset, hsame, hend⟩ := run_eq_ok h
  have hw2 := (written_of_settleAll hw hs hset).wellFormed
  have hfiles : w'.files = w3.files := congrArg Sources.files hsame
  obtain ⟨-, -, -, hreports, -, -, -⟩ := settleAll_eq_ok hset
  rw [hfiles]
  refine ⟨sessions, w1, hs, ?_⟩
  obtain ⟨rfl, hconc⟩ | ⟨-, hshow⟩ := hend
  · have hwritten := written_of_conclude hw2 hconc
    obtain ⟨rfl, -⟩ := conclude_eq_ok hconc
    refine ⟨⟨hreports.errors, hreports.warnings, hreports.data, hreports.failures⟩, ?_⟩
    exact holds_of_run hnodup hw hs hset
      (Writes.mono (fun q hq => ⟨hq.1, rfl, hq.2⟩) (fun _ => hwritten) hw2)
  · obtain ⟨rfl, -⟩ := showAbort_eq_ok hshow
    exact ⟨hreports, holds_of_run hnodup hw hs hset
      (written_of_sameSources hw2 ((moves_showAbort _ _ _).of_ok hshow))⟩

/-- A run is committed with the texts staged last if none of its sessions has failed, and it is
aborted if one has. -/
def Decides (result : RunResult) (sessions : List Watched) : Prop :=
  result.committed = true ∧ (∀ s ∈ sessions, s.1.hasFailed = .ok false) ∧
      result.staged = (lastStaged sessions).map (fun e => (e.1, .str e.2.joined)) ∨
    result.committed = false ∧ ∃ s ∈ sessions, s.1.hasFailed = .ok true

/-- A run of ordinary plugins that returns decides by its sessions. -/
theorem decides_of_run (hp : ∀ plugin ∈ r.plugins, plugin.Ordinary) (h : r.run w = .ok result w') :
    ∃ (sessions : List Watched) (w1 : World), r.sessions w = .ok (sessions.map Prod.fst) w1 ∧
      (∀ s ∈ sessions, Tallied w.files s) ∧ Decides result sessions := by
  obtain ⟨sessions', w1, settled, failed, w2, w3, hs, hset, -, hend⟩ := run_eq_ok h
  obtain ⟨sessions, hwatched, rfl⟩ := watched_of_sessions hs
  have ht := tallied_of_watched hp hwatched
  obtain ⟨-, -, -, -, -, hcommitted, hfailed⟩ := settleAll_eq_ok hset
  refine ⟨sessions, w1, hs, ht, ?_⟩
  obtain ⟨rfl, hconc⟩ | ⟨hne, hshow⟩ := hend
  · have hstaged := staged_of_settleAll ht hset
    obtain ⟨rfl, -⟩ := conclude_eq_ok hconc
    have hnone := (failedNames_eq_ok hfailed).1.mp rfl
    exact .inl ⟨rfl, fun s hm => hnone s.1 (List.mem_map_of_mem hm), hstaged⟩
  · obtain ⟨rfl, -⟩ := showAbort_eq_ok hshow
    obtain ⟨t, hm, hb⟩ := exists_failed hfailed hne
    obtain ⟨s, hs', rfl⟩ := List.mem_map.mp hm
    exact .inr ⟨hcommitted, s, hs', hb⟩

/-- A run of ordinary plugins ends with sessions of these plugins, whose errors are lists of shallow
values and whose tables of staged texts are those of their logs. What they have left behind is in
the files. -/
theorem sessions_of_run (hp : ∀ plugin ∈ r.plugins, plugin.Ordinary) (hnodup : r.names.Nodup)
    (hw : w.files.WellFormed) (h : r.run w = .ok result w')
    (hapart : ArtifactsApart w'.files r.project r.names)
    (hspare : r.writesFiles = true → result.committed = true →
      SparesTelltales w'.files r.project r.names result.staged) :
    ∃ sessions : List Watched, (sessions.map Prod.fst).map (·.plugin) = r.plugins ∧
      (∀ s ∈ sessions, Filed s.1.ledger s.1.store ∧ Tallied w.files s ∧
        Left w'.files r.project s.1) ∧
      Decides result sessions := by
  obtain ⟨sessions, w1, hs, ht, hdecides⟩ := decides_of_run hp h
  obtain ⟨sessions', w1', hs', -, hholds⟩ := held_of_run hnodup hw h
  rw [hs] at hs'
  cases hs'
  refine ⟨sessions, plugins_of_sessions hs, fun s hm => ?_, hdecides⟩
  have hmem : s.1 ∈ sessions.map Prod.fst := List.mem_map_of_mem hm
  have hname := name_of_sessions hs s.1 hmem
  refine ⟨filed_of_sessions hp hs s.1 hmem, ht s hm, (hholds s.1 hmem).left (hapart _ hname) ?_⟩
  rintro telltale htell q ⟨hon, hc, e, he, rfl⟩
  exact hspare hon hc _ hname telltale htell e he

end RoutePlugins.Pipeline
