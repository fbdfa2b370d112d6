import RoutePlugins.Proofs.Files.Writes
import RoutePlugins.Proofs.Pipeline.Lives

/-!
# What a commit may write

Before it decides, a commit writes only the artifacts of the plugins. An aborted run writes nothing
after that, and neither does one that is not to write files.
-/

namespace RoutePlugins

/-! ### Steps on the files of a run -/

/-- The files of a run change along a relation. -/
def World.OnFiles (R : Files → Files → Prop) (w w' : World) : Prop := R w.files w'.files

instance (R : Files → Files → Prop) [IsPreorder Files R] : IsPreorder World (World.OnFiles R) where
  refl w := refl_of R w.files
  trans _ _ _ h h' := trans_of R h h'

section

variable {R : Files → Files → Prop} {α : Type} {w w' : World} {e : Fault}

theorem World.OnFiles.of_sameSources [IsPreorder Files R] (h : World.SameSources w w') :
    World.OnFiles R w w' := by
  have hf : w'.files = w.files := congrArg Sources.files h
  change R w.files w'.files
  rw [hf]
  exact refl_of R w.files

/-- Work that leaves the files alone changes them along any relation. -/
theorem Moves.onFiles [IsPreorder Files R] {m : Run α} (h : Moves World.SameSources m) :
    Moves (World.OnFiles R) m := h.mono fun _ _ hs => World.OnFiles.of_sameSources hs

theorem Run.lift_ok (a : α) (w : World) : Run.lift (.ok a) w = .ok a w := rfl

theorem Run.onFiles_of_ok {f : Files → Except Fault α} {a : α} (h : f w.files = .ok a) :
    Run.onFiles f w = .ok a w := by
  change Files.lift (f w.files) w = _
  rw [h]
  rfl

theorem Run.onFiles_of_error {f : Files → Except Fault α} (h : f w.files = .error e) :
    Run.onFiles f w = .error e w := by
  change Files.lift (f w.files) w = _
  rw [h]
  rfl

theorem Run.moves_changeFiles {m : EStateM Fault Files α} (h : Moves R m) :
    Moves (World.OnFiles R) (Run.changeFiles m) := by
  intro w
  have hm := h w.files
  unfold Run.changeFiles
  split
  · next he => rwa [he] at hm
  · next he => rwa [he] at hm

theorem Run.changeFiles_eq_ok {m : EStateM Fault Files α} {a : α}
    (h : Run.changeFiles m w = .ok a w') : m w.files = .ok a w'.files := by
  unfold Run.changeFiles at h
  split at h
  · next he =>
    cases h
    exact he
  · cases h

theorem Run.changeFiles_of_ok {m : EStateM Fault Files α} {a : α} {gs : Files}
    (h : m w.files = .ok a gs) : Run.changeFiles m w = .ok a { w with files := gs } := by
  unfold Run.changeFiles
  rw [h]

theorem Files.change_of_ok {f : Files → Except Fault Files} {fs gs : Files} (h : f fs = .ok gs) :
    Files.change f fs = .ok () gs := by
  change (Files.lift (f fs) >>= fun gs => set gs : EStateM Fault Files PUnit) _ = _
  rw [h]
  rfl

theorem Run.changeFiles_eq_error {m : EStateM Fault Files α} (h : Run.changeFiles m w = .error e w')
     :
    m w.files = .error e w'.files := by
  unfold Run.changeFiles at h
  split at h
  · cases h
  · next he =>
    cases h
    exact he

end

namespace Pipeline

open World Files

/-! ### Artifacts -/

/-- The names of the artifacts of a plugin. -/
def artifactNames : List Text :=
  ["collection.json", "data.json", "errors.json", "warnings.json", "rewrites.json"]

/-- The paths of the artifacts of some plugins. -/
def IsArtifact (project : Project) (names : List Text) (p : Path) : Prop :=
  ∃ name ∈ names, ∃ artifact ∈ artifactNames, p = (project.pluginDir name).child artifact

/-- Writing an artifact of a plugin writes an artifact. -/
theorem moves_artifact {project : Project} {names : List Text} {name : Text} (hn : name ∈ names)
    {artifact : Text} (ha : artifact ∈ artifactNames) (v : Value) :
    Moves (OnFiles (Writes (IsArtifact project names))) (Run.changeFiles
      (Files.writeValue project.root ((project.pluginDir name).child artifact) v)) :=
  Run.moves_changeFiles (moves_writeValue _ ⟨name, hn, artifact, ha, rfl⟩ v)

section

variable {R : World → World → Prop} [IsPreorder World R] {project : Project}

/-- Leaving artifacts behind moves along a relation if writing each of them does. -/
theorem moves_persist {name : Text} (hput : ∀ artifact ∈ artifactNames, ∀ v, Moves R
      (Run.changeFiles (Files.writeValue project.root ((project.pluginDir name).child artifact) v)))
    (a : Artifacts) : Moves R (persist project name a) := by
  refine (hput _ (by simp [artifactNames]) _).bind fun _ => ?_
  refine (hput _ (by simp [artifactNames]) _).bind fun _ => ?_
  refine (hput _ (by simp [artifactNames]) _).bind fun _ => ?_
  refine (hput _ (by simp [artifactNames]) _).bind fun _ => ?_
  exact hput _ (by simp [artifactNames]) _

theorem moves_settle (result : RunResult) {s : PluginSession} (hput : ∀ artifact ∈ artifactNames,
      ∀ v, Moves R (Run.changeFiles
        (Files.writeValue project.root ((project.pluginDir s.plugin.name).child artifact) v))) :
    Moves R (settle project result s) := by
  refine (Moves.lift _).bind fun _ => (Moves.lift _).bind fun _ => ?_
  refine (Moves.lift _).bind fun _ => (Moves.lift _).bind fun _ => ?_
  exact (moves_persist hput _).bind fun _ => .pure _

end

/-! ### Before the decision -/

theorem moves_warnOverride (project : Project) (plugin file : Text) (code : Json) (m : Merged) :
    Moves SameSources (warnOverride project plugin file code m) := by
  unfold warnOverride
  split
  · exact .pure _
  · exact Moves.ite (.pure _)
      ((Moves.get.bind fun _ => .lift _).bind fun _ => Run.moves_say _)

theorem moves_mergeEntries (project : Project) (plugin : Text) (entries : List (Text × Json))
    (m : Merged) : Moves SameSources (mergeEntries project plugin entries m) := by
  induction entries generalizing m with
  | nil => exact .pure m
  | cons e rest ih =>
    obtain ⟨file, code⟩ := e
    exact (moves_warnOverride project plugin file code m).bind fun _ => ih _

theorem moves_mergeStaged (project : Project) (sessions : List PluginSession) (m : Merged) :
    Moves SameSources (mergeStaged project sessions m) := by
  induction sessions generalizing m with
  | nil => exact .pure m
  | cons s rest ih =>
    refine (Moves.lift _).bind fun entries => ?_
    exact (moves_mergeEntries project s.plugin.name entries m).bind fun m => ih m

variable {R : World → World → Prop} {project : Project}

/-- Settling sessions moves along a relation if writing each of their artifacts does. -/
theorem moves_settleAll_of [IsPreorder World R] (hsame : ∀ w w', SameSources w w' → R w w')
    {sessions : List PluginSession} (hput : ∀ s ∈ sessions, ∀ artifact ∈ artifactNames, ∀ v,
      Moves R (Run.changeFiles
        (Files.writeValue project.root ((project.pluginDir s.plugin.name).child artifact) v))) :
    Moves R (settleAll project sessions) := by
  refine ((moves_mergeStaged project _ _).mono hsame).bind fun merged => ?_
  refine (Moves.foldlM _ fun result s hm => moves_settle result (hput s hm)).bind fun result => ?_
  exact (Moves.lift _).bind fun _ => .pure _

/-- Settling sessions writes their artifacts and no other file. -/
theorem moves_settleAll {names : List Text} {sessions : List PluginSession}
    (hs : ∀ s ∈ sessions, s.plugin.name ∈ names) :
    Moves (OnFiles (Writes (IsArtifact project names))) (settleAll project sessions) :=
  moves_settleAll_of (fun _ _ h => OnFiles.of_sameSources h) fun s hm _ ha v =>
    moves_artifact (hs s hm) ha v

/-! ### After the decision -/

theorem moves_showRecords (kind : ReportKind) (root : Path) (records : Value) :
    Moves SameSources (showRecords kind root records) := by
  unfold showRecords
  refine Moves.bind (.forM fun line _ => Run.moves_say line) fun _ => ?_
  split
  · exact .throw _
  · exact .pure _

theorem moves_showAbort (project : Project) (result : RunResult) (failed : List Text) :
    Moves SameSources (showAbort project result failed) := by
  refine Moves.bind (.forM fun e _ => ?_) fun _ => (Run.moves_say _).bind fun _ => .pure _
  exact (moves_showRecords _ _ _).bind fun _ => moves_showRecords _ _ _

theorem moves_showAll (sessions : List PluginSession) :
    Moves SameSources (sessions.forM fun s => do
      showRecords .error s.ledger.root (← Run.lift (s.records .error))
      showRecords .warning s.ledger.root (← Run.lift (s.records .warning))) := by
  refine .forM fun s _ => (Moves.lift _).bind fun _ => (moves_showRecords _ _ _).bind fun _ => ?_
  exact (Moves.lift _).bind fun _ => moves_showRecords _ _ _

/-- A run concludes along a relation if writing its staged texts moves along it. -/
theorem moves_conclude_of [IsPreorder World R] (hsame : ∀ w w', SameSources w w' → R w w')
    {writesFiles : Bool} {result : RunResult}
    (hw : writesFiles = true → Moves R (writeTexts project result.staged))
    (sessions : List PluginSession) : Moves R (conclude project writesFiles sessions result) := by
  have hdone : Moves R (do
      Run.done "Pipeline committed in 0.00s"
      return { result with committed := true } : Run RunResult) :=
    ((Run.moves_say _).mono hsame).bind fun _ => .pure _
  refine ((moves_showAll sessions).mono hsame).bind fun _ => ?_
  cases writesFiles with
  | false => exact hdone
  | true => exact (hw rfl).bind fun _ => ((Run.moves_say _).mono hsame).bind fun _ => hdone

/-- A run that is not to write files concludes without writing any. -/
theorem moves_conclude (project : Project) (sessions : List PluginSession) (result : RunResult) :
    Moves SameSources (conclude project false sessions result) :=
  moves_conclude_of (fun _ _ h => h) (fun h => by cases h) sessions

theorem moves_endingStores {α : Type} [IsPreorder World R]
    (hR : ∀ w history, R w { w with history }) (sessions : List PluginSession) {work : Run α}
    (hw : Moves R work) : Moves R (endingStores sessions work) := by
  have hend : Moves R (sessions.forM endStore) :=
    .forM fun s _ => (Moves.lift _).bind fun _ => .modify fun w => hR w _
  intro w
  unfold endingStores
  split
  · next a u h =>
    have he := hend u
    split
    · next hu =>
      rw [hu] at he
      exact trans_of R (hw.of_ok h) he
    · next hu =>
      rw [hu] at he
      exact trans_of R (hw.of_ok h) he
  · next e u h =>
    have he := hend u
    split
    · next hu =>
      rw [hu] at he
      exact trans_of R (hw.of_error h) he
    · next hu =>
      rw [hu] at he
      exact trans_of R (hw.of_error h) he

end Pipeline

end RoutePlugins
