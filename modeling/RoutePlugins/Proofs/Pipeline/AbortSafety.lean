import Mathlib.Data.List.Infix
import RoutePlugins.Proofs.Files.DataDirectory
import RoutePlugins.Proofs.Pipeline.CommitDecision

/-!
# Aborted runs write no files

A run that is aborted, that raises a fault before it comes to write, or that is not to write files,
changes no file outside the data directory, whatever was staged by whichever plugins.

The artifacts are written in every run. So this holds where the artifacts are the plugins' own: one
that is a link is written through, also by an aborted run.
-/

namespace RoutePlugins

namespace Pipeline

open World Files

instance (fs : Files) (root : Location) (names : List Text) :
    Decidable (OwnsArtifacts fs root names) :=
  decidable_of_iff (∀ name ∈ names, ∀ artifact ∈ artifactNames,
      ∀ front ∈ (artifactTrail name artifact).inits, front ≠ [] →
        ∀ t, fs.entry? (root ++ front.map Text.asName) ≠ some (.link t))
    ⟨fun h name hn a ha front hf hp => h name hn a ha front ((List.mem_inits _ _).mpr hp) hf,
      fun h name hn a ha front hp hf => h name hn a ha front hf ((List.mem_inits _ _).mp hp)⟩

/-! ### What a run writes -/

/-- The names of the plugins of a run. -/
def Setup.names (r : Setup) : List Text := r.plugins.map (·.name)

/-- A run comes to write the staged texts: its phases have ended, the artifacts are left behind, and
no session stands in the way. -/
def Setup.ComesToCommit (r : Setup) (w : World) : Prop :=
  ∃ sessions w1 settled w2, r.sessions w = .ok sessions w1 ∧
    settleAll r.project sessions w1 = .ok (settled, []) w2

variable {sessions : List PluginSession} {r : Setup} {w w' : World}

private theorem plugins_of_lives {src : Sources} {project : Project} {table : RouteTable}
    {C : ParseCache → Prop} {plugins : List Plugin}
    (h : List.Forall₂ (Life src project table C) plugins sessions) :
    sessions.map (·.plugin) = plugins := by
  induction h with
  | nil => rfl
  | cons hlife _ ih => rw [List.map_cons, ih, hlife.opened_for.1]

/-- The sessions of a run are those of its plugins, in their order. -/
theorem plugins_of_sessions (h : r.sessions w = .ok sessions w') :
    sessions.map (·.plugin) = r.plugins := by
  obtain ⟨table, cache, t, u, -, -, hlives⟩ := lives_of_sessions (C := fun _ => True) h
  exact plugins_of_lives (hlives trivial fun _ _ _ _ _ _ => trivial)

theorem name_of_sessions (h : r.sessions w = .ok sessions w') :
    ∀ s ∈ sessions, s.plugin.name ∈ r.names := by
  intro s hm
  rw [Setup.names, ← plugins_of_sessions h, List.map_map]
  exact List.mem_map_of_mem hm

/-- Unless it is to write files and comes to do so, a run moves along a relation if writing each of
its artifacts does. -/
theorem moves_of_run {R : World → World → Prop} [IsPreorder World R]
    (hsame : ∀ w w', SameSources w w' → R w w')
    (hput : ∀ name ∈ r.names, ∀ artifact ∈ artifactNames, ∀ v, Moves R (Run.changeFiles
      (writeValue r.project.root ((r.project.pluginDir name).child artifact) v)))
    (h : ¬ (r.writesFiles = true ∧ r.ComesToCommit w)) : R w (endState (r.run w)) := by
  have hsessions : Moves R r.sessions := (moves_sessions r).mono hsame
  have hhistory : ∀ u history, R u { u with history } := fun u _ => hsame u _ rfl
  refine hsessions.bind_at fun sessions w1 hs => ?_
  have hsettle : Moves R (settleAll r.project sessions) :=
    moves_settleAll_of hsame fun s hm => hput _ (name_of_sessions hs s hm)
  refine hsettle.bind_at fun ⟨settled, failed⟩ w2 hset => ?_
  cases failed with
  | cons name rest =>
    exact moves_endingStores hhistory sessions ((moves_showAbort _ _ _).mono hsame) w2
  | nil =>
    have hoff : r.writesFiles = false := by
      rw [← Bool.not_eq_true]
      exact fun hon => h ⟨hon, sessions, w1, settled, w2, hs, hset⟩
    rw [hoff]
    exact moves_endingStores hhistory sessions ((moves_conclude _ _ _).mono hsame) w2

/-- Unless it is to write files and comes to do so, a run writes only artifacts. -/
theorem writes_of_run (h : ¬ (r.writesFiles = true ∧ r.ComesToCommit w)) :
    Writes (IsArtifact r.project r.names) w.files (endState (r.run w)).files := by
  let R := OnFiles (Writes (IsArtifact r.project r.names))
  change R w (endState (r.run w))
  exact moves_of_run (fun _ _ hw => OnFiles.of_sameSources hw)
    (fun _ hn _ ha v => moves_artifact hn ha v) h

/-- An aborted run does not come to write. -/
theorem not_comesToCommit {result : RunResult} (h : r.run w = .ok result w')
    (hc : result.committed = false) : ¬ r.ComesToCommit w := by
  rintro ⟨sessions, w1, settled, w2, hs, hset⟩
  obtain ⟨sessions', w1', settled', failed, w2', w3, hs', hset', -, hend⟩ := run_eq_ok h
  rw [hs] at hs'
  cases hs'
  rw [hset] at hset'
  cases hset'
  obtain ⟨-, hconc⟩ | ⟨hne, -⟩ := hend
  · obtain ⟨rfl, -⟩ := conclude_eq_ok hconc
    cases hc
  · exact hne rfl

/-- Every file outside a place has the bytes that it had. -/
def KeepsOutside (place : Location) (fs gs : Files) : Prop :=
  ∀ l, ¬ place <+: l → gs.contentAt? l = fs.contentAt? l

/-- A run that returns is aborted if and only if some session stands in the way when it comes to
commit. In a run that is aborted, that raises a fault before it comes to write, or that is not to
write files, every file outside the data directory keeps its bytes. -/
theorem abort_safety (r : Setup) (w : World) (root : Location) (hw : w.files.WellFormed)
    (hroot : w.files.locate .follow r.project.root = .ok (root, some .directory))
    (hnames : ∀ name ∈ r.names, Plugin.isName name = true)
    (howns : OwnsArtifacts w.files root r.names) :
    (∀ result w', r.run w = .ok result w' → ∃ sessions w1, r.sessions w = .ok sessions w1 ∧
      sessions.map (·.plugin) = r.plugins ∧
      (result.committed = false ↔ ∃ s ∈ sessions, Blocks s)) ∧
    ((∃ result w', r.run w = .ok result w' ∧ result.committed = false) ∨
        (∃ e w', r.run w = .error e w' ∧ ¬ r.ComesToCommit w) ∨ r.writesFiles = false →
      KeepsOutside (dataPlace root) w.files (endState (r.run w)).files) := by
  constructor
  · intro result w' h
    obtain ⟨sessions, w1, hs, -, hiff⟩ := committed_eq_false_iff h
    exact ⟨sessions, w1, hs, plugins_of_sessions hs, hiff⟩
  · intro hcase l hl
    have hno : ¬ (r.writesFiles = true ∧ r.ComesToCommit w) := by
      rintro ⟨hon, hcomes⟩
      obtain ⟨result, w', h, hc⟩ | ⟨e, w', -, hnot⟩ | hoff := hcase
      · exact not_comesToCommit h hc hcomes
      · exact hnot hcomes
      · rw [hoff] at hon
        cases hon
    have hwritten := writes_of_run hno hw
    refine hwritten.kept l fun p hp hlead => hl ?_
    have hdir := hwritten.grows.directory root (foundAt_of_locate hw hroot).entry
    have hroot' := hwritten.grows.locate hroot
    rw [hdir] at hroot'
    exact dataPlace_of_leads hroot' hnames (howns.grows hwritten.grows) hp hlead

/-! ### Two runs -/

/-- Whether a run was committed, and the bytes at a place after it. -/
def committedAnd (l : Location) (result : RunResult) (w : World) : Bool × Option Bytes :=
  (result.committed, w.files.contentAt? l)

namespace Sample

/-- The place of a page below the project root. -/
def page : Location := ["proj", "app", "page.tsx"]

/-- A project with one page and a data directory. -/
def pageEntries : List (Location × Entry) :=
  [(["proj"], .directory), (["proj", "app"], .directory), (page, .file [111, 108, 100]),
    (["proj", ".routecast"], .directory)]

def filesWith (more : List (Location × Entry)) : Files := ⟨pageEntries ++ more, ["proj"]⟩

def worldWith (more : List (Location × Entry)) : World :=
  ⟨filesWith more, fun _ _ => default, .still 0, "", [], []⟩

/-- A plugin that stages a new text for the page. -/
def stager : Plugin :=
  ⟨"a", .map [], none, none, none,
    some (.ask (.stage (.str "new") "/proj/app/page.tsx") fun _ => .done .null)⟩

/-- A plugin that fails as it collects. -/
def failing : Plugin := ⟨"p", .map [], some (.fail .noSuchItem), none, none, none⟩

def setupOf (plugins : List Plugin) : Setup :=
  ⟨⟨⟨.root, ["proj"]⟩, some ⟨.root, ["proj", "app"]⟩, none, []⟩, plugins, fun _ _ => .ok [], true⟩

/-- An artifact of the failing plugin that is a link to the page. -/
def linkedArtifact : List (Location × Entry) :=
  [(["proj", ".routecast", "p"], .directory),
    (["proj", ".routecast", "p", "data.json"], .link "../../app/page.tsx")]

/-- A link to the page that is no artifact. -/
def linkedPage : List (Location × Entry) := [(["proj", "link.tsx"], .link "app/page.tsx")]

end Sample

open Sample

/-- One plugin stages a text and another fails: the run is aborted, and nothing outside the data
directory has changed. -/
theorem abort_safety_staged_and_failed :
    (∃ result w', (setupOf [stager, failing]).run (worldWith linkedPage) = .ok result w' ∧
        result.committed = false) ∧
      KeepsOutside (dataPlace ["proj"]) (filesWith linkedPage)
        (endState ((setupOf [stager, failing]).run (worldWith linkedPage))).files := by
  have hout : observe (committedAnd page)
      ((setupOf [stager, failing]).run (worldWith linkedPage)) =
      some (false, some [111, 108, 100]) := by decide +kernel
  obtain ⟨result, w', hrun, hview⟩ := ok_of_observe hout
  have hc : result.committed = false := congrArg Prod.fst hview
  refine ⟨⟨result, w', hrun, hc⟩, ?_⟩
  exact (abort_safety _ (worldWith linkedPage) ["proj"] (by decide +kernel) rfl
    (by decide +kernel) (by decide +kernel)).2 (.inl ⟨result, w', hrun, hc⟩)

/-- An aborted run writes through an artifact that is a link, although the data directory is a
directory of its own. -/
theorem aborted_run_writes_through_link :
    (filesWith linkedArtifact).WellFormed ∧
      entry? (filesWith linkedArtifact) (dataPlace ["proj"]) = some .directory ∧
      ∃ result w', (setupOf [failing]).run (worldWith linkedArtifact) = .ok result w' ∧
        result.committed = false ∧
        ¬ KeepsOutside (dataPlace ["proj"]) (filesWith linkedArtifact) w'.files := by
  have hout : observe (committedAnd page) ((setupOf [failing]).run (worldWith linkedArtifact)) =
      some (false, some [110, 117, 108, 108]) := by decide +kernel
  obtain ⟨result, w', hrun, hview⟩ := ok_of_observe hout
  have hc : result.committed = false := congrArg Prod.fst hview
  have hpage : w'.files.contentAt? page = some [110, 117, 108, 108] := congrArg Prod.snd hview
  refine ⟨by decide +kernel, by decide +kernel, result, w', hrun, hc, fun hkeeps => ?_⟩
  have hsame := hkeeps page (by decide +kernel)
  rw [hpage] at hsame
  exact absurd hsame (by decide +kernel)

end Pipeline

end RoutePlugins
