import RoutePlugins.Proofs.Pipeline.Lives

/-!
# What plugins stage in a run

A run may be watched: beside each session stands a log of the texts that its phases have staged, in
their order, each with the resolved path that it was staged for. Only a request that succeeds is
logged. A watched run is the run itself once the logs are forgotten.
-/

namespace RoutePlugins

/-- Texts with the paths that they were staged for. -/
abbrev StagingLog := List (Text × Text)

/-- What a request stages if it succeeds. -/
def Request.staging? (fs : Files) : Request → Option (Text × Text)
  | .stage (.str code) file => (fs.resolve (Path.parse file)).toOption.map fun p => (p.text, code)
  | _ => none

/-- What a program stages as it is run. -/
def Phase.stagings {α : Type} : Phase α → PhaseState → StagingLog
  | .done _, _ => []
  | .fail _, _ => []
  | .ask q next, s =>
    match PluginSession.answer q s with
    | .ok r t => (q.staging? s.world.files).toList ++ (next (.ok r)).stagings t
    | .error e t => (next (.error e)).stagings t

namespace Pipeline

open World

/-- What a phase of a session stages, if there is one, once it was said that it begins. -/
def stagedIn (title : Text) (s : PluginSession) (w : World) : Option (Phase Value) → StagingLog
  | none => []
  | some phase => phase.stagings ⟨endState (Run.begins title w), s⟩

/-- What a plugin stages as it collects. -/
def stagedInCollect (project : Project) (table : RouteTable) (cache : ParseCache)
    (plugin : Plugin) (w : World) : StagingLog :=
  match PluginSession.start w.files project table cache plugin with
  | .ok s => stagedIn (plugin.name ++ ": collect") s w plugin.collector
  | .error _ => []

/-- What a session stages as it builds. -/
def stagedInBuild (s : PluginSession) (w : World) : StagingLog :=
  if s.failure.isSome then [] else stagedIn (s.plugin.name ++ ": build") s w s.plugin.buildPhase

/-- What a session stages in the phase for it. -/
def stagedInStage (s : PluginSession) (w : World) : StagingLog :=
  if s.failure.isSome then []
  else stagedIn (s.plugin.name ++ ": rewrite") { s with data := s.derived } w s.plugin.stager

/-! ### Watched runs -/

/-- A session with its log. -/
abbrev Watched := PluginSession × StagingLog

/-- A step of a session that is watched. -/
def watch (step : PluginSession → Run PluginSession) (staged : PluginSession → World → StagingLog)
    (s : Watched) : Run Watched := do
  let w ← get
  return (← step s.1, s.2 ++ staged s.1 w)

/-- Let plugins collect in turn, and watch them. -/
def watchCollectAll (project : Project) (table : RouteTable) :
    ParseCache → List Plugin → Run (List Watched)
  | _, [] => return []
  | cache, plugin :: rest => do
    let w ← get
    let s ← openAndCollect project table cache plugin
    let next ← Run.lift s.store.parseCache
    return (s, stagedInCollect project table cache plugin w) ::
      (← watchCollectAll project table next rest)

/-- Run the phases of the plugins, up to the commit, and watch them. -/
def Setup.watched (r : Setup) : Run (List Watched) := do
  let (table, cache) ← r.routes
  let sessions ← watchCollectAll r.project table cache r.plugins
  let sessions ← sessions.mapM (watch buildUnlessFailed stagedInBuild)
  sessions.mapM (watch stageUnlessFailed stagedInStage)

/-! ### Forgetting the logs -/

variable (step : PluginSession → Run PluginSession) (staged : PluginSession → World → StagingLog)

theorem fst_watch (s : Watched) : Prod.fst <$> watch step staged s = step s.1 := by
  unfold watch
  simp only [map_bind, map_pure, bind_pure]
  rfl

theorem fst_mapM_watch (sessions : List Watched) :
    List.map Prod.fst <$> sessions.mapM (watch step staged) =
      (sessions.map Prod.fst).mapM step := by
  induction sessions with
  | nil => rfl
  | cons s rest ih =>
    rw [List.map_cons, List.mapM_cons, List.mapM_cons, ← fst_watch step staged s, ← ih]
    simp only [map_bind, map_pure, bind_map_left, List.map_cons]

theorem fst_watchCollectAll (project : Project) (table : RouteTable) (cache : ParseCache)
    (plugins : List Plugin) :
    List.map Prod.fst <$> watchCollectAll project table cache plugins =
      collectAll project table cache plugins := by
  induction plugins generalizing cache with
  | nil => rfl
  | cons plugin rest ih =>
    unfold watchCollectAll collectAll
    simp only [← ih, map_bind, map_pure, bind_map_left, List.map_cons]
    rfl

/-- A watched run is the run, once the logs are forgotten. -/
theorem fst_watched (r : Setup) : List.map Prod.fst <$> r.watched = r.sessions := by
  unfold Setup.watched Setup.sessions
  rw [map_bind]
  refine bind_congr fun routes => ?_
  obtain ⟨table, cache⟩ := routes
  dsimp only
  rw [← fst_watchCollectAll, map_bind, bind_map_left]
  refine bind_congr fun collected => ?_
  rw [← fst_mapM_watch buildUnlessFailed stagedInBuild, map_bind, bind_map_left]
  exact bind_congr fun built => fst_mapM_watch stageUnlessFailed stagedInStage built

end Pipeline

end RoutePlugins
