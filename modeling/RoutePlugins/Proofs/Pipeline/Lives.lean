import RoutePlugins.Pipeline.Run
import RoutePlugins.Proofs.Plugin.Opened

/-!
# The lives of sessions

A phase changes the store and the configuration of its session, and neither the files nor the
parser, whatever it requests. So the phases of a run all see the files as they were before it, and
the sessions that a run comes to commit are the ends of one life for each plugin: the session is
opened and collects, builds, and stages texts, each time over the same files.
-/

namespace RoutePlugins

/-! ### Phases -/

/-- What a phase leaves alone: the files, the parser, and all of its session apart from the store
and the configuration. -/
structure PhaseState.Frame (s t : PhaseState) : Prop where
  sources : t.world.sources = s.world.sources
  session : t.session = { s.session with store := t.session.store, config := t.session.config }

instance : IsPreorder PhaseState PhaseState.Frame where
  refl _ := ⟨rfl, rfl⟩
  trans s t u h h' := ⟨h'.sources.trans h.sources, h'.session.trans (by rw [h.session])⟩

namespace PhaseM

variable {α : Type}

theorem moves_onStore (m : StoreM α) : Moves PhaseState.Frame (onStore m) := by
  intro s
  unfold onStore
  split
  · exact ⟨rfl, rfl⟩
  · exact ⟨rfl, rfl⟩

theorem moves_onLedger (m : LedgerM α) : Moves PhaseState.Frame (onLedger m) := by
  intro s
  unfold onLedger
  dsimp only
  split
  · exact ⟨rfl, rfl⟩
  · exact ⟨rfl, rfl⟩

theorem moves_onCall (m : StoreCall.CallM α) : Moves PhaseState.Frame (onCall m) := by
  intro s
  unfold onCall
  dsimp only
  split
  · exact ⟨rfl, rfl⟩
  · exact ⟨rfl, rfl⟩

end PhaseM

open PhaseM in
theorem PluginSession.moves_stage (code : Value) (file : Text) :
    Moves PhaseState.Frame (stage code file) := by
  unfold stage
  refine Moves.get.bind fun s => ?_
  split
  · refine (Moves.lift _).bind fun target => (Moves.lift _).bind fun inside => Moves.ite ?_ ?_
    · exact (Moves.throw _).bind fun _ => (moves_onStore _).bind fun _ => moves_onStore _
    · exact (Moves.pure _).bind fun _ => (moves_onStore _).bind fun _ => moves_onStore _
  · exact .throw _

open PhaseM in
/-- No request reaches the files. -/
theorem PluginSession.moves_answer (q : Request) : Moves PhaseState.Frame (answer q) := by
  cases q with
  | parse => exact Moves.get.bind fun _ => moves_onStore _
  | sourceFile => exact Moves.get.bind fun _ => .lift _
  | routes => exact Moves.get.bind fun _ => .pure _
  | imports => exact Moves.get.bind fun _ => moves_onStore _
  | reached => exact Moves.get.bind fun _ => moves_onStore _
  | clientFiles => exact Moves.get.bind fun _ => .pure _
  | serverFiles => exact Moves.get.bind fun _ => .pure _
  | collect => exact moves_onStore _
  | collected => exact moves_onStore _
  | save => exact (moves_onStore _).bind fun _ => moves_onStore _
  | saved => exact moves_onStore _
  | savedHistory => exact moves_onStore _
  | report => exact Moves.get.bind fun _ => moves_onLedger _
  | records => exact moves_onStore _
  | stage code file => exact moves_stage code file
  | staged => exact moves_onStore _
  | stagedHistory => exact moves_onStore _
  | store => exact Moves.get.bind fun _ => moves_onCall _
  | context => exact Moves.get.bind fun _ => .pure _
  | configure => exact .modify fun _ => ⟨rfl, rfl⟩
  | note => exact .modify fun _ => ⟨rfl, rfl⟩

/-- A program goes on with the answer to its request. -/
theorem Phase.run_ask {α : Type} (q : Request) (next : Except Fault q.Reply → Phase α)
    (s : PhaseState) :
    (ask q next).run s =
      (next (outcome (PluginSession.answer q s))).run (endState (PluginSession.answer q s)) := by
  rw [run]
  dsimp only
  cases PluginSession.answer q s with
  | ok r t => rfl
  | error e t => rfl

/-- No phase reaches the files. -/
theorem Phase.moves_run {α : Type} (phase : Phase α) : Moves PhaseState.Frame phase.run := by
  induction phase with
  | done a => exact fun s => refl_of PhaseState.Frame s
  | fail e => exact fun s => refl_of PhaseState.Frame s
  | ask q next ih =>
    intro s
    rw [run_ask]
    exact trans_of PhaseState.Frame (PluginSession.moves_answer q s) (ih _ _)

/-! ### Steps of a run -/

/-- The files and the parser stay the same. -/
def World.SameSources (w w' : World) : Prop := w'.sources = w.sources

instance : IsPreorder World World.SameSources where
  refl _ := rfl
  trans _ _ _ h h' := Eq.trans h' h

open World in
theorem Run.moves_say (line : Text) : Moves SameSources (Run.say line) := .modify fun _ => rfl

/-- The history of a run is apart from the files. -/
theorem World.moves_history (f : World → List Snapshot) :
    Moves SameSources (modify fun w => { w with history := f w } : Run Unit) := .modify fun _ => rfl

namespace Pipeline

open World

theorem moves_failPhase (s : PluginSession) (phase text : Text) :
    Moves SameSources (failPhase s phase text) :=
  (Run.moves_say _).bind fun _ => .pure _

/-- What a phase of a session may change of it. -/
structure Aged (s t : PluginSession) : Prop where
  plugin : t.plugin = s.plugin
  project : t.project = s.project
  table : t.table = s.table
  ledger : t.ledger = s.ledger
  graph : t.graph = s.graph

variable {s : PluginSession} {name : Text} {phase : Phase Value} {src : Sources}
  {sessions : List PluginSession} {r : Setup}

theorem Aged.trans {t u : PluginSession} (h : Aged s t) (h' : Aged t u) : Aged s u :=
  ⟨h'.plugin.trans h.plugin, h'.project.trans h.project, h'.table.trans h.table,
    h'.ledger.trans h.ledger, h'.graph.trans h.graph⟩

theorem aged_of_frame {s t : PhaseState} (h : s.Frame t) : Aged s.session t.session := by
  rw [h.session]
  exact ⟨rfl, rfl, rfl, rfl, rfl⟩

theorem moves_runPhase (s : PluginSession) (name : Text) (phase : Phase Value) :
    Moves SameSources (runPhase s name phase) := by
  intro w
  have hp := phase.moves_run
  unfold runPhase
  split
  · next h => exact (hp.of_ok h).sources
  · next e t h =>
    split
    · exact (hp.of_error h).sources
    · have hf := (moves_failPhase t.session name e.report).bind
        fun u => Moves.pure (R := SameSources) (u, Value.null)
      exact trans_of SameSources (hp.of_error h).sources (hf t.world)

variable {s' : PluginSession} {v : Value} {w w' : World} {project : Project} {table : RouteTable}
  {cache : ParseCache} {plugin : Plugin} {C : ParseCache → Prop}

/-- A phase that is run ends, or fails with a fault that does not end the run. -/
theorem runPhase_eq_ok (h : runPhase s name phase w = .ok (s', v) w') :
    phase.run ⟨w, s⟩ = .ok v ⟨w', s'⟩ ∨
      ∃ e t, phase.run ⟨w, s⟩ = .error e t ∧ e.isConfiguration = false ∧
        e.isInterruption = false ∧ s' = { t.session with failure := some (name, e.report) } ∧
        v = .null := by
  unfold runPhase at h
  split at h
  · next t hp =>
    cases h
    exact .inl hp
  · next e t hp =>
    split at h
    · cases h
    · next hc =>
      simp only [Bool.or_eq_true, not_or, Bool.not_eq_true] at hc
      cases h
      exact .inr ⟨e, t, hp, hc.1, hc.2, rfl, rfl⟩

theorem aged_of_runPhase (h : runPhase s name phase w = .ok (s', v) w') : Aged s s' := by
  obtain hp | ⟨e, t, hp, -, -, rfl, -⟩ := runPhase_eq_ok h
  · exact aged_of_frame (phase.moves_run.of_ok hp)
  · obtain ⟨h1, h2, h3, h4, h5⟩ := aged_of_frame (phase.moves_run.of_error hp)
    exact ⟨h1, h2, h3, h4, h5⟩

theorem moves_openAndCollect (project : Project) (table : RouteTable) (cache : ParseCache)
    (plugin : Plugin) : Moves SameSources (openAndCollect project table cache plugin) := by
  unfold openAndCollect
  refine (Moves.get.bind fun _ => .lift _).bind fun s => ?_
  split
  · exact .pure s
  · exact (Run.moves_say _).bind fun _ => (moves_runPhase s _ _).bind fun _ => .pure _

theorem moves_collectAll (project : Project) (table : RouteTable) (cache : ParseCache)
    (plugins : List Plugin) : Moves SameSources (collectAll project table cache plugins) := by
  induction plugins generalizing cache with
  | nil => exact .pure []
  | cons plugin rest ih =>
    refine (moves_openAndCollect project table cache plugin).bind fun s => ?_
    exact (Moves.lift _).bind fun cache => (ih cache).bind fun _ => .pure _

theorem moves_runBuilder (s : PluginSession) : Moves SameSources (runBuilder s) := by
  unfold runBuilder
  split
  · exact moves_runPhase s _ _
  · exact .pure _

theorem refuseBuilt_of_ne (s : PluginSession) {cause : NotJson} (h : cause ≠ .depth) :
    refuseBuilt s cause = failPhase s "build"
      ("SerializationError: derived data is not JSON-serializable: " ++ cause.message) := by
  cases cause with
  | depth => exact absurd rfl h
  | _ => rfl

theorem moves_keepBuilt (s : PluginSession) (v : Value) : Moves SameSources (keepBuilt s v) := by
  refine Moves.ite (.pure s) ((Moves.lift _).bind fun v => ?_)
  split
  · exact .pure _
  · next cause _ =>
    cases cause with
    | depth => exact .throw _
    | _ => exact moves_failPhase s _ _

theorem moves_build (s : PluginSession) : Moves SameSources (build s) :=
  (moves_runBuilder s).bind fun p => moves_keepBuilt p.1 p.2

theorem moves_buildUnlessFailed (s : PluginSession) :
    Moves SameSources (buildUnlessFailed s) :=
  Moves.ite (.pure s) ((Run.moves_say _).bind fun _ => moves_build s)

theorem moves_stageUnlessFailed (s : PluginSession) :
    Moves SameSources (stageUnlessFailed s) := by
  unfold stageUnlessFailed
  split
  · exact (Run.moves_say _).bind fun _ => (moves_runPhase _ _ _).bind fun _ => .pure _
  · exact .pure s

theorem moves_prepare (project : Project) (convention : Routes.Convention) :
    Moves SameSources (prepare project convention) := by
  refine Moves.get.bind fun w => ?_
  split
  · exact .throw _
  · exact (moves_history _).bind fun _ => .pure _

theorem moves_routes (r : Setup) : Moves SameSources r.routes := by
  refine (moves_history _).bind fun _ => (Run.moves_say _).bind fun _ => ?_
  exact (moves_prepare _ _).bind fun _ => (Run.moves_say _).bind fun _ => .pure _

/-- The phases of a run leave the files and the parser alone. -/
theorem moves_sessions (r : Setup) : Moves SameSources r.sessions := by
  refine (moves_routes r).bind fun _ => (moves_collectAll _ _ _ _).bind fun sessions => ?_
  refine (Moves.mapM fun s _ => moves_buildUnlessFailed s).bind fun _ => ?_
  exact Moves.mapM fun s _ => moves_stageUnlessFailed s

/-! ### Lives -/

/-- The lives of sessions over some files: opened with parsed files of which `C` holds, a session
collects, builds and stages texts. -/
inductive Life (src : Sources) (project : Project) (table : RouteTable) (C : ParseCache → Prop) :
    Plugin → PluginSession → Prop
  | mk {plugin : Plugin} {cache : ParseCache} {collected built staged : PluginSession}
      {w0 w1 w2 t0 t1 t2 : World} (hc : C cache) (h0 : w0.sources = src)
      (collects : openAndCollect project table cache plugin w0 = .ok collected t0)
      (h1 : w1.sources = src) (builds : buildUnlessFailed collected w1 = .ok built t1)
      (h2 : w2.sources = src) (stages : stageUnlessFailed built w2 = .ok staged t2) :
      Life src project table C plugin staged

theorem openAndCollect_eq_ok (h : openAndCollect project table cache plugin w = .ok s w') :
    ∃ opened, PluginSession.start w.files project table cache plugin = .ok opened ∧
      (plugin.collector = none ∧ s = opened ∨
        ∃ phase v u, plugin.collector = some phase ∧
          Run.begins (plugin.name ++ ": collect") w = .ok () u ∧
          runPhase opened "collect" phase u = .ok (s, v) w') := by
  unfold openAndCollect at h
  obtain ⟨opened, hstart, h⟩ := lift_bind_eq_ok.mp h
  refine ⟨opened, hstart, ?_⟩
  cases hp : plugin.collector with
  | none =>
    rw [hp] at h
    cases h
    exact .inl ⟨rfl, rfl⟩
  | some phase =>
    rw [hp] at h
    obtain ⟨⟨⟩, u, hsay, h⟩ := bind_eq_ok.mp h
    obtain ⟨⟨s', v⟩, u', hr, h⟩ := bind_eq_ok.mp h
    cases h
    exact .inr ⟨phase, v, u, rfl, hsay, hr⟩

theorem Aged.refl (s : PluginSession) : Aged s s := ⟨rfl, rfl, rfl, rfl, rfl⟩

/-- A session builds if it has not failed and its plugin has a phase that does. -/
theorem runBuilder_eq_ok (h : runBuilder s w = .ok (s', v) w') :
    s.plugin.buildPhase = none ∧ s' = s ∧ v = .null ∨
      ∃ phase, s.plugin.buildPhase = some phase ∧ runPhase s "build" phase w = .ok (s', v) w' := by
  unfold runBuilder at h
  cases hp : s.plugin.buildPhase with
  | none =>
    rw [hp] at h
    cases h
    exact .inl ⟨rfl, rfl, rfl⟩
  | some phase =>
    rw [hp] at h
    exact .inr ⟨phase, rfl, h⟩

/-- What was built is kept, or it has no kept form and the session has failed. -/
theorem keepBuilt_eq_ok (h : keepBuilt s v w = .ok s' w') :
    s.failure.isSome = true ∧ s' = s ∨
      s.failure = none ∧ ∃ b, builtValue s v = .ok b ∧
        ((∃ derived, b.keepBuilt = .ok derived ∧ s' = { s with derived }) ∨
          ∃ cause, b.keepBuilt = .error cause ∧ s' = { s with failure := some ("build",
            "SerializationError: derived data is not JSON-serializable: " ++ cause.message) }) := by
  unfold keepBuilt at h
  by_cases hf : s.failure.isSome = true
  · rw [if_pos hf] at h
    cases h
    exact .inl ⟨hf, rfl⟩
  · rw [if_neg hf] at h
    obtain ⟨b, hbuilt, h⟩ := lift_bind_eq_ok.mp h
    refine .inr ⟨Option.not_isSome_iff_eq_none.mp hf, b, hbuilt, ?_⟩
    cases hb : b.keepBuilt with
    | ok derived =>
      rw [hb] at h
      cases h
      exact .inl ⟨derived, rfl, rfl⟩
    | error cause =>
      rw [hb] at h
      change refuseBuilt s cause w = _ at h
      by_cases hdepth : cause = .depth
      · subst hdepth
        cases h
      rw [refuseBuilt_of_ne s hdepth] at h
      obtain ⟨⟨⟩, u', -, h⟩ := bind_eq_ok.mp h
      cases h
      exact .inr ⟨cause, rfl, rfl⟩

theorem buildUnlessFailed_eq_ok (h : buildUnlessFailed s w = .ok s' w') :
    s.failure.isSome = true ∧ s' = s ∨
      ∃ u t v u', s.failure = none ∧ Run.begins (s.plugin.name ++ ": build") w = .ok () u ∧
        runBuilder s u = .ok (t, v) u' ∧ keepBuilt t v u' = .ok s' w' := by
  unfold buildUnlessFailed at h
  cases hf : s.failure with
  | some failure =>
    rw [if_pos (by simp [hf])] at h
    cases h
    exact .inl ⟨rfl, rfl⟩
  | none =>
    rw [if_neg (by simp [hf])] at h
    obtain ⟨⟨⟩, u, hsay, h⟩ := bind_eq_ok.mp h
    obtain ⟨⟨t, v⟩, u', hr, hk⟩ := bind_eq_ok.mp h
    exact .inr ⟨u, t, v, u', rfl, hsay, hr, hk⟩

theorem aged_of_build (h : buildUnlessFailed s w = .ok s' w') : Aged s s' := by
  obtain ⟨-, rfl⟩ | ⟨u, t, v, u', -, -, hr, hk⟩ := buildUnlessFailed_eq_ok h
  · exact .refl _
  have hbuilder : Aged s t := by
    obtain ⟨-, rfl, -⟩ | ⟨phase, -, hr⟩ := runBuilder_eq_ok hr
    · exact .refl _
    · exact aged_of_runPhase hr
  refine hbuilder.trans ?_
  obtain ⟨-, rfl⟩ | ⟨-, b, -, ⟨derived, -, rfl⟩ | ⟨cause, -, rfl⟩⟩ := keepBuilt_eq_ok hk
  · exact .refl _
  · exact ⟨rfl, rfl, rfl, rfl, rfl⟩
  · exact ⟨rfl, rfl, rfl, rfl, rfl⟩

/-- A session stages texts if it has not failed and its plugin has a phase that does. -/
theorem stageUnlessFailed_eq_ok (h : stageUnlessFailed s w = .ok s' w') :
    (s.failure.isSome = true ∨ s.plugin.stager = none) ∧ s' = s ∨
      ∃ phase v u, s.failure = none ∧ s.plugin.stager = some phase ∧
      Run.begins (s.plugin.name ++ ": rewrite") w = .ok () u ∧
      runPhase { s with data := s.derived } "rewrite" phase u = .ok (s', v) w' := by
  unfold stageUnlessFailed at h
  cases hf : s.failure with
  | some failure =>
    rw [hf] at h
    cases h
    exact .inl ⟨.inl rfl, rfl⟩
  | none =>
    cases hp : s.plugin.stager with
    | none =>
      rw [hf, hp] at h
      cases h
      exact .inl ⟨.inr rfl, rfl⟩
    | some phase =>
      rw [hf, hp] at h
      obtain ⟨⟨⟩, u, hsay, h⟩ := bind_eq_ok.mp h
      obtain ⟨⟨t, v⟩, u', hr, h⟩ := bind_eq_ok.mp h
      cases h
      exact .inr ⟨phase, v, u, rfl, rfl, hsay, hr⟩

theorem aged_of_stage (h : stageUnlessFailed s w = .ok s' w') : Aged s s' := by
  obtain ⟨-, rfl⟩ | ⟨phase, v, u, -, -, -, hr⟩ := stageUnlessFailed_eq_ok h
  · exact .refl _
  · obtain ⟨h1, h2, h3, h4, h5⟩ := aged_of_runPhase hr
    exact ⟨h1, h2, h3, h4, h5⟩

theorem opened_for_of_openAndCollect (h : openAndCollect project table cache plugin w = .ok s w') :
    s.plugin = plugin ∧ s.project = project ∧ s.table = table := by
  obtain ⟨opened, hstart, hopen⟩ := openAndCollect_eq_ok h
  obtain ⟨root, config, -, -, rfl⟩ := PluginSession.start_eq_ok hstart
  obtain ⟨-, rfl⟩ | ⟨phase, v, u, -, -, hrun⟩ := hopen
  · exact ⟨rfl, rfl, rfl⟩
  · have haged := aged_of_runPhase hrun
    exact ⟨haged.plugin, haged.project, haged.table⟩

/-- A session is of the plugin and of the project for which it was opened. -/
theorem Life.opened_for {project : Project} {table : RouteTable} {C : ParseCache → Prop}
    {plugin : Plugin} (h : Life src project table C plugin s) :
    s.plugin = plugin ∧ s.project = project ∧ s.table = table := by
  obtain ⟨-, -, collects, -, builds, -, stages⟩ := h
  obtain ⟨hp, hr, ht⟩ := opened_for_of_openAndCollect collects
  have haged := (aged_of_build builds).trans (aged_of_stage stages)
  exact ⟨haged.plugin.trans hp, haged.project.trans hr, haged.table.trans ht⟩

/-- A session that was opened and has collected. -/
def Collected (src : Sources) (project : Project) (table : RouteTable) (C : ParseCache → Prop)
    (plugin : Plugin) (s : PluginSession) : Prop :=
  ∃ cache w t, C cache ∧ w.sources = src ∧
    openAndCollect project table cache plugin w = .ok s t

theorem collected_of_collectAll {plugins : List Plugin}
    (hC : ∀ plugin ∈ plugins, ∀ s cache, Collected src project table C plugin s →
      s.store.parseCache = .ok cache → C cache) (hc : C cache) (hw : w.sources = src)
    (h : collectAll project table cache plugins w = .ok sessions w') :
    List.Forall₂ (Collected src project table C) plugins sessions := by
  induction plugins generalizing cache w sessions with
  | nil =>
    cases h
    exact .nil
  | cons plugin rest ih =>
    obtain ⟨s, u, hs, h⟩ := bind_eq_ok.mp h
    obtain ⟨cache', hcache, h⟩ := lift_bind_eq_ok.mp h
    obtain ⟨others, v, ho, h⟩ := bind_eq_ok.mp h
    cases h
    have hs' : Collected src project table C plugin s := ⟨cache, w, u, hc, hw, hs⟩
    have hu : u.sources = src := ((moves_openAndCollect _ _ _ _).of_ok hs).trans hw
    refine .cons hs' (ih (fun p hp => hC p (by simp [hp])) ?_ hu ho)
    exact hC plugin (by simp) s cache' hs' hcache

theorem routes_eq_ok (h : r.routes w = .ok (table, cache) w') :
    ∃ t u, t.sources = w.sources ∧ prepare r.project r.convention t = .ok (table, cache) u := by
  obtain ⟨⟨⟩, w1, h1, h⟩ := bind_eq_ok.mp h
  obtain ⟨⟨⟩, w2, h2, h⟩ := bind_eq_ok.mp h
  obtain ⟨⟨table', cache'⟩, w3, h3, h⟩ := bind_eq_ok.mp h
  obtain ⟨⟨⟩, w4, -, h⟩ := bind_eq_ok.mp h
  cases h
  exact ⟨w2, w3, ((Run.moves_say _).of_ok h2).trans ((moves_history _).of_ok h1), h3⟩

/-- The sessions that a run comes to commit are the ends of lives, one for each plugin. What holds
of the parsed files of the routes, and of those that a session which has collected hands on, holds
of the parsed files with which each session was opened. -/
theorem lives_of_sessions (h : r.sessions w = .ok sessions w') :
    ∃ table cache t u, t.sources = w.sources ∧
      prepare r.project r.convention t = .ok (table, cache) u ∧
      (C cache → (∀ plugin ∈ r.plugins, ∀ s cache,
          Collected w.sources r.project table C plugin s →
          s.store.parseCache = .ok cache → C cache) →
        List.Forall₂ (Life w.sources r.project table C) r.plugins sessions) := by
  obtain ⟨⟨table, cache⟩, w4, h4, h⟩ := bind_eq_ok.mp h
  obtain ⟨collected, w5, h5, h⟩ := bind_eq_ok.mp h
  obtain ⟨built, w6, h6, h7⟩ := bind_eq_ok.mp h
  have e4 : w4.sources = w.sources := (moves_routes r).of_ok h4
  have e5 : w5.sources = w.sources := ((moves_collectAll _ _ _ _).of_ok h5).trans e4
  have e6 : w6.sources = w.sources :=
    ((Moves.mapM fun s _ => moves_buildUnlessFailed s).of_ok h6).trans e5
  obtain ⟨t, u, ht, hprepare⟩ := routes_eq_ok h4
  refine ⟨table, cache, t, u, ht, hprepare, fun hc hC => ?_⟩
  have hb := Moves.forall₂_of_mapM moves_buildUnlessFailed h6
  have hs := Moves.forall₂_of_mapM moves_stageUnlessFailed h7
  have hcoll := collected_of_collectAll hC hc e4 h5
  have hbuilt := forall₂_chain (fun _ b _ hc hb => Exists.intro b (And.intro hc hb)) hcoll hb
  refine forall₂_chain (fun plugin b s hcb hs => ?_) hbuilt hs
  obtain ⟨c, ⟨cache, w0, t0, hcache, hw0, ho⟩, u1, v1, hu1, hb⟩ := hcb
  obtain ⟨u2, v2, hu2, hs⟩ := hs
  exact .mk hcache hw0 ho (Eq.trans hu1 e5) hb (Eq.trans hu2 e6) hs

end Pipeline

end RoutePlugins
