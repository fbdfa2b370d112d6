import RoutePlugins.Proofs.Plugin.StagingTables

/-!
# What a run has staged

When a run comes to commit, the table of staged texts of every session is that of its log. A session
that has failed stages nothing more, and none of what it staged is part of the commit.
-/

namespace RoutePlugins

/-- A plugin whose phases never use the store directly. -/
def Plugin.Ordinary (plugin : Plugin) : Prop :=
  ∀ phase, (plugin.collector = some phase ∨ plugin.buildPhase = some phase ∨
    plugin.stager = some phase) → phase.Ordinary

namespace Pipeline

open World

/-! ### Steps -/

variable {fs : Files} {log : StagingLog} {s' : PluginSession} {w w' : World}
  {sessions : List Watched} {s : PluginSession} {project : Project} {table : RouteTable}
  {cache : ParseCache} {step : PluginSession → Run PluginSession}

theorem tallies_of_runPhase {name : Text} {phase : Phase Value} (hp : phase.Ordinary) {v : Value}
    (h : Tallies fs log s.store) (hfs : w.files = fs)
    (hr : runPhase s name phase w = .ok (s', v) w') :
    Tallies fs (log ++ phase.stagings ⟨w, s⟩) s'.store := by
  have hend := hp.tallies (s := ⟨w, s⟩) h hfs
  obtain hok | ⟨e, t, herr, -, -, rfl, -⟩ := runPhase_eq_ok hr
  · rwa [hok] at hend
  · rwa [herr] at hend

/-- Saying that something begins leaves the files alone. -/
theorem files_of_begins {title : Text} {u : World} (h : Run.begins title w = .ok () u) :
    u.files = w.files := congrArg Sources.files ((Run.moves_say _).of_ok h)

theorem tallies_of_openAndCollect {plugin : Plugin} (hp : plugin.Ordinary)
    (h : openAndCollect project table cache plugin w = .ok s w') :
    Tallies w.files (stagedInCollect project table cache plugin w) s.store := by
  obtain ⟨opened, hstart, hopen⟩ := openAndCollect_eq_ok h
  have hfirst : Tallies w.files [] opened.store := by
    obtain ⟨root, config, -, -, rfl⟩ := PluginSession.start_eq_ok hstart
    exact ⟨rfl, ⟨[], rfl⟩, by simp⟩
  unfold stagedInCollect
  rw [hstart]
  dsimp only
  obtain ⟨hnone, rfl⟩ | ⟨phase, v, u, hsome, hsay, hr⟩ := hopen
  · rw [hnone]
    exact hfirst
  · rw [hsome, stagedIn, hsay]
    exact tallies_of_runPhase (hp phase (.inl hsome)) hfirst (files_of_begins hsay) hr

theorem tallies_of_build (hp : s.plugin.Ordinary) (h : Tallies fs log s.store) (hfs : w.files = fs)
    (hb : buildUnlessFailed s w = .ok s' w') : Tallies fs (log ++ stagedInBuild s w) s'.store := by
  unfold stagedInBuild
  obtain ⟨hf, rfl⟩ | ⟨u, t, v, u', hf, hsay, hr, hk⟩ := buildUnlessFailed_eq_ok hb
  · rw [if_pos hf, List.append_nil]
    exact h
  rw [if_neg (by simp [hf])]
  have hkept : s'.store = t.store := by
    obtain ⟨-, rfl⟩ | ⟨-, b, -, ⟨derived, -, rfl⟩ | ⟨cause, -, rfl⟩⟩ := keepBuilt_eq_ok hk
    · rfl
    · rfl
    · rfl
  rw [hkept]
  obtain ⟨hnone, rfl, -⟩ | ⟨phase, hsome, hr⟩ := runBuilder_eq_ok hr
  · rw [hnone, stagedIn, List.append_nil]
    exact h
  · rw [hsome, stagedIn, hsay]
    exact tallies_of_runPhase (hp phase (.inr (.inl hsome))) h
      ((files_of_begins hsay).trans hfs) hr

theorem tallies_of_stage (hp : s.plugin.Ordinary) (h : Tallies fs log s.store) (hfs : w.files = fs)
    (hs : stageUnlessFailed s w = .ok s' w') : Tallies fs (log ++ stagedInStage s w) s'.store := by
  unfold stagedInStage
  obtain ⟨hf | hnone, rfl⟩ | ⟨phase, v, u, hf, hsome, hsay, hr⟩ := stageUnlessFailed_eq_ok hs
  · rw [if_pos hf, List.append_nil]
    exact h
  · rw [hnone, stagedIn, ite_self, List.append_nil]
    exact h
  · rw [if_neg (by simp [hf]), hsome, stagedIn, hsay]
    exact tallies_of_runPhase (hp phase (.inr (.inr hsome))) (s := { s with data := s.derived }) h
      ((files_of_begins hsay).trans hfs) hr

/-! ### Runs -/

/-- A session of an ordinary plugin whose tables are those of its log. -/
structure Tallied (fs : Files) (s : Watched) : Prop where
  plugin : s.1.plugin.Ordinary
  tallies : Tallies fs s.2 s.1.store

theorem moves_watch (hm : ∀ s, Moves SameSources (step s))
    (staged : PluginSession → World → StagingLog) (s : Watched) :
    Moves SameSources (watch step staged s) :=
  Moves.get.bind fun _ => (hm s.1).bind fun _ => .pure _

/-- A step that keeps the plugin and lets the tables follow the log does so in every session. -/
theorem tallied_of_mapM {staged : PluginSession → World → StagingLog}
    (hm : ∀ s, Moves SameSources (step s))
    (hstep : ∀ {fs log s s' w w'}, s.plugin.Ordinary → Tallies fs log s.store → w.files = fs →
      step s w = .ok s' w' → Tallies fs (log ++ staged s w) s'.store ∧ Aged s s')
    {sessions' : List Watched} (hfs : w.files = fs) (hs : ∀ s ∈ sessions, Tallied fs s)
    (h : sessions.mapM (watch step staged) w = .ok sessions' w') :
    ∀ s ∈ sessions', Tallied fs s := by
  have hall := Moves.forall₂_of_mapM (moves_watch hm staged) h
  intro t ht
  obtain ⟨s, hmem, u, v, hu, hw⟩ := exists_of_forall₂_left hall.flip ht
  obtain ⟨hplugin, htallies⟩ := hs s hmem
  obtain ⟨u0, u1, hget, hw⟩ := bind_eq_ok.mp hw
  cases hget
  obtain ⟨s', u2, hs', hw⟩ := bind_eq_ok.mp hw
  cases hw
  have hufs : u.files = fs := (congrArg Sources.files hu).trans hfs
  obtain ⟨htal, haged⟩ := hstep hplugin htallies hufs hs'
  exact ⟨by rw [haged.plugin]; exact hplugin, htal⟩

theorem tallied_of_watchCollectAll {plugins : List Plugin}
    (hp : ∀ plugin ∈ plugins, plugin.Ordinary) (hfs : w.files = fs)
    (h : watchCollectAll project table cache plugins w = .ok sessions w') :
    ∀ s ∈ sessions, Tallied fs s := by
  induction plugins generalizing cache sessions w with
  | nil =>
    cases h
    simp
  | cons plugin rest ih =>
    obtain ⟨w0, u, hget, h⟩ := bind_eq_ok.mp h
    cases hget
    obtain ⟨s, u, hs, h⟩ := bind_eq_ok.mp h
    obtain ⟨next, -, h⟩ := lift_bind_eq_ok.mp h
    obtain ⟨others, v, ho, h⟩ := bind_eq_ok.mp h
    cases h
    have hu : u.files = fs :=
      (congrArg Sources.files ((moves_openAndCollect _ _ _ _).of_ok hs)).trans hfs
    have hplugin := hp plugin (by simp)
    have hfirst := tallies_of_openAndCollect hplugin hs
    rw [hfs] at hfirst
    refine List.forall_mem_cons.mpr ⟨⟨?_, hfirst⟩, ih (fun p hm => hp p (by simp [hm])) hu ho⟩
    rw [(opened_for_of_openAndCollect hs).1]
    exact hplugin

theorem moves_watchCollectAll (project : Project) (table : RouteTable) (cache : ParseCache)
    (plugins : List Plugin) :
    Moves SameSources (watchCollectAll project table cache plugins) := by
  induction plugins generalizing cache with
  | nil => exact .pure []
  | cons plugin rest ih =>
    refine Moves.get.bind fun _ =>
      (moves_openAndCollect project table cache plugin).bind fun s => ?_
    exact (Moves.lift _).bind fun cache => (ih cache).bind fun _ => .pure _

/-- In a watched run of ordinary plugins the tables of every session are those of its log. -/
theorem tallied_of_watched {r : Setup} (hp : ∀ plugin ∈ r.plugins, plugin.Ordinary)
    (h : r.watched w = .ok sessions w') : ∀ s ∈ sessions, Tallied w.files s := by
  obtain ⟨⟨table, cache⟩, w1, h1, h⟩ := bind_eq_ok.mp h
  obtain ⟨collected, w2, h2, h⟩ := bind_eq_ok.mp h
  obtain ⟨built, w3, h3, h4⟩ := bind_eq_ok.mp h
  have e1 : w1.files = w.files := congrArg Sources.files ((moves_routes r).of_ok h1)
  have e2 : w2.files = w.files :=
    (congrArg Sources.files ((moves_watchCollectAll _ _ _ _).of_ok h2)).trans e1
  have e3 : w3.files = w.files :=
    (congrArg Sources.files
      ((Moves.mapM fun s _ => moves_watch moves_buildUnlessFailed _ s).of_ok h3)).trans e2
  have hcollected := tallied_of_watchCollectAll hp e1 h2
  have hbuilt := tallied_of_mapM moves_buildUnlessFailed
    (fun hp ht hfs hb => ⟨tallies_of_build hp ht hfs hb, aged_of_build hb⟩) e2 hcollected h3
  exact tallied_of_mapM moves_stageUnlessFailed
    (fun hp ht hfs hs => ⟨tallies_of_stage hp ht hfs hs, aged_of_stage hs⟩) e3 hbuilt h4

/-! ### Merged texts -/

end Pipeline

/-- The texts that a session has staged are those of its log. -/
theorem Tallies.stagedTexts {fs : Files} {log : StagingLog} {s : PluginSession}
    (h : Tallies fs log s.store) : s.stagedTexts = .ok log.kept := by
  have htable : s.table? stagedPath = .ok (.ofJson (.obj log.kept)) :=
    Store.get_of_slotAt (by decide) (by decide) h.staged
  have hentries : (Value.ofJson (.obj log.kept)).asRecord "items" =
      .ok (Value.ofJsonFields log.kept) := rfl
  have hfields : (Value.map (Value.ofJsonFields log.kept)).toJson? = some (.obj log.kept) :=
    Value.toJson?_ofJson (.obj log.kept)
  simp only [PluginSession.stagedTexts, htable, hentries, hfields, bind, Except.bind]
  rfl

namespace Pipeline

theorem mergeEntries_eq_ok {project : Project} {plugin : Text} {entries : List (Text × Json)}
    {m m' : Merged} {w w' : World}
    (h : mergeEntries project plugin entries m w = .ok m' w') :
    m'.texts = Assoc.update m.texts entries := by
  induction entries generalizing m w with
  | nil =>
    cases h
    rfl
  | cons e rest ih =>
    obtain ⟨⟨⟩, u, -, h⟩ := bind_eq_ok.mp h
    exact ih h

/-- Merging what sessions have staged updates with the texts of each in turn. -/
theorem mergeStaged_eq_ok {project : Project} {sessions : List Watched} {fs : Files}
    (ht : ∀ s ∈ sessions, Tallied fs s) {m m' : Merged} {w w' : World}
    (h : mergeStaged project (sessions.map Prod.fst) m w = .ok m' w') :
    m'.texts = Assoc.update m.texts
      ((sessions.flatMap Prod.snd).map fun e => (e.1, .str e.2.joined)) := by
  induction sessions generalizing m w with
  | nil =>
    cases h
    rfl
  | cons s rest ih =>
    obtain ⟨entries, hentries, h⟩ := lift_bind_eq_ok.mp h
    obtain ⟨m1, v, hm, hrest⟩ := bind_eq_ok.mp h
    rw [(ht s (by simp)).tallies.stagedTexts] at hentries
    cases hentries
    rw [ih (fun t hmem => ht t (by simp [hmem])) hrest, mergeEntries_eq_ok hm, List.flatMap_cons,
      List.map_append, Assoc.update_append, StagingLog.kept, Assoc.update_ofList]

end Pipeline

end RoutePlugins
