import RoutePlugins.Proofs.Pipeline.AbortSafety
import RoutePlugins.Proofs.Pipeline.PhaseTurns
import RoutePlugins.Proofs.Store.ParseCaches

/-!
# The schedule of a run

The phases that a run runs are those that are due, in their order: all plugins collect, then those
build that have not failed, then those stage texts that have not failed. A phase that fails ends the
part of its plugin and of no other one. A fault of configuration and an interruption end the run
where they are raised, before any file is written. All this is so as long as the phases leave the
tables of their session in place, which a run reads between them.
-/

namespace RoutePlugins

open List

namespace Pipeline

open World LoggedRun

/-! ### Calls in a log -/

section

variable {β : Type} {log front back : PhaseLog} {phase name : Text} {plugins : List Plugin}

theorem find?_title_eq_none {title : Text × Text} (h : ∀ c ∈ log, c.title ≠ title) :
    log.find? (fun c => c.title = title) = none :=
  List.find?_eq_none.mpr fun c hc => by simpa using h c hc

/-- A plugin that is not of a round has no call in it. -/
theorem call?_eq_none {rows : List (Row β)}
    (h : List.Forall₂ (fun p row => ∀ c ∈ row.2, c.title = (p.name, phase)) plugins rows)
    (hn : name ∉ plugins.map Plugin.name) : PhaseLog.call? (calls rows) name phase = none := by
  induction h with
  | nil => rfl
  | @cons p row _ _ hrow _ ih =>
    rw [map_cons, mem_cons, not_or] at hn
    rw [calls_cons, PhaseLog.call?, List.find?_append, find?_title_eq_none fun c hc => ?apart,
      Option.none_or]
    · exact ih hn.2
    · rw [hrow c (by simpa using hc)]
      simpa using Ne.symm hn.1

/-- In the log of a round each plugin has its own call. -/
theorem forall₂_call? (phase : Text) (hn : (plugins.map Plugin.name).Nodup)
    {A : Plugin → Row β → Prop} (hA : ∀ p row, A p row → ∀ c ∈ row.2, c.title = (p.name, phase))
    {rows : List (Row β)} (h : List.Forall₂ A plugins rows) :
    List.Forall₂ (fun p row => A p row ∧ PhaseLog.call? (calls rows) p.name phase = row.2)
      plugins rows := by
  induction h with
  | nil => exact .nil
  | @cons p row plugins rows hrow hrest ih =>
    rw [map_cons, nodup_cons] at hn
    have htitles := hrest.imp fun p row h => hA p row h
    refine .cons ⟨hrow, ?_⟩ ?_
    · rw [calls_cons, PhaseLog.call?, List.find?_append]
      cases hc : row.2 with
      | none => exact call?_eq_none htitles hn.1
      | some c => simp [hA p row hrow c hc]
    · have hmem : ∀ q ∈ plugins, q.name ≠ p.name := by
        rintro q hq heq
        exact hn.1 (heq ▸ mem_map_of_mem hq)
      refine ((forall₂_and_left _ _).mpr ⟨hmem, ih hn.2⟩).imp ?_
      rintro q row' ⟨hne, hq, hcall⟩
      refine ⟨hq, ?_⟩
      rw [calls_cons, PhaseLog.call?, List.find?_append, find?_title_eq_none fun c hc => ?apart,
        Option.none_or]
      · exact hcall
      · rw [hA p row hrow c (by simpa using hc)]
        simpa using Ne.symm hne

theorem find?_phase_eq_none (h : ∀ c ∈ log, c.phase ≠ phase) :
    log.find? (fun c => c.title = (name, phase)) = none :=
  find?_title_eq_none fun c hc heq => h c hc (congrArg Prod.snd heq)

theorem call?_append_left (h : ∀ c ∈ back, c.phase ≠ phase) :
    PhaseLog.call? (front ++ back) name phase = PhaseLog.call? front name phase := by
  rw [PhaseLog.call?, List.find?_append, find?_phase_eq_none h, Option.or_none]
  rfl

theorem call?_append_right (h : ∀ c ∈ front, c.phase ≠ phase) :
    PhaseLog.call? (front ++ back) name phase = PhaseLog.call? back name phase := by
  rw [PhaseLog.call?, List.find?_append, find?_phase_eq_none h, Option.none_or]
  rfl

end

/-! ### The three rounds of a run -/

section

variable {src : Sources} {project : Project} {table : RouteTable} {plugins : List Plugin}
  {α β : Type} {title : Text × Text} {sessions : List PluginSession}
  {rows : List (Row PluginSession)} {collects : PhaseLog}

theorem phase_of_round {due : α → Option (Text × Text)} {P : α → β → Option PhaseCall → Prop}
    {phase : Text} (hdue : ∀ a title, due a = some title → title.2 = phase) {l : List α}
    {rows : List (Row β)} (h : List.Forall₂ (HadTurn due P) l rows) :
    ∀ c ∈ calls rows, c.phase = phase := by
  intro c hc
  have hmem : c.title ∈ l.filterMap due := by
    rw [← titles_of_round h]
    exact mem_map_of_mem hc
  obtain ⟨a, -, ha⟩ := mem_filterMap.mp hmem
  exact hdue a _ ha

/-- A call is titled as what was due. -/
theorem title_of_hadTurn {due : α → Option (Text × Text)} {P : α → β → Option PhaseCall → Prop}
    {a : α} {row : Row β} (h : HadTurn due P a row) {x : Text × Text}
    (hdue : ∀ title, due a = some title → title = x) : ∀ c ∈ row.2, c.title = x := by
  intro c hc
  have hrow := h.due
  rw [Option.mem_def.mp hc] at hrow
  exact hdue _ hrow.symm

theorem dueCollect_eq_some {p : Plugin} (h : dueCollect p = some title) :
    title = (p.name, ("collect" : Text)) := by
  obtain ⟨phase, -, rfl⟩ := Option.map_eq_some_iff.mp h
  rfl

theorem dueUnlessFailed_eq_some {name : Text} {program : Plugin → Option (Phase Value)}
    {s : PluginSession} (h : dueUnlessFailed name program s = some title) :
    title = (s.plugin.name, name) := by
  unfold dueUnlessFailed at h
  split at h
  · cases h
  · obtain ⟨phase, -, rfl⟩ := Option.map_eq_some_iff.mp h
    rfl

/-- What is due of sessions that have not failed are the turns of their plugins. -/
theorem filterMap_dueUnlessFailed (name : Text) (program : Plugin → Option (Phase Value))
    {failure : Plugin → Option (Text × Text)}
    (h : List.Forall₂ (fun p s => s.plugin = p ∧ s.failure = failure p) plugins sessions) :
    sessions.filterMap (dueUnlessFailed name program) =
      PhaseLog.turns name program (plugins.filter fun p => (failure p).isNone) := by
  unfold PhaseLog.turns
  induction h with
  | nil => rfl
  | @cons p s _ _ hs _ ih =>
    obtain ⟨rfl, hf⟩ := hs
    rw [filterMap_cons, filter_cons, ih, dueUnlessFailed, hf]
    cases failure s.plugin with
    | some f => rfl
    | none => rw [Option.isNone_none, if_pos rfl, filterMap_cons]; rfl

/-- In a round of sessions that have not failed each plugin has the call of its own session. -/
theorem turns_of_sessions {name : Text} {program : Plugin → Option (Phase Value)}
    {A : Plugin → PluginSession → Prop}
    {P : PluginSession → PluginSession → Option PhaseCall → Prop}
    (hn : (plugins.map Plugin.name).Nodup) (hA : ∀ p s, A p s → s.plugin = p)
    (hs : List.Forall₂ A plugins sessions)
    (h : List.Forall₂ (HadTurn (dueUnlessFailed name program) P) sessions rows) :
    List.Forall₂ (fun p row =>
      (∃ s, A p s ∧ HadTurn (dueUnlessFailed name program) P s row) ∧
        PhaseLog.call? (calls rows) p.name name = row.2) plugins rows := by
  refine forall₂_call? name hn ?_
    (forall₂_chain (fun p s row hs hrow => Exists.intro s (And.intro hs hrow)) hs h)
  rintro p row ⟨s, hs, hrow⟩
  rw [← hA p s hs]
  exact title_of_hadTurn hrow fun _ => dueUnlessFailed_eq_some

/-- The plugins have collected. -/
structure CollectRound (src : Sources) (project : Project) (table : RouteTable)
    (plugins : List Plugin) (log : PhaseLog) (sessions : List PluginSession) : Prop where
  titles : log.map PhaseCall.title = PhaseLog.turns "collect" Plugin.collector plugins
  phase : ∀ c ∈ log, c.phase = "collect"
  goes : ∀ c ∈ log, c.halt? = none
  sessions : List.Forall₂ (fun p s => s.plugin = p ∧ s.failure = log.failure? p.name "collect" ∧
    s.store.HoldsTables ∧ s.derived = .null ∧ Collected src project table (fun _ => True) p s)
    plugins sessions

theorem collectRound_of_rows (hn : (plugins.map Plugin.name).Nodup)
    (h : List.Forall₂ (HadTurn dueCollect (Collects src project table)) plugins rows) :
    CollectRound src project table plugins (calls rows) (rows.map Prod.fst) where
  titles := titles_of_round h
  phase := phase_of_round (fun p title hp => by rw [dueCollect_eq_some hp]) h
  goes := goes_of_round h
  sessions := by
    rw [forall₂_map_right_iff]
    refine (forall₂_call? "collect" hn (fun p row hrow => title_of_hadTurn hrow fun _ =>
      dueCollect_eq_some) h).imp fun p row ⟨hrow, hcall⟩ => ?_
    have hcollected := hrow.holds.collected
    obtain ⟨cache, w, w', -, -, hopen⟩ := hcollected
    refine ⟨(opened_for_of_openAndCollect hopen).1, ?_, hrow.holds.tables, hrow.holds.derived,
      hrow.holds.collected⟩
    rw [hrow.holds.failure, PhaseLog.failure?, hcall]

/-- A plugin whose session has gone through its build phase, and what that gave. -/
def EndsBuilding (src : Sources) (project : Project) (table : RouteTable) (plugin : Plugin)
    (t : PluginSession) (v : Value) : Prop :=
  ∃ s w w', Collected src project table (fun _ => True) plugin s ∧ w.sources = src ∧
    runBuilder s w = .ok (t, v) w'

/-- The plugins that had not failed have built. -/
structure BuildRound (src : Sources) (project : Project) (table : RouteTable)
    (plugins : List Plugin) (collects log : PhaseLog) (sessions : List PluginSession) : Prop where
  titles : log.map PhaseCall.title = PhaseLog.turns "build" Plugin.buildPhase
    (plugins.filter fun p => (collects.failure? p.name "collect").isNone)
  phase : ∀ c ∈ log, c.phase = "build"
  goes : ∀ c ∈ log, c.halt? = none
  sessions : List.Forall₂ (fun p s => s.plugin = p ∧
    s.failure = (collects.failure? p.name "collect").or (log.failure? p.name "build") ∧
    (s.failure.isSome = true → s.derived = .null) ∧
    (s.failure = none → ∃ t, EndsBuilding src project table p t (log.value p.name "build") ∧
      DataOf t (log.value p.name "build") s.derived)) plugins sessions

theorem buildRound_of_rows (hn : (plugins.map Plugin.name).Nodup)
    (hc : CollectRound src project table plugins collects sessions)
    (h : List.Forall₂ (HadTurn (dueUnlessFailed "build" Plugin.buildPhase) (Builds src))
      sessions rows) :
    BuildRound src project table plugins collects (calls rows) (rows.map Prod.fst) where
  titles := by
    rw [titles_of_round h]
    exact filterMap_dueUnlessFailed _ _ (hc.sessions.imp fun p s hs => ⟨hs.1, hs.2.1⟩)
  phase := phase_of_round (fun s title hs => by rw [dueUnlessFailed_eq_some hs]) h
  goes := goes_of_round h
  sessions := by
    rw [forall₂_map_right_iff]
    refine (turns_of_sessions hn (fun p s hs => hs.1) hc.sessions h).imp ?_
    rintro p row ⟨⟨s, ⟨hplugin, hfailure, -, -, hcollected⟩, hrow⟩, hcall⟩
    have hbuilds := hrow.holds
    refine ⟨hbuilds.plugin.trans hplugin, ?_, hbuilds.none_of_failed, fun hf => ?_⟩
    · rw [hbuilds.failure, hfailure]
      unfold PhaseLog.failure?
      rw [hcall]
    · obtain ⟨t, v, w, w', hw, hrun, hv, hdata⟩ := hbuilds.data hf
      rw [PhaseLog.value, hcall, ← hv]
      exact ⟨t, ⟨s, w, w', hcollected, hw, hrun⟩, hdata⟩

/-- The plugins that had not failed have staged texts. -/
structure StageRound (src : Sources) (project : Project) (table : RouteTable)
    (plugins : List Plugin) (collects builds log : PhaseLog) (sessions : List PluginSession) :
    Prop where
  titles : log.map PhaseCall.title = PhaseLog.turns "rewrite" Plugin.stager (plugins.filter fun p =>
    ((collects.failure? p.name "collect").or (builds.failure? p.name "build")).isNone)
  phase : ∀ c ∈ log, c.phase = "rewrite"
  goes : ∀ c ∈ log, c.halt? = none
  sessions : List.Forall₂ (fun p s => s.failure =
      ((collects.failure? p.name "collect").or (builds.failure? p.name "build")).or
        (log.failure? p.name "rewrite") ∧
    (((collects.failure? p.name "collect").or (builds.failure? p.name "build")).isSome = true →
      s.derived = .null) ∧
    ((collects.failure? p.name "collect").or (builds.failure? p.name "build") = none →
      ∃ t, EndsBuilding src project table p t (builds.value p.name "build") ∧
        DataOf t (builds.value p.name "build") s.derived)) plugins sessions

theorem stageRound_of_rows (hn : (plugins.map Plugin.name).Nodup) {builds : PhaseLog}
    (hb : BuildRound src project table plugins collects builds sessions)
    (h : List.Forall₂ (HadTurn (dueUnlessFailed "rewrite" Plugin.stager) Stages) sessions rows) :
    StageRound src project table plugins collects builds (calls rows) (rows.map Prod.fst) where
  titles := by
    rw [titles_of_round h]
    exact filterMap_dueUnlessFailed _ _ (hb.sessions.imp fun p s hs => ⟨hs.1, hs.2.1⟩)
  phase := phase_of_round (fun s title hs => by rw [dueUnlessFailed_eq_some hs]) h
  goes := goes_of_round h
  sessions := by
    rw [forall₂_map_right_iff]
    refine (turns_of_sessions hn (fun p s hs => hs.1) hb.sessions h).imp ?_
    rintro p row ⟨⟨s, ⟨-, hfailure, hnull, hdata⟩, hrow⟩, hcall⟩
    rw [hfailure] at hnull hdata
    rw [hrow.holds.failure, hrow.holds.derived, hfailure, ← hcall]
    exact ⟨rfl, hnull, hdata⟩

end

/-! ### Logs of runs -/

/-- A phase has ended a run before anything was written: the call of it is the last one, and the run
raises its fault. -/
def HaltedAt (r : Setup) (w w' : World) (log : PhaseLog) : Prop :=
  ∃ front last e, log = front ++ [last] ∧ (∀ c ∈ front, c.halt? = none) ∧ last.halt? = some e ∧
    r.logged (w, []) = .error e (w', log) ∧ r.run w = .error e w' ∧ w'.files = w.files

theorem haltedAt_of_logged {r : Setup} {w w' : World} {front : PhaseLog} {last : PhaseCall}
    {e : Fault} (h : r.logged (w, []) = .error e (w', front ++ [last]))
    (hgoes : ∀ c ∈ front, c.halt? = none) (he : last.halt? = some e)
    (hw : w'.sources = w.sources) : HaltedAt r w w' (front ++ [last]) := by
  have hsessions : r.sessions w = .error e w' := by
    rw [← erases_logged r w [], h]
    rfl
  refine ⟨front, last, e, rfl, hgoes, he, h, ?_, congrArg Sources.files hw⟩
  exact bind_of_error hsessions

/-- The files over which routes were resolved have the project root. -/
theorem exists_root_of_routes {r : Setup} {w w0 : World} {routes : RouteTable × ParseCache}
    (h : r.routes w = .ok routes w0) :
    ∃ root, w.sources.files.resolve r.project.root = .ok root := by
  obtain ⟨table, cache⟩ := routes
  obtain ⟨t, u, ht, hprepare⟩ := routes_eq_ok h
  obtain ⟨snapshot, store, hresolve⟩ := prepare_eq_ok hprepare
  obtain ⟨⟨⟩, s1, -, hresolve⟩ := bind_eq_ok.mp hresolve
  obtain ⟨graph, s2, hattach, -⟩ := bind_eq_ok.mp hresolve
  obtain ⟨root, s3, hroot, -⟩ := bind_eq_ok.mp hattach
  rw [← ht]
  exact ⟨root, (lift_eq_ok.mp hroot).1⟩

/-- How a plugin fares in a run of which a log is kept: its session goes through its own phases and
no others, its failure is the first one of its calls, and its data is what it had when it had
built. -/
structure Fares (src : Sources) (project : Project) (table : RouteTable) (log : PhaseLog)
    (plugin : Plugin) (s : PluginSession) : Prop where
  life : Life src project table (fun _ => True) plugin s
  failure : s.failure = log.firstFailure? plugin.name
  data : log.failure? plugin.name "collect" = none → log.failure? plugin.name "build" = none →
    ∃ t, EndsBuilding src project table plugin t (log.value plugin.name "build") ∧
      DataOf t (log.value plugin.name "build") s.derived
  none_of_failed : log.failure? plugin.name "collect" ≠ none ∨
    log.failure? plugin.name "build" ≠ none → s.derived = .null

section

variable {r : Setup} {w w0 : World} {table : RouteTable} {cache : ParseCache}

theorem logged_of_routes (h : r.routes w = .ok (table, cache) w0) :
    r.logged (w, []) = (do
      let sessions ← Logged.collectAll r.project table cache r.plugins
      let sessions ← sessions.mapM Logged.buildUnlessFailed
      sessions.mapM Logged.stageUnlessFailed) (w0, []) := by
  have hplain : LoggedRun.plain r.routes (w, []) = .ok (table, cache) (w0, []) := by
    unfold LoggedRun.plain
    dsimp only
    rw [h]
  rw [Setup.logged, bind_of_ok hplain]

section

variable {collects builds rest : PhaseLog} (hc : ∀ c ∈ collects, c.phase = "collect")
  (hb : ∀ c ∈ builds, c.phase = "build") (hr : ∀ c ∈ rest, c.phase = "rewrite")

include hb hr in
theorem call?_collect_of_rounds (name : Text) :
    PhaseLog.call? (collects ++ builds ++ rest) name "collect" = collects.call? name "collect" := by
  rw [call?_append_left fun c hm => by rw [hr c hm]; decide,
    call?_append_left fun c hm => by rw [hb c hm]; decide]

include hc hr in
theorem call?_build_of_rounds (name : Text) :
    PhaseLog.call? (collects ++ builds ++ rest) name "build" = builds.call? name "build" := by
  rw [call?_append_left fun c hm => by rw [hr c hm]; decide,
    call?_append_right fun c hm => by rw [hc c hm]; decide]

include hc hb hr

/-- The phases that are due after rounds, by what failed in each of them. -/
theorem schedule_of_rounds (plugins : List Plugin) :
    PhaseLog.schedule (collects ++ builds ++ rest) plugins =
      PhaseLog.turns "collect" Plugin.collector plugins ++
        PhaseLog.turns "build" Plugin.buildPhase
          (plugins.filter fun p => (collects.failure? p.name "collect").isNone) ++
        PhaseLog.turns "rewrite" Plugin.stager (plugins.filter fun p =>
          ((collects.failure? p.name "collect").or (builds.failure? p.name "build")).isNone) := by
  unfold PhaseLog.schedule PhaseLog.failure?
  simp only [call?_collect_of_rounds hb hr, call?_build_of_rounds hc hr]

end

/-- A round that was ended has run the phases of one name. -/
theorem phase_of_halted {name : Text} {program : Plugin → Option (Phase Value)}
    {P : PluginSession → PluginSession → Option PhaseCall → Prop} {front : List PluginSession}
    {s : PluginSession} {rows : List (Row PluginSession)} {call : PhaseCall}
    (h : List.Forall₂ (HadTurn (dueUnlessFailed name program) P) front rows)
    (hdue : some call.title = dueUnlessFailed name program s) :
    ∀ c ∈ calls rows ++ [call], c.phase = name :=
  forall_mem_concat.mpr ⟨phase_of_round (fun s title hs => by rw [dueUnlessFailed_eq_some hs]) h,
    congrArg Prod.snd (dueUnlessFailed_eq_some hdue.symm)⟩

variable {collects builds : PhaseLog} {front back : List PluginSession} {s : PluginSession}
  {rows : List (Row PluginSession)} {call : PhaseCall}

/-- The phases of a run that is ended as a plugin builds are the first of those that are due. -/
theorem titles_of_halted_build
    (hc : CollectRound w.sources r.project table r.plugins collects (front ++ s :: back))
    (h : List.Forall₂ (HadTurn (dueUnlessFailed "build" Plugin.buildPhase) (Builds w.sources))
      front rows)
    (hdue : some call.title = dueUnlessFailed "build" Plugin.buildPhase s) :
    (collects ++ (calls rows ++ [call])).map PhaseCall.title <+:
      PhaseLog.schedule (collects ++ (calls rows ++ [call])) r.plugins := by
  have hschedule := schedule_of_rounds hc.phase (phase_of_halted h hdue)
    (by simp : ∀ c ∈ ([] : PhaseLog), c.phase = "rewrite") r.plugins
  have hturns := filterMap_dueUnlessFailed "build" Plugin.buildPhase
    (hc.sessions.imp fun p s hs => ⟨hs.1, hs.2.1⟩)
  rw [append_nil] at hschedule
  rw [hschedule, map_append, hc.titles, ← hturns]
  have hfront := (prefix_append_right_inj (PhaseLog.turns "collect" Plugin.collector
    r.plugins)).mpr (titles_of_halted h hdue back)
  exact hfront.trans (prefix_append _ _)

/-- The phases of a run that is ended as a plugin stages texts are the first of those that are
due. -/
theorem titles_of_halted_stage {collected : List PluginSession}
    (hc : CollectRound w.sources r.project table r.plugins collects collected)
    (hb : BuildRound w.sources r.project table r.plugins collects builds (front ++ s :: back))
    (h : List.Forall₂ (HadTurn (dueUnlessFailed "rewrite" Plugin.stager) Stages) front rows)
    (hdue : some call.title = dueUnlessFailed "rewrite" Plugin.stager s) :
    (collects ++ builds ++ (calls rows ++ [call])).map PhaseCall.title <+:
      PhaseLog.schedule (collects ++ builds ++ (calls rows ++ [call])) r.plugins := by
  have hturns := filterMap_dueUnlessFailed "rewrite" Plugin.stager
    (hb.sessions.imp fun p s hs => ⟨hs.1, hs.2.1⟩)
  rw [schedule_of_rounds hc.phase hb.phase (phase_of_halted h hdue), map_append,
    map_append, hc.titles, hb.titles, ← hturns]
  exact (prefix_append_right_inj _).mpr (titles_of_halted h hdue back)

/-- A run whose routes are resolved goes through its three rounds, or one of its phases ends it. -/
theorem logged_cases (hroutes : r.routes w = .ok (table, cache) w0) (hnodup : r.names.Nodup)
    (hopens : ∀ plugin ∈ r.plugins, Opens w.sources r.project plugin)
    (hkeeps : ∀ plugin ∈ r.plugins, plugin.KeepsTables) :
    (∃ collects builds stages collected built staged w',
      r.logged (w, []) = .ok staged (w', collects ++ builds ++ stages) ∧
      CollectRound w.sources r.project table r.plugins collects collected ∧
      BuildRound w.sources r.project table r.plugins collects builds built ∧
      StageRound w.sources r.project table r.plugins collects builds stages staged) ∨
    ∃ log w', log.map PhaseCall.title <+: log.schedule r.plugins ∧ HaltedAt r w w' log := by
  have hlogged := logged_of_routes hroutes
  have hw0 : w0.sources = w.sources := (moves_routes r).of_ok hroutes
  have hfirst := round_collectAll hopens hkeeps table cache [] hw0
  generalize hx : Logged.collectAll r.project table cache r.plugins (w0, []) = x at hfirst
  cases hfirst with
  | @halt front back plugin rows e call w' hl hw' h hdue he =>
    rw [bind_of_error hx] at hlogged
    refine .inr ⟨_, w', ?_, haltedAt_of_logged hlogged (goes_of_round h) he hw'⟩
    have hfront := titles_of_halted h hdue back
    rw [← hl] at hfront
    exact (hfront.trans (prefix_append _ _)).trans (prefix_append _ _)
  | @ok rows w1 hw1 h =>
    have hc := collectRound_of_rows hnodup h
    rw [bind_of_ok hx] at hlogged
    have hready : ∀ s ∈ rows.map Prod.fst,
        s.plugin.KeepsTables ∧ s.store.HoldsTables ∧ s.derived = .null := by
      intro s hs
      obtain ⟨p, hp, rfl, -, htables, hnull, -⟩ := exists_of_forall₂_left hc.sessions.flip hs
      exact ⟨hkeeps _ hp, htables, hnull⟩
    have hsecond := round_mapM (fun s hs w log hw =>
      turn_buildUnlessFailed (hready s hs).1 (hready s hs).2.1 (hready s hs).2.2 log hw)
      ([] ++ calls rows) hw1
    generalize hx1 : (rows.map Prod.fst).mapM Logged.buildUnlessFailed (w1, [] ++ calls rows) = x1
      at hsecond
    rw [nil_append] at hlogged hx1 hsecond
    cases hsecond with
    | @halt front back s rows2 e call w' hl hw' h2 hdue he =>
      rw [hl] at hc
      have hfront := titles_of_halted_build hc h2 hdue
      rw [bind_of_error hx1, ← append_assoc] at hlogged
      rw [← append_assoc] at hfront
      exact .inr ⟨_, w', hfront, haltedAt_of_logged hlogged
        (forall_mem_append.mpr ⟨hc.goes, goes_of_round h2⟩) he hw'⟩
    | @ok rows2 w2 hw2 h2 =>
      have hb := buildRound_of_rows hnodup hc h2
      rw [bind_of_ok hx1] at hlogged
      have hthird := round_mapM (fun s _ w log hw => turn_stageUnlessFailed s log hw)
        (l := rows2.map Prod.fst) (calls rows ++ calls rows2) hw2
      generalize hx2 : (rows2.map Prod.fst).mapM Logged.stageUnlessFailed
        (w2, calls rows ++ calls rows2) = x2 at hthird hlogged
      cases hthird with
      | @halt front back s rows3 e call w' hl hw' h3 hdue he =>
        rw [hl] at hb
        have hfront := titles_of_halted_stage hc hb h3 hdue
        rw [← append_assoc] at hlogged hfront
        have hgoes := forall_mem_append.mpr ⟨hc.goes, hb.goes⟩
        exact .inr ⟨_, w', hfront, haltedAt_of_logged hlogged
          (forall_mem_append.mpr ⟨hgoes, goes_of_round h3⟩) he hw'⟩
      | @ok rows3 w3 hw3 h3 =>
        exact .inl ⟨_, _, _, _, _, _, w3, hlogged, hc, hb, stageRound_of_rows hnodup hb h3⟩

end

theorem filterMap_eq_of_forall₂ {α β γ : Type} {f : α → Option γ} {g : β → Option γ} {l : List α}
    {m : List β} (h : List.Forall₂ (fun a b => f a = g b) l m) :
    l.filterMap f = m.filterMap g := by
  induction h with
  | nil => rfl
  | cons hab _ ih => rw [filterMap_cons, filterMap_cons, hab, ih]

variable {r : Setup} {w w0 w' : World} {table : RouteTable} {cache : ParseCache}
  {sessions : List PluginSession}

/-- The sessions that a run comes to commit are the ends of lives with its own routes. -/
theorem lives_of_routes (hroutes : r.routes w = .ok (table, cache) w0)
    (hs : r.sessions w = .ok sessions w') :
    List.Forall₂ (Life w.sources r.project table fun _ => True) r.plugins sessions := by
  obtain ⟨table', cache', t, u, ht, hprepare, hlives⟩ := lives_of_sessions hs
  obtain ⟨t', u', ht', hprepare'⟩ := routes_eq_ok hroutes
  obtain ⟨_, _, hresolve⟩ := prepare_eq_ok hprepare
  obtain ⟨_, _, hresolve'⟩ := prepare_eq_ok hprepare'
  rw [ht] at hresolve
  rw [ht', hresolve] at hresolve'
  cases hresolve'
  exact hlives trivial fun _ _ _ _ _ _ => trivial

/-- In a run that went through its rounds, each plugin fares as the log tells. -/
theorem fares_of_rounds {collects builds stages : PhaseLog} {collected built : List PluginSession}
    (hroutes : r.routes w = .ok (table, cache) w0) (hs : r.sessions w = .ok sessions w')
    (hc : CollectRound w.sources r.project table r.plugins collects collected)
    (hb : BuildRound w.sources r.project table r.plugins collects builds built)
    (hg : StageRound w.sources r.project table r.plugins collects builds stages sessions) :
    List.Forall₂ (Fares w.sources r.project table (collects ++ builds ++ stages)) r.plugins
      sessions := by
  have hcollect := @call?_collect_of_rounds collects _ _ hb.phase hg.phase
  have hbuild := @call?_build_of_rounds _ builds _ hc.phase hg.phase
  have hstage (name : Text) : PhaseLog.call? (collects ++ builds ++ stages) name "rewrite" =
      stages.call? name "rewrite" := by
    rw [append_assoc, call?_append_right fun c hm => by rw [hc.phase c hm]; decide,
      call?_append_right fun c hm => by rw [hb.phase c hm]; decide]
  refine List.Forall₂.mp ?_ (lives_of_routes hroutes hs) hg.sessions
  rintro plugin s hlife ⟨hfailure, hnull, hdata⟩
  constructor
  · exact hlife
  · unfold PhaseLog.firstFailure? PhaseLog.failure?
    rw [hcollect, hbuild, hstage]
    exact hfailure
  · unfold PhaseLog.failure? PhaseLog.value
    rw [hcollect, hbuild]
    intro hnone hnone'
    refine hdata ?_
    unfold PhaseLog.failure?
    rw [hnone, hnone']
    rfl
  · unfold PhaseLog.failure?
    rw [hcollect, hbuild]
    intro hfailed
    refine hnull ?_
    rw [Option.isSome_or, Bool.or_eq_true, Option.isSome_iff_ne_none, Option.isSome_iff_ne_none]
    exact hfailed

namespace Sample

/-- A plugin that fails as it collects, with phases after that one. -/
def earlyFailing : Plugin :=
  ⟨"a", .map [], some (.fail .noSuchItem), some (.done (.int 1)), none, some (.done .null)⟩

/-- A plugin that builds what cannot be kept. -/
def badBuilder : Plugin :=
  ⟨"b", .map [], none, some (.done (.object "x")), none, some (.done .null)⟩

/-- A plugin that saves a value, and fails as it stages texts. -/
def lateFailing : Plugin :=
  ⟨"c", .map [], some (.ask (.save (.int 7)) fun _ => .done .null), none, none,
    some (.fail .noSuchItem)⟩

/-- A plugin that collects a value and builds nothing. -/
def collecting : Plugin :=
  ⟨"d", .map [], some (.ask (.collect (.int 5)) fun _ => .done .null), none, some (.done .null),
    some (.done .null)⟩

def fourPlugins : List Plugin := [earlyFailing, badBuilder, lateFailing, collecting]

/-- A plugin whose configuration is found to be wrong as it builds. -/
def misconfigured : Plugin :=
  ⟨"p", .map [], none, some (.fail (.raised "ConfigurationError" "c")), none, none⟩

/-- A plugin that ends its own store as it collects. -/
def ending : Plugin :=
  ⟨"p", .map [], some (.ask (.store .finish) fun _ => .done .null), none, none, none⟩

/-- A plugin whose configuration is found to be wrong as it collects. -/
def refusing : Plugin :=
  ⟨"q", .map [], some (.fail (.raised "ConfigurationError" "c")), none, none, none⟩

/-- Lists within lists. -/
def nested : Nat → Value
  | 0 => .list []
  | n + 1 => .list [nested n]

/-- A plugin that builds what lies too deep. -/
def deepBuilder : Plugin := ⟨"p", .map [], none, some (.done (nested 400)), none, none⟩

/-- The phases that are due of a plugin that ends its store and of another one. -/
def endedTurns : List (Text × Text) := [("p", "collect"), ("q", "collect")]

/-- The phases that four plugins run, one of which fails in each round. -/
def fourTurns : List (Text × Text) :=
  [("a", "collect"), ("c", "collect"), ("d", "collect"), ("b", "build"), ("d", "build"),
    ("c", "rewrite"), ("d", "rewrite")]

/-- The whole numbers of some data. -/
def numbersOf : Json → List Int
  | .int n => [n]
  | .arr items => items.filterMap fun v => match v with
    | .int n => some n
    | _ => none
  | _ => []

/-- In which phases they failed, and the numbers in their data. -/
def fourEnds : List (Option Text × List Int) :=
  [(some "collect", []), (some "build", []), (some "rewrite", [7]), (none, [5])]

/-- The phases of a run that a plugin ends as it builds. -/
def stoppedTurns : List (Text × Text) := [("d", "collect"), ("p", "build")]

theorem keepsTables_of_lasting {plugin : Plugin}
    (hc : ∀ phase ∈ plugin.collector, phase.Lasting)
    (hb : ∀ phase ∈ plugin.buildPhase, phase.Lasting)
    (hs : ∀ phase ∈ plugin.stager, phase.Lasting) : plugin.KeepsTables := by
  rintro phase (h | h | h)
  · exact (hc phase h).keepsTables
  · exact (hb phase h).keepsTables
  · exact (hs phase h).keepsTables

theorem keepsTables_earlyFailing : earlyFailing.KeepsTables := by
  apply keepsTables_of_lasting <;> rintro _ ⟨⟩
  · exact .fail _
  · exact .done _
  · exact .done _

theorem keepsTables_badBuilder : badBuilder.KeepsTables := by
  apply keepsTables_of_lasting <;> rintro _ ⟨⟩
  · exact .done _
  · exact .done _

theorem keepsTables_lateFailing : lateFailing.KeepsTables := by
  apply keepsTables_of_lasting <;> rintro _ ⟨⟩
  · exact .ask _ _ rfl fun _ => .done _
  · exact .fail _

theorem keepsTables_collecting : collecting.KeepsTables := by
  apply keepsTables_of_lasting <;> rintro _ ⟨⟩
  · exact .ask _ _ rfl fun _ => .done _
  · exact .done _
  · exact .done _

theorem keepsTables_misconfigured : misconfigured.KeepsTables := by
  apply keepsTables_of_lasting <;> rintro _ ⟨⟩
  exact .fail _

end Sample

open Sample

end Pipeline

end RoutePlugins
