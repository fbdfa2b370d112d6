import RoutePlugins.Proofs.Pipeline.PhaseLog
import RoutePlugins.Proofs.Plugin.LastingTables

/-!
# The turns of plugins

In each round of a run the plugins have their turns: a turn makes one call of a phase, or none if
the plugin has no such phase or has failed. A turn in which a phase fails is over like any other
one; only a fault of configuration or an interruption ends the round. What a session has failed
with, and what data it has, can be told from the call that was made in its turn, as long as the
phases leave the tables of the session in place.
-/

namespace RoutePlugins

variable {v : Value} {w' : World}

/-- A value, or another one in place of nothing. -/
def Value.ifNull : Value → Value → Value
  | .null, w => w
  | v, _ => v

theorem Value.ifNull_of_ne (h : v ≠ .null) (w : Value) : v.ifNull w = v := by
  cases v with
  | null => exact absurd rfl h
  | _ => rfl

theorem Value.keepBuilt_ifNull {w : Value} {j k : Json} (hv : v.keepBuilt = .ok j)
    (hw : w.keepBuilt = .ok k) : ∃ data, (v.ifNull w).keepBuilt = .ok data := by
  by_cases h : v = .null
  · rw [h]
    exact ⟨k, hw⟩
  · rw [Value.ifNull_of_ne h]
    exact ⟨j, hv⟩

namespace Pipeline

open World LoggedRun

/-! ### Steps that make one call -/

section

variable {src : Sources} {log : PhaseLog} {α β : Type}

/-- How a step ends that makes the call that is due, if one is: it gives something, or the call ends
the run. -/
inductive Turn (src : Sources) (log : PhaseLog) (due : Option (Text × Text))
    (P : α → Option PhaseCall → Prop) : EStateM.Result Fault (World × PhaseLog) α → Prop
  | ok {a : α} {call : Option PhaseCall} {w : World} (hw : w.sources = src)
      (hdue : call.map PhaseCall.title = due) (hgoes : ∀ c ∈ call, c.halt? = none)
      (h : P a call) : Turn src log due P (.ok a (w, log ++ call.toList))
  | halt {e : Fault} {call : PhaseCall} {w : World} (hw : w.sources = src)
      (hdue : some call.title = due) (he : call.halt? = some e) :
      Turn src log due P (.error e (w, log ++ [call]))

variable {due : Option (Text × Text)} {P : α → Option PhaseCall → Prop} {w : World}

theorem Turn.imp {Q : α → Option PhaseCall → Prop} (hpq : ∀ a call, P a call → Q a call)
    {x : EStateM.Result Fault (World × PhaseLog) α} (h : Turn src log due P x) :
    Turn src log due Q x := by
  cases h with
  | ok hw hdue hgoes h => exact .ok hw hdue hgoes (hpq _ _ h)
  | halt hw hdue he => exact .halt hw hdue he

/-- A step that makes no call. -/
theorem Turn.of_ok {x : EStateM.Result Fault (World × PhaseLog) α} {a : α} (hw : w'.sources = src)
    (h : P a none) (hx : x = .ok a (w', log)) : Turn src log none P x := by
  have ht : Turn src log none P (.ok a (w', log ++ (none : Option PhaseCall).toList)) :=
    .ok hw rfl (by simp) h
  rw [hx]
  simpa using ht

/-- A step that makes a call after which the run goes on. -/
theorem Turn.of_call {a : α} {c : PhaseCall} (hw : w'.sources = src) (hgoes : c.halt? = none)
    (h : P a (some c)) : Turn src log (some c.title) P (.ok a (w', log ++ [c])) := by
  have hgo : ∀ d ∈ some c, d.halt? = none := by
    rintro d ⟨⟩
    exact hgoes
  exact .ok hw rfl hgo h

/-- After the call, a step may go on without another one. -/
theorem Turn.bind {m : LoggedRun α} {f : α → LoggedRun β} {Q : β → Option PhaseCall → Prop}
    (h : Turn src log due P (m (w, log)))
    (hf : ∀ a call w' log', w'.sources = src → P a call →
      ∃ b w'', f a (w', log') = .ok b (w'', log') ∧ w''.sources = src ∧ Q b call) :
    Turn src log due Q ((m >>= f) (w, log)) := by
  generalize hm : m (w, log) = x at h
  cases h with
  | ok hw hdue hgoes h =>
    obtain ⟨b, w'', hb, hw'', hq⟩ := hf _ _ _ _ hw h
    rw [bind_of_ok hm, hb]
    exact .ok hw'' hdue hgoes hq
  | halt hw hdue he =>
    rw [bind_of_error hm]
    exact .halt hw hdue he

/-- A step that comes after one without a call. -/
theorem Turn.after {m : Run α} {f : α → LoggedRun β} {Q : β → Option PhaseCall → Prop} {a : α}
    (hm : m w = .ok a w') (h : Turn src log due Q (f a (w', log))) :
    Turn src log due Q ((LoggedRun.plain m >>= f) (w, log)) := by
  have hp : LoggedRun.plain m (w, log) = .ok a (w', log) := by
    unfold LoggedRun.plain
    dsimp only
    rw [hm]
  rwa [bind_of_ok hp]

/-- What a step gives, the step without its log gives as well. -/
theorem Turn.erased {m : LoggedRun α} {n : Run α} (h : Turn src log due P (m (w, log)))
    (hm : m.Erases n) :
    Turn src log due (fun a call => P a call ∧ ∃ w', n w = .ok a w') (m (w, log)) := by
  have hn := hm w log
  generalize m (w, log) = x at h hn
  cases h with
  | ok hw hdue hgoes h => exact .ok hw hdue hgoes ⟨h, _, hn.symm⟩
  | halt hw hdue he => exact .halt hw hdue he

end

/-! ### Rounds of steps -/

section

variable {w : World}

variable {src : Sources} {α β : Type}

/-- What one item of a round came to, with the call that was made for it. -/
abbrev Row (β : Type) := β × Option PhaseCall

/-- The calls of a round, in their order. -/
def calls (rows : List (Row β)) : PhaseLog := rows.filterMap Prod.snd

/-- An item had its turn, and the run went on. -/
structure HadTurn (due : α → Option (Text × Text)) (P : α → β → Option PhaseCall → Prop) (a : α)
    (row : Row β) : Prop where
  due : row.2.map PhaseCall.title = due a
  goes : ∀ c ∈ row.2, c.halt? = none
  holds : P a row.1 row.2

/-- How a round of steps ends: each item has had its turn, or the call of one of them has ended the
run. -/
inductive Round (src : Sources) (log : PhaseLog) (due : α → Option (Text × Text))
    (P : α → β → Option PhaseCall → Prop) (l : List α) :
    EStateM.Result Fault (World × PhaseLog) (List β) → Prop
  | ok {rows : List (Row β)} {w : World} (hw : w.sources = src)
      (h : List.Forall₂ (HadTurn due P) l rows) :
      Round src log due P l (.ok (rows.map Prod.fst) (w, log ++ calls rows))
  | halt {front back : List α} {a : α} {rows : List (Row β)} {e : Fault} {call : PhaseCall}
      {w : World} (hl : l = front ++ a :: back) (hw : w.sources = src)
      (h : List.Forall₂ (HadTurn due P) front rows) (hdue : some call.title = due a)
      (he : call.halt? = some e) :
      Round src log due P l (.error e (w, log ++ (calls rows ++ [call])))

variable {due : α → Option (Text × Text)} {P : α → β → Option PhaseCall → Prop} {log : PhaseLog}

theorem calls_cons (row : Row β) (rows : List (Row β)) :
    calls (row :: rows) = row.2.toList ++ calls rows := by
  unfold calls
  cases h : row.2 with
  | none => simp [h]
  | some c => simp [h]

theorem Round.nil (hw : w.sources = src) : Round src log due P [] (.ok [] (w, log)) := by
  have h : Round src log due P [] (.ok [] (w, log ++ calls ([] : List (Row β)))) := .ok hw .nil
  rwa [calls, List.filterMap_nil, List.append_nil] at h

/-- A round goes on after an item that had its turn. -/
theorem Round.cons {a : α} {l : List α} {row : Row β} {m : LoggedRun (List β)}
    (hrow : HadTurn due P a row)
    (h : Round src (log ++ row.2.toList) due P l (m (w, log ++ row.2.toList))) :
    Round src log due P (a :: l)
      ((m >>= fun bs => pure (row.1 :: bs)) (w, log ++ row.2.toList)) := by
  generalize hm : m (w, log ++ row.2.toList) = x at h
  cases h with
  | ok hw h =>
    rw [bind_of_ok hm, List.append_assoc, ← calls_cons]
    exact .ok hw (.cons hrow h)
  | halt hl hw h hdue he =>
    rw [bind_of_error hm, List.append_assoc, ← List.append_assoc row.2.toList, ← calls_cons]
    exact .halt (by rw [hl]; rfl) hw (.cons hrow h) hdue he

/-- The first item of a round has its turn. -/
theorem Round.bind {a : α} {l : List α} {m : LoggedRun β} {f : β → LoggedRun (List β)}
    (h : Turn src log (due a) (P a) (m (w, log)))
    (hf : ∀ row : Row β, HadTurn due P a row → ∀ w', w'.sources = src →
      Round src log due P (a :: l) (f row.1 (w', log ++ row.2.toList))) :
    Round src log due P (a :: l) ((m >>= f) (w, log)) := by
  generalize hm : m (w, log) = x at h
  cases h with
  | @ok b call w' hw hdue hgoes h =>
    rw [bind_of_ok hm]
    exact hf (b, call) ⟨hdue, hgoes, h⟩ w' hw
  | halt hw hdue he =>
    rw [bind_of_error hm]
    have hl : a :: l = [] ++ a :: l := rfl
    exact .halt hl hw .nil hdue he

/-- A traversal in which each item has its turn is a round. -/
theorem round_mapM {step : α → LoggedRun β} {l : List α}
    (h : ∀ a ∈ l, ∀ w log, w.sources = src → Turn src log (due a) (P a) (step a (w, log)))
    (log : PhaseLog) (hw : w.sources = src) : Round src log due P l (l.mapM step (w, log)) := by
  induction l generalizing w log with
  | nil => exact .nil hw
  | cons a l ih =>
    rw [List.mapM_cons]
    refine .bind (h a (by simp) w log hw) fun row hrow w' hw' => ?_
    exact .cons hrow (ih (fun b hb => h b (by simp [hb])) _ hw')

/-- The calls of a round are those that were due. -/
theorem titles_of_round {l : List α} {rows : List (Row β)}
    (h : List.Forall₂ (HadTurn due P) l rows) :
    (calls rows).map PhaseCall.title = l.filterMap due := by
  induction h with
  | nil => rfl
  | @cons a row _ _ hrow _ ih =>
    rw [calls_cons, List.map_append, ih, List.filterMap_cons, ← hrow.due]
    cases row.2 with
    | none => rfl
    | some c => rfl

theorem goes_of_round {l : List α} {rows : List (Row β)}
    (h : List.Forall₂ (HadTurn due P) l rows) : ∀ c ∈ calls rows, c.halt? = none := by
  induction h with
  | nil => simp [calls]
  | cons hrow _ ih =>
    rw [calls_cons]
    exact List.forall_mem_append.mpr ⟨fun c hc => hrow.goes c (by simpa using hc), ih⟩

/-- The calls of a round that was ended are the first of those that were due. -/
theorem titles_of_halted {front : List α} {a : α} {rows : List (Row β)} {call : PhaseCall}
    (h : List.Forall₂ (HadTurn due P) front rows) (hdue : some call.title = due a)
    (back : List α) :
    (calls rows ++ [call]).map PhaseCall.title <+: (front ++ a :: back).filterMap due := by
  rw [List.map_append, titles_of_round h, List.filterMap_append, List.filterMap_cons, ← hdue]
  exact ⟨back.filterMap due, by simp⟩

end

/-! ### The turns of a session -/

section

variable {src : Sources} {log : PhaseLog} {w : World}

theorem exists_begins (title : Text) (hw : w.sources = src) :
    ∃ u, Run.begins title w = .ok () u ∧ u.sources = src := ⟨_, rfl, hw⟩

/-- What running a phase makes of a session: it stays as the phase leaves it, or it has failed with
what the phase raised. -/
structure Ran (s : PluginSession) (name : Text) (phase : Phase Value) (s' : PluginSession)
    (v : Value) (c : PhaseCall) : Prop where
  title : c.title = (s.plugin.name, name)
  ended : c.outcome = .ok v ∧ s'.failure = s.failure ∨
    ∃ e, c.outcome = .error e ∧ v = .null ∧ s'.failure = some (name, e.report)
  plugin : s'.plugin = s.plugin
  derived : s'.derived = s.derived
  tables : phase.KeepsTables → s.store.HoldsTables → s'.store.HoldsTables
  shallow : name = "build" → v.keepBuilt ≠ .error .depth

/-- A phase has its turn, unless it builds what lies too deep. -/
theorem turn_runPhase (log : PhaseLog) (s : PluginSession) (name : Text) (phase : Phase Value)
    (hw : w.sources = src) (hdepth : ∀ v t, phase.run ⟨w, s⟩ = .ok v t → name = "build" →
      v.keepBuilt ≠ .error .depth) :
    Turn src log (some (s.plugin.name, name))
      (fun p call => ∃ c, call = some c ∧ Ran s name phase p.1 p.2 c)
      (Logged.runPhase s name phase (w, log)) := by
  have hframe := phase.moves_run ⟨w, s⟩
  have htables : phase.KeepsTables → s.store.HoldsTables →
      (endState (phase.run ⟨w, s⟩)).session.store.HoldsTables := fun hk hs => hk ⟨w, s⟩ hs
  unfold Logged.runPhase LoggedRun.plain runPhase
  dsimp only
  cases hrun : phase.run ⟨w, s⟩ with
  | ok v t =>
    rw [hrun] at hframe htables
    have hsession : t.session = { s with store := t.session.store, config := t.session.config } :=
      hframe.session
    have hgoes : PhaseCall.halt? ⟨s.plugin.name, name, .ok v⟩ = none := by
      refine if_neg fun hdeep => ?_
      obtain ⟨hname, _, ⟨⟩, hv⟩ := PhaseCall.buildsTooDeep_iff.mp hdeep
      exact hdepth v t hrun hname hv
    refine Turn.of_call (hframe.sources.trans hw) hgoes ⟨_, rfl, ?_⟩
    exact ⟨rfl, .inl ⟨rfl, by rw [hsession]⟩, by rw [hsession], by rw [hsession], htables,
      hdepth v t hrun⟩
  | error e t =>
    rw [hrun] at hframe htables
    have hsession : t.session = { s with store := t.session.store, config := t.session.config } :=
      hframe.session
    by_cases he : (e.isConfiguration || e.isInterruption) = true
    · simp only [he, if_true]
      exact .halt (hframe.sources.trans hw) rfl (if_pos he)
    · simp only [he]
      change Turn src log _ _ (.ok ({ t.session with failure := some (name, e.report) }, Value.null)
        (endState (failPhase t.session name e.report t.world),
          log ++ [⟨s.plugin.name, name, .error e⟩]))
      have hgoes : PhaseCall.halt? ⟨s.plugin.name, name, .error e⟩ = none := if_neg he
      have hplugin : t.session.plugin = s.plugin := by rw [hsession]
      have hderived : t.session.derived = s.derived := by rw [hsession]
      have hfailed : (endState (failPhase t.session name e.report t.world)).sources = src :=
        hframe.sources.trans hw
      refine Turn.of_call hfailed hgoes ?_
      exact ⟨_, rfl, rfl, .inr ⟨e, rfl, rfl, rfl⟩, hplugin, hderived, htables, fun _ => nofun⟩

variable {s : PluginSession} {project : Project}

/-- What a phase that does not build makes of a session that has not failed. -/
theorem Ran.failure {s' : PluginSession} {name : Text} {phase : Phase Value} {c : PhaseCall}
    (h : Ran s name phase s' v c) (hs : s.failure = none) (hn : name ≠ "build") :
    s'.failure = c.failure? := by
  have hphase : c.phase = name := congrArg Prod.snd h.title
  unfold PhaseCall.failure?
  obtain ⟨ho, hf⟩ | ⟨e, ho, -, hf⟩ := h.ended
  · rw [ho, hf, hs, hphase]
    dsimp only
    split
    · rfl
    · rw [if_neg fun h => hn h.1]
  · rw [ho, hf, hphase]

/-- A session that was opened, and collected if its plugin does. -/
structure Collects (src : Sources) (project : Project) (table : RouteTable) (plugin : Plugin)
    (s : PluginSession) (call : Option PhaseCall) : Prop where
  collected : Collected src project table (fun _ => True) plugin s
  tables : s.store.HoldsTables
  failure : s.failure = call.bind PhaseCall.failure?
  derived : s.derived = .null

/-- What is due of a plugin first. -/
def dueCollect (plugin : Plugin) : Option (Text × Text) :=
  plugin.collector.map fun _ => (plugin.name, "collect")

/-- A plugin for which a session can be opened over some files. -/
structure Opens (src : Sources) (project : Project) (plugin : Plugin) : Prop where
  named : plugin.name.isEmpty = false
  root : ∃ root, src.files.resolve project.root = .ok root
  config : ∃ config, plugin.config.toEntries = .ok config

/-- A session that was just opened has its tables, and has neither failed nor built. -/
theorem Opens.start {plugin : Plugin} (h : Opens src project plugin) (table : RouteTable)
    (cache : ParseCache) (hw : w.sources = src) :
    ∃ s, Run.onFiles (PluginSession.start · project table cache plugin) w = .ok s w ∧
      s.plugin = plugin ∧ s.failure = none ∧ s.derived = .null ∧ s.store.HoldsTables := by
  obtain ⟨root, hroot⟩ := h.root
  obtain ⟨config, hconfig⟩ := h.config
  have hresolve : w.files.resolve project.root = .ok root := by
    rw [← hroot, ← hw]
    rfl
  exact ⟨_, lift_eq_ok.mpr ⟨PluginSession.start_of_ok h.named hresolve hconfig, rfl⟩, rfl, rfl,
    rfl, Store.holdsTables_first _ cache⟩

theorem turn_openAndCollect {plugin : Plugin} (ho : Opens src project plugin)
    (hk : plugin.KeepsTables) (table : RouteTable) (cache : ParseCache) (log : PhaseLog)
    (hw : w.sources = src) :
    Turn src log (dueCollect plugin) (Collects src project table plugin)
      (Logged.openAndCollect project table cache plugin (w, log)) := by
  obtain ⟨opened, hopen, hplugin, hnone, hnull, hfirst⟩ := ho.start table cache hw
  have hturn : Turn src log (dueCollect plugin)
      (fun s call => s.store.HoldsTables ∧ s.failure = call.bind PhaseCall.failure? ∧
        s.derived = .null) (Logged.openAndCollect project table cache plugin (w, log)) := by
    unfold Logged.openAndCollect dueCollect
    refine .after hopen ?_
    cases hc : plugin.collector with
    | none => exact .of_ok hw ⟨hfirst, hnone, hnull⟩ rfl
    | some phase =>
      obtain ⟨u, hsay, hu⟩ := exists_begins (plugin.name ++ ": collect") hw
      have hrun := turn_runPhase log opened "collect" phase hu fun _ _ _ h =>
        absurd h (by decide)
      rw [hplugin] at hrun
      refine .after hsay (hrun.bind ?_)
      rintro ⟨s, v⟩ call w' log' hw' ⟨c, rfl, hran⟩
      refine ⟨s, w', rfl, hw', hran.tables (hk phase (.inl hc)) hfirst, ?_, ?_⟩
      · exact hran.failure hnone (by decide)
      · exact hran.derived.trans hnull
  refine (hturn.erased (Logged.erases_openAndCollect project table cache plugin)).imp ?_
  rintro s call ⟨⟨htables, hfailure, hderived⟩, w', hs⟩
  exact ⟨⟨cache, w, w', trivial, hw, hs⟩, htables, hfailure, hderived⟩

theorem round_collectAll {plugins : List Plugin} (ho : ∀ plugin ∈ plugins, Opens src project plugin)
    (hk : ∀ plugin ∈ plugins, plugin.KeepsTables) (table : RouteTable) (cache : ParseCache)
    (log : PhaseLog) (hw : w.sources = src) :
    Round src log dueCollect (Collects src project table) plugins
      (Logged.collectAll project table cache plugins (w, log)) := by
  induction plugins generalizing cache w log with
  | nil => exact .nil hw
  | cons plugin rest ih =>
    rw [Logged.collectAll]
    have hturn := turn_openAndCollect (ho plugin (by simp)) (hk plugin (by simp)) table cache log hw
    refine .bind hturn fun row hrow w' hw' => ?_
    -- What the session parsed can be handed on, since its store is open.
    obtain ⟨next, hnext⟩ := hrow.holds.tables.parseCache
    have hplain : LoggedRun.plain (Run.lift row.1.store.parseCache) (w', log ++ row.2.toList) =
        .ok next (w', log ++ row.2.toList) := by
      rw [hnext]
      rfl
    rw [bind_of_ok hplain]
    have hopens : ∀ p ∈ rest, Opens src project p := fun p hp => ho p (by simp [hp])
    have hkeeps : ∀ p ∈ rest, p.KeepsTables := fun p hp => hk p (by simp [hp])
    exact .cons hrow (ih hopens hkeeps next _ hw')

/-- What is due of a session later, unless it has failed. -/
def dueUnlessFailed (name : Text) (program : Plugin → Option (Phase Value)) (s : PluginSession) :
    Option (Text × Text) :=
  if s.failure.isSome then none else (program s.plugin).map fun _ => (s.plugin.name, name)

/-- The data of a session: what the build phase gave, else the value saved last, else the
collection. -/
def DataOf (s : PluginSession) (given : Value) (data : Json) : Prop :=
  ∃ saved collection, s.table? savedPath = .ok saved ∧ s.table? collectionPath = .ok collection ∧
    ((given.ifNull saved).ifNull collection).keepBuilt = .ok data

/-- A session that has built, unless it had failed. -/
structure Builds (src : Sources) (s t : PluginSession) (call : Option PhaseCall) : Prop where
  plugin : t.plugin = s.plugin
  failure : t.failure = s.failure.or (call.bind PhaseCall.failure?)
  none_of_failed : t.failure.isSome = true → t.derived = .null
  data : t.failure = none → ∃ u v w w', w.sources = src ∧ runBuilder s w = .ok (u, v) w' ∧
    v = (call.map PhaseCall.value).getD .null ∧ DataOf u v t.derived

theorem builtValue_eq {saved collection : Value} (hs : s.table? savedPath = .ok saved)
    (hc : s.table? collectionPath = .ok collection) (v : Value) :
    builtValue s v = .ok ((v.ifNull saved).ifNull collection) := by
  cases v with
  | null =>
    unfold builtValue
    rw [hs]
    cases saved with
    | null => exact hc
    | _ => rfl
  | _ => rfl

/-- The tables from which a session takes its data can be read, and so there is data if the build
phase gives nothing. -/
theorem exists_tables (ht : s.store.HoldsTables) :
    ∃ saved collection, s.table? savedPath = .ok saved ∧
      s.table? collectionPath = .ok collection ∧
      ∃ data, ((Value.null.ifNull saved).ifNull collection).keepBuilt = .ok data := by
  obtain ⟨saved, hs, hks⟩ := ht.get (show savedPath ∈ Assoc.keys firstSlots by decide)
  obtain ⟨collection, hc, hkc⟩ := ht.get (show collectionPath ∈ Assoc.keys firstSlots by decide)
  exact ⟨_, _, hs, hc, Value.keepBuilt_ifNull (Value.keepBuilt_of_stored hks)
    (Value.keepBuilt_of_stored hkc)⟩

/-- What a phase that builds makes of a session that has not failed. -/
structure RanBuilder (s t : PluginSession) (v : Value) (call : Option PhaseCall) : Prop where
  plugin : t.plugin = s.plugin
  derived : t.derived = s.derived
  tables : t.store.HoldsTables
  value : v = (call.map PhaseCall.value).getD .null
  ended : t.failure = none ∧ (∀ c ∈ call, c.phase = "build" ∧ c.outcome = .ok v ∧
      v.keepBuilt ≠ .error .depth) ∨
    t.failure.isSome = true ∧ t.failure = call.bind PhaseCall.failure?

theorem turn_runBuilder (hf : s.failure = none) (hk : s.plugin.KeepsTables)
    (ht : s.store.HoldsTables) (log : PhaseLog) (hw : w.sources = src)
    (hdepth : ∀ phase v t, s.plugin.buildPhase = some phase → phase.run ⟨w, s⟩ = .ok v t →
      v.keepBuilt ≠ .error .depth) :
    Turn src log (s.plugin.buildPhase.map fun _ => (s.plugin.name, "build"))
      (fun p call => RanBuilder s p.1 p.2 call) (Logged.runBuilder s (w, log)) := by
  unfold Logged.runBuilder
  cases hb : s.plugin.buildPhase with
  | none => exact .of_ok hw ⟨rfl, rfl, ht, rfl, .inl ⟨hf, by simp⟩⟩ rfl
  | some phase =>
    refine (turn_runPhase log s "build" phase hw fun v t hr _ => hdepth phase v t hb hr).imp ?_
    rintro ⟨t, v⟩ call ⟨c, rfl, hran⟩
    have hphase : c.phase = "build" := congrArg Prod.snd hran.title
    have htables := hran.tables (hk phase (.inr (.inl hb))) ht
    obtain ⟨ho, hfailure⟩ | ⟨e, ho, rfl, hfailure⟩ := hran.ended
    · refine ⟨hran.plugin, hran.derived, htables, ?_, .inl ⟨hfailure.trans hf, ?_⟩⟩
      · simp [PhaseCall.value, ho, Except.toOption]
      · rintro d ⟨⟩
        exact ⟨hphase, ho, hran.shallow rfl⟩
    · refine ⟨hran.plugin, hran.derived, htables, ?_, .inr ⟨?_, ?_⟩⟩
      · simp [PhaseCall.value, ho, Except.toOption]
      · rw [hfailure]
        rfl
      · rw [hfailure, Option.bind_some, PhaseCall.failure?, ho, hphase]

/-- What was built is kept, or it cannot be and the session has failed. -/
theorem builds_of_keepBuilt {t : PluginSession} {call : Option PhaseCall} (hf : s.failure = none)
    (hd : s.derived = .null) (hran : RanBuilder s t v call) {u u' : World} (hu : u.sources = src)
    (hrun : runBuilder s u = .ok (t, v) u') (hw : w.sources = src) :
    ∃ b w', keepBuilt t v w = .ok b w' ∧ w'.sources = src ∧ Builds src s b call := by
  obtain ⟨hnone, hcall⟩ | ⟨hsome, hfailure⟩ := hran.ended
  · obtain ⟨saved, collection, hsaved, hcollection, data, hdata⟩ := exists_tables hran.tables
    have hbuilt := builtValue_eq hsaved hcollection v
    unfold keepBuilt
    rw [if_neg (by simp [hnone])]
    have hlift : Run.lift (builtValue t v) w = .ok ((v.ifNull saved).ifNull collection) w :=
      lift_eq_ok.mpr ⟨hbuilt, rfl⟩
    rw [bind_of_ok hlift]
    cases hkeep : ((v.ifNull saved).ifNull collection).keepBuilt with
    | ok derived =>
      have hgiven : ∃ j, v.keepBuilt = .ok j := by
        by_cases hv : v = .null
        · exact ⟨.null, by rw [hv]; rfl⟩
        · rw [Value.ifNull_of_ne hv, Value.ifNull_of_ne hv] at hkeep
          exact ⟨derived, hkeep⟩
      refine ⟨{ t with derived }, w, rfl, hw, hran.plugin, ?_, ?_, ?_⟩
      · rw [hf, Option.none_or]
        refine hnone.trans (Option.bind_eq_none_iff.mpr fun c hc => ?_).symm
        obtain ⟨j, hj⟩ := hgiven
        rw [PhaseCall.failure?, (hcall c hc).2.1]
        dsimp only
        rw [hj]
      · intro hsome
        rw [hnone] at hsome
        cases hsome
      · intro _
        exact ⟨t, v, u, u', hu, hrun, hran.value, saved, collection, hsaved, hcollection, hkeep⟩
    | error cause =>
      -- The tables can be kept, so it is what the phase gave that cannot be.
      have hv : v ≠ .null := by
        rintro rfl
        rw [hdata] at hkeep
        cases hkeep
      rw [Value.ifNull_of_ne hv, Value.ifNull_of_ne hv] at hkeep
      cases hc : call with
      | none =>
        have hvalue := hran.value
        rw [hc] at hvalue
        exact absurd hvalue hv
      | some c =>
        obtain ⟨hphase, ho, hshallow⟩ := hcall c hc
        have hdepth : cause ≠ .depth := fun h => hshallow (h ▸ hkeep)
        refine ⟨_, _, congrFun (refuseBuilt_of_ne t hdepth) w, hw, hran.plugin, ?_,
          fun _ => hran.derived.trans hd, nofun⟩
        rw [hf, Option.none_or, Option.bind_some, PhaseCall.failure?, ho]
        dsimp only
        rw [hkeep, hphase]
        exact (if_pos ⟨rfl, hdepth⟩).symm
  · unfold keepBuilt
    rw [if_pos hsome]
    refine ⟨t, w, rfl, hw, hran.plugin, ?_, fun _ => hran.derived.trans hd, fun hn => ?_⟩
    · rw [hf, Option.none_or]
      exact hfailure
    · rw [hn] at hsome
      cases hsome

/-- A phase that builds what lies too deep ends the run. -/
theorem turn_of_deep {P : PluginSession → Option PhaseCall → Prop} (hf : s.failure = none)
    {phase : Phase Value} (hb : s.plugin.buildPhase = some phase) {t : PhaseState}
    (hrun : phase.run ⟨w, s⟩ = .ok v t) (hv : v.keepBuilt = .error .depth) (log : PhaseLog)
    (hw : w.sources = src) :
    Turn src log (some (s.plugin.name, "build")) P
      ((Logged.runBuilder s >>= fun p => LoggedRun.plain (keepBuilt p.1 p.2)) (w, log)) := by
  have hframe := phase.moves_run.of_ok hrun
  have hbuilder : Logged.runBuilder s (w, log) =
      .ok (t.session, v) (t.world, log ++ [⟨s.plugin.name, "build", .ok v⟩]) := by
    unfold Logged.runBuilder
    rw [hb]
    unfold Logged.runPhase LoggedRun.plain runPhase
    dsimp only
    rw [hrun]
    rfl
  have hsession : t.session = { s with store := t.session.store, config := t.session.config } :=
    hframe.session
  have hfailure : t.session.failure = none := by rw [hsession, hf]
  have hbuilt : builtValue t.session v = .ok v := by
    cases v with
    | null => cases hv
    | _ => rfl
  have hkeep : keepBuilt t.session v t.world = .error (.notJson .depth) t.world := by
    have hlift : Run.lift (builtValue t.session v) t.world = .ok v t.world :=
      lift_eq_ok.mpr ⟨hbuilt, rfl⟩
    unfold keepBuilt
    rw [if_neg (by simp [hfailure]), bind_of_ok hlift, hv]
    rfl
  rw [bind_of_ok hbuilder]
  unfold LoggedRun.plain
  dsimp only
  rw [hkeep]
  have hdeep : PhaseCall.buildsTooDeep ⟨s.plugin.name, "build", .ok v⟩ = true :=
    PhaseCall.buildsTooDeep_iff.mpr ⟨rfl, v, rfl, hv⟩
  exact .halt (hframe.sources.trans hw) rfl (if_pos hdeep)

theorem turn_buildUnlessFailed (hk : s.plugin.KeepsTables) (ht : s.store.HoldsTables)
    (hd : s.derived = .null) (log : PhaseLog) (hw : w.sources = src) :
    Turn src log (dueUnlessFailed "build" Plugin.buildPhase s) (Builds src s)
      (Logged.buildUnlessFailed s (w, log)) := by
  unfold Logged.buildUnlessFailed dueUnlessFailed
  by_cases hf : s.failure.isSome = true
  · rw [if_pos hf, if_pos hf]
    refine .of_ok hw ⟨rfl, by simp, fun _ => hd, fun hn => ?_⟩ rfl
    rw [hn] at hf
    cases hf
  · rw [if_neg hf, if_neg hf]
    have hnone : s.failure = none := Option.not_isSome_iff_eq_none.mp hf
    obtain ⟨u, hsay, hu⟩ := exists_begins (s.plugin.name ++ ": build") hw
    refine .after hsay ?_
    by_cases hdeep : ∃ phase v t, s.plugin.buildPhase = some phase ∧ phase.run ⟨u, s⟩ = .ok v t ∧
        v.keepBuilt = .error .depth
    · obtain ⟨phase, v, t, hb, hrun, hv⟩ := hdeep
      rw [hb]
      exact turn_of_deep hnone hb hrun hv log hu
    have hrun := (turn_runBuilder hnone hk ht log hu fun phase v t hb hr hv =>
      hdeep ⟨phase, v, t, hb, hr, hv⟩).erased (Logged.erases_runBuilder s)
    refine hrun.bind ?_
    rintro ⟨t, v⟩ call w' log' hw' ⟨hran, u', hrunner⟩
    obtain ⟨b, w'', hkeep, hw'', hbuilds⟩ := builds_of_keepBuilt hnone hd hran hu hrunner hw'
    refine ⟨b, w'', ?_, hw'', hbuilds⟩
    unfold LoggedRun.plain
    dsimp only
    rw [hkeep]

/-- A session that has staged texts, unless it had failed. -/
structure Stages (s t : PluginSession) (call : Option PhaseCall) : Prop where
  failure : t.failure = s.failure.or (call.bind PhaseCall.failure?)
  derived : t.derived = s.derived

theorem turn_stageUnlessFailed (s : PluginSession) (log : PhaseLog) (hw : w.sources = src) :
    Turn src log (dueUnlessFailed "rewrite" Plugin.stager s) (Stages s)
      (Logged.stageUnlessFailed s (w, log)) := by
  by_cases hturn : s.failure = none ∧ ∃ phase, s.plugin.stager = some phase
  · obtain ⟨hf, phase, hp⟩ := hturn
    have hstep : Logged.stageUnlessFailed s = do
        .plain (Run.begins (s.plugin.name ++ ": rewrite"))
        return (← Logged.runPhase { s with data := s.derived } "rewrite" phase).1 := by
      rw [Logged.stageUnlessFailed, hf, hp]
    have hdue : dueUnlessFailed "rewrite" Plugin.stager s =
        some (s.plugin.name, ("rewrite" : Text)) := by
      rw [dueUnlessFailed, hf, hp]
      rfl
    obtain ⟨u, hsay, hu⟩ := exists_begins (s.plugin.name ++ ": rewrite") hw
    have hrun := turn_runPhase log { s with data := s.derived } "rewrite" phase hu
      fun _ _ _ h => absurd h (by decide)
    rw [hstep, hdue]
    refine .after hsay (hrun.bind ?_)
    rintro ⟨t, v⟩ call w' log' hw' ⟨c, rfl, hran⟩
    refine ⟨t, w', rfl, hw', ?_, hran.derived⟩
    rw [hf, Option.none_or, Option.bind_some]
    exact hran.failure hf (by decide)
  · have hidle : Logged.stageUnlessFailed s = pure s ∧
        dueUnlessFailed "rewrite" Plugin.stager s = none := by
      unfold Logged.stageUnlessFailed dueUnlessFailed
      cases hf : s.failure with
      | some failure => exact ⟨rfl, rfl⟩
      | none =>
        cases hp : s.plugin.stager with
        | none => exact ⟨rfl, rfl⟩
        | some phase => exact absurd ⟨hf, phase, hp⟩ hturn
    rw [hidle.1, hidle.2]
    exact .of_ok hw ⟨by simp, rfl⟩ rfl

end

end Pipeline

end RoutePlugins
