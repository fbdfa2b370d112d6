import RoutePlugins.Proofs.Pipeline.Lives

/-!
# Runs that log their phases

A run may keep a log: each time a phase is run, the log gets whose phase it is, which one, and what
its program gave or raised. The steps of a logged run are those of a run, with this one addition, so
a logged run is the run itself once the log is forgotten.
-/

namespace RoutePlugins

/-- A phase that was run: of which plugin, which one, and what its program gave or raised. -/
structure PhaseCall where
  plugin : Text
  phase : Text
  outcome : Except Fault Value

namespace PhaseCall

/-- Whose phase was run, and which one. -/
def title (c : PhaseCall) : Text × Text := (c.plugin, c.phase)

/-- How a phase failed, if it did: it raised a fault, or it built a value that cannot be kept. -/
def failure? (c : PhaseCall) : Option (Text × Text) :=
  match c.outcome with
  | .error e => some (c.phase, e.report)
  | .ok v =>
    match v.keepBuilt with
    | .ok _ => none
    | .error cause =>
      if c.phase = "build" ∧ cause ≠ .depth then
        some (c.phase,
          "SerializationError: derived data is not JSON-serializable: " ++ cause.message)
      else none

/-- What a phase gave; nothing if it failed. -/
def value (c : PhaseCall) : Value := (c.outcome.toOption).getD .null

/-- Whether a phase built a value that lies too deep to be looked at. -/
def buildsTooDeep (c : PhaseCall) : Bool :=
  match c.outcome with
  | .error _ => false
  | .ok v =>
    match v.keepBuilt with
    | .error .depth => c.phase == "build"
    | _ => false

/-- The fault with which a phase ends the run, if it does. -/
def halt? (c : PhaseCall) : Option Fault :=
  match c.outcome with
  | .error e => if e.isConfiguration || e.isInterruption then some e else none
  | .ok _ => if c.buildsTooDeep then some (.notJson .depth) else none

theorem buildsTooDeep_iff {c : PhaseCall} : c.buildsTooDeep = true ↔
    c.phase = "build" ∧ ∃ v, c.outcome = .ok v ∧ v.keepBuilt = .error .depth := by
  unfold buildsTooDeep
  cases c.outcome with
  | error e => simp
  | ok v =>
    dsimp only
    split
    · next h => simp [h]
    · next h => simpa using fun _ => h

end PhaseCall

/-- The phases that were run, in their order. -/
abbrev PhaseLog := List PhaseCall

namespace PhaseLog

/-- The call of a phase of a plugin. -/
def call? (log : PhaseLog) (plugin phase : Text) : Option PhaseCall :=
  log.find? fun c => c.title = (plugin, phase)

/-- How a phase of a plugin failed, if it was run and did. -/
def failure? (log : PhaseLog) (plugin phase : Text) : Option (Text × Text) :=
  (log.call? plugin phase).bind PhaseCall.failure?

/-- How a plugin failed first, if it did. -/
def firstFailure? (log : PhaseLog) (plugin : Text) : Option (Text × Text) :=
  ((log.failure? plugin "collect").or (log.failure? plugin "build")).or
    (log.failure? plugin "rewrite")

/-- What a phase of a plugin gave; nothing if it was not run or failed. -/
def value (log : PhaseLog) (plugin phase : Text) : Value :=
  ((log.call? plugin phase).map PhaseCall.value).getD .null

/-- The turns of plugins that have a phase, in their order. -/
def turns (phase : Text) (program : Plugin → Option (Phase Value)) (plugins : List Plugin) :
    List (Text × Text) :=
  plugins.filterMap fun plugin => (program plugin).map fun _ => (plugin.name, phase)

/-- The phases that are due, after what failed in a log: every plugin collects, then those build
that have not failed, then those stage texts that have not failed. -/
def schedule (log : PhaseLog) (plugins : List Plugin) : List (Text × Text) :=
  turns "collect" Plugin.collector plugins ++
    turns "build" Plugin.buildPhase
      (plugins.filter fun plugin => (log.failure? plugin.name "collect").isNone) ++
    turns "rewrite" Plugin.stager
      (plugins.filter fun plugin =>
        ((log.failure? plugin.name "collect").or (log.failure? plugin.name "build")).isNone)

end PhaseLog

/-! ### Logged runs -/

/-- A run that keeps a log of its phases. -/
abbrev LoggedRun := EStateM Fault (World × PhaseLog)

/-- A step of a run that runs no phase. -/
def LoggedRun.plain {α : Type} (m : Run α) : LoggedRun α := fun (w, log) =>
  match m w with
  | .ok a w' => .ok a (w', log)
  | .error e w' => .error e (w', log)

namespace Pipeline

namespace Logged

/-- Run a phase of a session, and log it. -/
def runPhase (s : PluginSession) (name : Text) (phase : Phase Value) :
    LoggedRun (PluginSession × Value) := fun (w, log) =>
  LoggedRun.plain (Pipeline.runPhase s name phase)
    (w, log ++ [⟨s.plugin.name, name, outcome (phase.run ⟨w, s⟩)⟩])

/-- Open the session of a plugin and let it collect. -/
def openAndCollect (project : Project) (table : RouteTable) (cache : ParseCache)
    (plugin : Plugin) : LoggedRun PluginSession := do
  let s ← .plain (Run.onFiles (PluginSession.start · project table cache plugin))
  match plugin.collector with
  | none => return s
  | some phase =>
    .plain (Run.begins (plugin.name ++ ": collect"))
    return (← runPhase s "collect" phase).1

/-- Let plugins collect in turn; each is given the files parsed before it. -/
def collectAll (project : Project) (table : RouteTable) :
    ParseCache → List Plugin → LoggedRun (List PluginSession)
  | _, [] => return []
  | cache, plugin :: rest => do
    let s ← openAndCollect project table cache plugin
    let cache ← .plain (Run.lift s.store.parseCache)
    return s :: (← collectAll project table cache rest)

/-- Run the phase that builds, if there is one. -/
def runBuilder (s : PluginSession) : LoggedRun (PluginSession × Value) :=
  match s.plugin.buildPhase with
  | some phase => runPhase s "build" phase
  | none => return (s, .null)

/-- Let a session build, unless it has failed. -/
def buildUnlessFailed (s : PluginSession) : LoggedRun PluginSession :=
  if s.failure.isSome then return s
  else do
    .plain (Run.begins (s.plugin.name ++ ": build"))
    let (s, v) ← runBuilder s
    .plain (keepBuilt s v)

/-- Let a session stage texts, unless it has failed. -/
def stageUnlessFailed (s : PluginSession) : LoggedRun PluginSession :=
  match s.failure, s.plugin.stager with
  | none, some phase => do
    .plain (Run.begins (s.plugin.name ++ ": rewrite"))
    return (← runPhase { s with data := s.derived } "rewrite" phase).1
  | _, _ => return s

end Logged

/-- Run the phases of the plugins, up to the commit, and log them. -/
def Setup.logged (r : Setup) : LoggedRun (List PluginSession) := do
  let (table, cache) ← .plain r.routes
  let sessions ← Logged.collectAll r.project table cache r.plugins
  let sessions ← sessions.mapM Logged.buildUnlessFailed
  sessions.mapM Logged.stageUnlessFailed

end Pipeline

/-! ### Forgetting the log -/

/-- How a logged run ends, without the log. -/
def forget {α : Type} : EStateM.Result Fault (World × PhaseLog) α → EStateM.Result Fault World α
  | .ok a (w, _) => .ok a w
  | .error e (w, _) => .error e w

/-- A logged run is a run once its log is forgotten. -/
def LoggedRun.Erases {α : Type} (m : LoggedRun α) (n : Run α) : Prop :=
  ∀ w log, forget (m (w, log)) = n w

namespace LoggedRun.Erases

variable {α β : Type}

theorem plain (m : Run α) : (LoggedRun.plain m).Erases m := by
  intro w log
  unfold LoggedRun.plain
  dsimp only
  cases m w with
  | ok a w' => rfl
  | error e w' => rfl

theorem pure (a : α) : (Pure.pure a : LoggedRun α).Erases (Pure.pure a) := fun _ _ => rfl

theorem bind {m : LoggedRun α} {n : Run α} {f : α → LoggedRun β} {g : α → Run β}
    (hm : m.Erases n) (hf : ∀ a, (f a).Erases (g a)) : (m >>= f).Erases (n >>= g) := by
  intro w log
  have hn := hm w log
  cases h : m (w, log) with
  | ok a t =>
    obtain ⟨w', log'⟩ := t
    rw [h] at hn
    rw [bind_of_ok h, bind_of_ok hn.symm]
    exact hf a w' log'
  | error e t =>
    rw [h] at hn
    rw [bind_of_error h, bind_of_error hn.symm]
    rfl

theorem mapM {f : α → LoggedRun β} {g : α → Run β} (h : ∀ a, (f a).Erases (g a)) (l : List α) :
    (l.mapM f).Erases (l.mapM g) := by
  induction l with
  | nil => exact .pure []
  | cons a l ih =>
    rw [List.mapM_cons, List.mapM_cons]
    exact (h a).bind fun b => ih.bind fun bs => .pure _

end LoggedRun.Erases

namespace Pipeline

namespace Logged

open LoggedRun

theorem erases_runPhase (s : PluginSession) (name : Text) (phase : Phase Value) :
    (runPhase s name phase).Erases (Pipeline.runPhase s name phase) :=
  fun w _ => Erases.plain _ w _

theorem erases_openAndCollect (project : Project) (table : RouteTable) (cache : ParseCache)
    (plugin : Plugin) :
    (openAndCollect project table cache plugin).Erases
      (Pipeline.openAndCollect project table cache plugin) := by
  unfold openAndCollect Pipeline.openAndCollect
  refine (Erases.plain _).bind fun s => ?_
  cases plugin.collector with
  | none => exact .pure s
  | some phase =>
    exact (Erases.plain _).bind fun _ => (erases_runPhase _ _ _).bind fun _ => .pure _

theorem erases_collectAll (project : Project) (table : RouteTable) (cache : ParseCache)
    (plugins : List Plugin) :
    (collectAll project table cache plugins).Erases
      (Pipeline.collectAll project table cache plugins) := by
  induction plugins generalizing cache with
  | nil => exact .pure []
  | cons plugin rest ih =>
    refine (erases_openAndCollect project table cache plugin).bind fun s => ?_
    exact (Erases.plain _).bind fun next => (ih next).bind fun _ => .pure _

theorem erases_runBuilder (s : PluginSession) :
    (runBuilder s).Erases (Pipeline.runBuilder s) := by
  unfold runBuilder Pipeline.runBuilder
  cases s.plugin.buildPhase with
  | none => exact .pure _
  | some phase => exact erases_runPhase s "build" phase

theorem erases_buildUnlessFailed (s : PluginSession) :
    (buildUnlessFailed s).Erases (Pipeline.buildUnlessFailed s) := by
  unfold buildUnlessFailed Pipeline.buildUnlessFailed
  split
  · exact .pure s
  · refine (Erases.plain _).bind fun _ => ?_
    exact (erases_runBuilder s).bind fun p => .plain _

theorem erases_stageUnlessFailed (s : PluginSession) :
    (stageUnlessFailed s).Erases (Pipeline.stageUnlessFailed s) := by
  unfold stageUnlessFailed Pipeline.stageUnlessFailed
  cases s.failure with
  | some failure => exact .pure s
  | none =>
    cases s.plugin.stager with
    | none => exact .pure s
    | some phase =>
      exact (Erases.plain _).bind fun _ => (erases_runPhase _ _ _).bind fun _ => .pure _

end Logged

open LoggedRun in
/-- A logged run is the run, once the log is forgotten. -/
theorem erases_logged (r : Setup) : r.logged.Erases r.sessions := by
  refine (Erases.plain _).bind fun routes => ?_
  refine (Logged.erases_collectAll _ _ _ _).bind fun collected => ?_
  refine (Erases.mapM Logged.erases_buildUnlessFailed collected).bind fun built => ?_
  exact Erases.mapM Logged.erases_stageUnlessFailed built

end Pipeline

end RoutePlugins
