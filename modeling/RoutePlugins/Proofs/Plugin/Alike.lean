import RoutePlugins.Proofs.Store.Alike

/-!
# Sessions that are alike

The phases that plugins may be given make no use of the store but through its tables, and do not
look at the times of records. Such a phase takes alike sessions to alike sessions, and ends with the
same value or the same fault. So two lives of a plugin over the same files end alike, whatever was
parsed before each of them.
-/

namespace RoutePlugins

/-! ### Phases that do not look at times -/

/-- Two values of a table of records differ at most in the times of the records. -/
def Value.SameRecords (v v' : Value) : Prop :=
  ∃ j j', v = .ofJson j ∧ v' = .ofJson j' ∧ j.untimed = j'.untimed

theorem sameRecords_of_sameAt {kind : ReportKind} {v v' : Value}
    (h : Store.SameAt kind.path v v') : v.SameRecords v' := by
  obtain ⟨j, j', hj, hj', heq⟩ := h
  rw [untimedAt_record, untimedAt_record] at heq
  exact ⟨j, j', hj, hj', heq⟩

/-- Two answers to a request that differ at most in the times of records. -/
def Request.Agree : (q : Request) → q.Reply → q.Reply → Prop
  | .records _ => Value.SameRecords
  | .parse _ | .sourceFile _ | .routes | .imports _ | .reached _ | .clientFiles | .serverFiles
  | .collect _ | .collected | .save _ | .saved | .savedHistory | .report .. | .stage .. | .staged
  | .stagedHistory | .store _ | .context | .configure .. | .note .. => Eq

/-- Whether a request is one that plugins are given: they neither use the store directly nor ask for
the files that are reached from a file. -/
def Request.isGiven : Request → Bool
  | .store _ | .reached _ => false
  | _ => true

/-- Programs that make requests they are given and do not depend on the times of records. -/
inductive Phase.Timeless {α : Type} : Phase α → Prop where
  | done (a : α) : Timeless (.done a)
  | fail (e : Fault) : Timeless (.fail e)
  | ask (q : Request) (next : Except Fault q.Reply → Phase α) (h : q.isGiven = true)
      (same : ∀ r r', q.Agree r r' → next (.ok r) = next (.ok r'))
      (hn : ∀ r, Timeless (next r)) : Timeless (.ask q next)

/-- A plugin whose phases make requests they are given and do not depend on the times of records. -/
def Plugin.Timeless (plugin : Plugin) : Prop :=
  ∀ phase, (plugin.collector = some phase ∨ plugin.buildPhase = some phase ∨
    plugin.stager = some phase) → phase.Timeless

/-! ### Alike sessions -/

/-- Two sessions have alike stores and agree in all else. -/
structure PluginSession.Alike (src : Sources) (s t : PluginSession) : Prop where
  store : Store.Alike src s.store t.store
  rest : { s with store := .fresh } = { t with store := .fresh }

/-- Two states of a phase have the same files and parser and alike sessions. -/
structure PhaseState.Alike (src : Sources) (s t : PhaseState) : Prop where
  left : s.world.sources = src
  right : t.world.sources = src
  session : PluginSession.Alike src s.session t.session

variable {src : Sources}

/-- What is read off a session, apart from its store, is the same. -/
theorem PluginSession.Alike.same {s t : PluginSession} (h : s.Alike src t) {β : Type}
    (f : PluginSession → β) (hf : ∀ u store, f { u with store } = f u) : f s = f t := by
  rw [← hf s .fresh, h.rest, hf]

theorem PluginSession.Alike.fail {s t : PluginSession} (h : s.Alike src t)
    (failure : Option (Text × Text)) :
    PluginSession.Alike src { s with failure } { t with failure } :=
  ⟨h.store, congrArg (fun u : PluginSession => { u with failure }) h.rest⟩

theorem PhaseState.Alike.files {s t : PhaseState} (h : s.Alike src t) :
    s.world.files = src.files ∧ t.world.files = src.files :=
  ⟨congrArg Sources.files h.left, congrArg Sources.files h.right⟩

namespace PhaseM

variable {α β : Type} {V : α → β → Prop}

theorem lockstep_onStore {m : StoreM α} {m' : StoreM β}
    (h : Lockstep (Store.Alike src) V m m') :
    Lockstep (PhaseState.Alike src) V (onStore m) (onStore m') := by
  intro s t hst
  unfold onStore
  obtain ⟨a, b, s', t', hs, ht, hv, hr⟩ | ⟨e, s', t', hs, ht, hr⟩ :=
    (h _ _ hst.session.store).ok_or_error
  · rw [hs, ht]
    exact .ok hv ⟨hst.left, hst.right, hr, hst.session.rest⟩
  · rw [hs, ht]
    exact .error ⟨hst.left, hst.right, hr, hst.session.rest⟩

theorem lockstep_onLedger {m : LedgerM α} {m' : LedgerM β}
    (h : Lockstep (Ledger.StoresAlike src) V m m') :
    Lockstep (PhaseState.Alike src) V (onLedger m) (onLedger m') := by
  intro s t hst
  unfold onLedger
  dsimp only
  obtain ⟨a, b, s', t', hs, ht, hv, hr⟩ | ⟨e, s', t', hs, ht, hr⟩ :=
    (h ⟨s.session.store, s.world.clock⟩ ⟨t.session.store, t.world.clock⟩
      hst.session.store).ok_or_error
  · rw [hs, ht]
    exact .ok hv ⟨hst.left, hst.right, hr, hst.session.rest⟩
  · rw [hs, ht]
    exact .error ⟨hst.left, hst.right, hr, hst.session.rest⟩

/-- A table that holds no records is read as the same. -/
theorem lockstep_table {key : AccessPath} (hk : key ∈ Assoc.keys firstSlots)
    (hr : key ≠ ReportKind.error.path ∧ key ≠ ReportKind.warning.path) :
    Lockstep (PhaseState.Alike src) Eq (table key) (table key) :=
  lockstep_onStore (Store.lockstep_table hk hr)

end PhaseM

/-! ### Requests and phases -/

section

variable (hn : src.files.StartsProper)

namespace PluginSession

open PhaseM

theorem lockstep_stage (code : Value) (file : Text) :
    Lockstep (PhaseState.Alike src) Eq (stage code file) (stage code file) := by
  have hwrites (p text : Text) : Lockstep (PhaseState.Alike src) Eq
      (do
        PhaseM.change (·.merge stagedPath.toValue (.map [(.str p, .str text)]))
        PhaseM.change (·.push stagedHistoryPath.toValue
          (.map [(.str "filePath", .str p), (.str "code", .str text)])))
      (do
        PhaseM.change (·.merge stagedPath.toValue (.map [(.str p, .str text)]))
        PhaseM.change (·.push stagedHistoryPath.toValue
          (.map [(.str "filePath", .str p), (.str "code", .str text)]))) :=
    (lockstep_onStore (Store.lockstep_merge (by decide) (by decide) _)).bind_eq fun _ =>
      lockstep_onStore (Store.lockstep_push (by decide) (by decide) _)
  unfold stage
  refine Lockstep.get.bind fun s t h => ?_
  rw [h.files.1, h.files.2, h.session.same PluginSession.project fun _ _ => rfl]
  split
  · refine (Lockstep.lift (.refl _)).bind_eq fun target => ?_
    refine (Lockstep.lift (.refl _)).bind_eq fun inside => Lockstep.ite ?_ ?_
    · exact (Lockstep.throw _).bind_eq fun _ => hwrites _ _
    · exact (Lockstep.pure rfl).bind_eq fun _ => hwrites _ _
  · exact .throw _

include hn in
/-- Alike sessions answer a request alike, up to the times of records, and stay alike. -/
theorem lockstep_answer {q : Request} (hq : q.isGiven = true) :
    Lockstep (PhaseState.Alike src) q.Agree (answer q) (answer q) := by
  cases q with
  | parse file =>
    refine Lockstep.get.bind fun s t h => ?_
    rw [h.left, h.right]
    exact lockstep_onStore (Store.lockstep_parse hn file)
  | sourceFile path =>
    refine Lockstep.get.bind fun s t h => ?_
    rw [h.files.1, h.files.2, h.session.same PluginSession.project fun _ _ => rfl]
    exact .lift (.refl _)
  | routes =>
    exact Lockstep.get.bind fun s t h =>
      .pure (h.session.same (·.table.routes) fun _ _ => rfl)
  | imports file =>
    refine Lockstep.get.bind fun s t h => ?_
    rw [h.left, h.right, h.session.same PluginSession.graph fun _ _ => rfl]
    exact lockstep_onStore (ImportGraph.lockstep_imports hn _ file)
  | reached => cases hq
  | clientFiles =>
    exact Lockstep.get.bind fun s t h =>
      .pure (h.session.same (·.table.clientFiles) fun _ _ => rfl)
  | serverFiles =>
    exact Lockstep.get.bind fun s t h =>
      .pure (h.session.same (·.table.serverFiles) fun _ _ => rfl)
  | collect v => exact lockstep_onStore (Store.lockstep_push (by decide) (by decide) v)
  | collected => exact lockstep_table (by decide) (by decide)
  | save v =>
    exact (lockstep_onStore (Store.lockstep_set (by decide) (by decide) v)).bind_eq fun _ =>
      lockstep_onStore (Store.lockstep_push (by decide) (by decide) v)
  | saved => exact lockstep_table (by decide) (by decide)
  | savedHistory => exact lockstep_table (by decide) (by decide)
  | report kind message file mark =>
    refine Lockstep.get.bind fun s t h => ?_
    rw [h.files.1, h.files.2, h.session.same PluginSession.ledger fun _ _ => rfl]
    exact lockstep_onLedger (Ledger.lockstep_report _ _ kind message file mark)
  | records kind =>
    exact (lockstep_onStore (Store.lockstep_get (Ledger.path_mem_firstSlots kind))).mono
      fun _ _ => sameRecords_of_sameAt
  | stage code file => exact lockstep_stage code file
  | staged => exact lockstep_table (by decide) (by decide)
  | stagedHistory => exact lockstep_table (by decide) (by decide)
  | store => cases hq
  | context =>
    exact Lockstep.get.bind fun s t h =>
      .pure (h.session.same PluginSession.context fun _ _ => rfl)
  | configure key v =>
    intro s t h
    refine .ok rfl ⟨h.left, h.right, h.session.store, ?_⟩
    exact congrArg (fun u : PluginSession =>
      { u with config := Value.insertEntry (.str key) v u.config }) h.session.rest
  | note phase action result =>
    intro s t h
    exact .ok rfl ⟨h.left, h.right, h.session⟩

end PluginSession

include hn in
/-- A phase that does not look at times ends alike in alike sessions. -/
theorem Phase.Timeless.lockstep {α : Type} {phase : Phase α} (hp : phase.Timeless) :
    Lockstep (PhaseState.Alike src) Eq phase.run phase.run := by
  induction hp with
  | done a => exact .pure rfl
  | fail e => exact .throw e
  | ask q next hq same _ ih =>
    intro s t h
    rw [Phase.run]
    dsimp only
    obtain ⟨a, b, s', t', hs, ht, hv, hr⟩ | ⟨e, s', t', hs, ht, hr⟩ :=
      (PluginSession.lockstep_answer hn hq s t h).ok_or_error
    · rw [hs, ht]
      dsimp only
      rw [same a b hv]
      exact ih (.ok b) s' t' hr
    · rw [hs, ht]
      exact ih (.error e) s' t' hr

/-! ### Steps and lives -/

/-- A table that holds no records is there, and the same, in alike sessions. -/
theorem PluginSession.Alike.table? {s t : PluginSession} (h : s.Alike src t) {key : AccessPath}
    (hk : key ∈ Assoc.keys firstSlots)
    (hr : key ≠ ReportKind.error.path ∧ key ≠ ReportKind.warning.path) :
    ∃ v, s.table? key = .ok v ∧ t.table? key = .ok v := by
  obtain ⟨v, v', hv, hv', hsame⟩ := h.store.get hk
  rw [← hsame.eq hr] at hv'
  exact ⟨v, hv, hv'⟩

theorem PluginSession.Alike.records {s t : PluginSession} (h : s.Alike src t) (kind : ReportKind) :
    ∃ v v', s.records kind = .ok v ∧ t.records kind = .ok v' ∧ v.SameRecords v' := by
  obtain ⟨v, v', hv, hv', hsame⟩ := h.store.get (Ledger.path_mem_firstSlots kind)
  exact ⟨v, v', hv, hv', sameRecords_of_sameAt hsame⟩

/-- The parsed files of alike stores are there and sound. -/
theorem Store.Alike.parseCache {s t : Store} (h : Store.Alike src s t) :
    ∃ cache cache', s.parseCache = .ok cache ∧ t.parseCache = .ok cache' ∧ src.Sound cache ∧
      src.Sound cache' := by
  obtain @⟨name, ⟨_, slots⟩, ⟨_, slots'⟩, ha⟩ := h
  obtain ⟨cache, rfl, hleft⟩ := ha.left
  obtain ⟨cache', rfl, hright⟩ := ha.right
  exact ⟨cache, cache', rfl, rfl, hleft, hright⟩

/-- Two worlds have the same files and the same parser. -/
structure World.Over (src : Sources) (w u : World) : Prop where
  left : w.sources = src
  right : u.sources = src

theorem Run.lockstep_say (line line' : Text) :
    Lockstep (World.Over src) Eq (Run.say line) (Run.say line') :=
  fun _ _ h => .ok rfl ⟨h.left, h.right⟩

namespace Pipeline

open World

variable {s t : PluginSession}

theorem lockstep_failPhase (h : s.Alike src t) (phase text : Text) :
    Lockstep (Over src) (PluginSession.Alike src) (failPhase s phase text)
      (failPhase t phase text) :=
  (Run.lockstep_say _ _).bind_eq fun _ => .pure (h.fail _)

theorem builtValue_of_alike (h : s.Alike src t) (v : Value) : builtValue s v = builtValue t v := by
  unfold builtValue
  obtain ⟨saved, hs, ht⟩ := h.table? (by decide : savedPath ∈ Assoc.keys firstSlots) (by decide)
  obtain ⟨kept, hs', ht'⟩ :=
    h.table? (by decide : collectionPath ∈ Assoc.keys firstSlots) (by decide)
  rw [hs, ht, hs', ht']

theorem lockstep_keepBuilt (h : s.Alike src t) (v : Value) :
    Lockstep (Over src) (PluginSession.Alike src) (keepBuilt s v) (keepBuilt t v) := by
  have hfailed : s.failure.isSome = t.failure.isSome := h.same (·.failure.isSome) fun _ _ => rfl
  unfold keepBuilt
  rw [hfailed, builtValue_of_alike h]
  refine Lockstep.ite (.pure h) ((Lockstep.lift (.refl _)).bind_eq fun b => ?_)
  cases b.keepBuilt with
  | ok derived =>
    exact .pure ⟨h.store, congrArg (fun x : PluginSession => { x with derived }) h.rest⟩
  | error cause =>
    cases cause with
    | depth => exact .throw _
    | _ => exact lockstep_failPhase h _ _

variable {cache cache' : ParseCache} {plugin : Plugin}

/-- Sessions are opened alike with parsed files that are sound. -/
theorem alike_of_start (hc : src.Sound cache) (hc' : src.Sound cache') (project : Project)
    (table : RouteTable) (plugin : Plugin) :
    ResultsAlike (PluginSession.Alike src)
      (PluginSession.start src.files project table cache plugin)
      (PluginSession.start src.files project table cache' plugin) := by
  rw [PluginSession.start_eq, PluginSession.start_eq]
  split
  · exact .error _
  · cases src.files.resolve project.root with
    | error e => exact .error e
    | ok root =>
      cases plugin.config.toEntries with
      | error e => exact .error e
      | ok config => exact .ok ⟨⟨plugin.name, ⟨cache, rfl, hc⟩, ⟨cache', rfl, hc'⟩, rfl, rfl⟩, rfl⟩

include hn

theorem lockstep_runPhase {phase : Phase Value} (hp : phase.Timeless) (h : s.Alike src t)
    (name : Text) :
    Lockstep (Over src) (fun x y => x.1.Alike src y.1 ∧ x.2 = y.2) (runPhase s name phase)
      (runPhase t name phase) := by
  intro w u hwu
  unfold runPhase
  obtain ⟨v, v', x, y, hs, ht, hv, hr⟩ | ⟨e, x, y, hs, ht, hr⟩ :=
    (hp.lockstep hn ⟨w, s⟩ ⟨u, t⟩ ⟨hwu.left, hwu.right, h⟩).ok_or_error
  · rw [hs, ht]
    exact .ok ⟨hr.session, hv⟩ ⟨hr.left, hr.right⟩
  · rw [hs, ht]
    dsimp only
    split
    · exact .error ⟨hr.left, hr.right⟩
    · have hfail := (lockstep_failPhase hr.session name e.report).bind fun x' y' hx =>
        Lockstep.pure (R := Over src) (V := fun p q => p.1.Alike src q.1 ∧ p.2 = q.2)
          (a := (x', Value.null)) (b := (y', Value.null)) ⟨hx, rfl⟩
      exact hfail x.world y.world ⟨hr.left, hr.right⟩

theorem lockstep_openAndCollect (hc : src.Sound cache) (hc' : src.Sound cache') (project : Project)
    (table : RouteTable) (hp : plugin.Timeless) :
    Lockstep (Over src) (PluginSession.Alike src) (openAndCollect project table cache plugin)
      (openAndCollect project table cache' plugin) := by
  have hstart : Lockstep (Over src) (PluginSession.Alike src)
      (Run.onFiles (PluginSession.start · project table cache plugin))
      (Run.onFiles (PluginSession.start · project table cache' plugin)) := by
    refine Lockstep.get.bind fun w u hwu => ?_
    have hfiles : w.files = src.files ∧ u.files = src.files :=
      ⟨congrArg Sources.files hwu.left, congrArg Sources.files hwu.right⟩
    rw [hfiles.1, hfiles.2]
    exact .lift (alike_of_start hc hc' project table plugin)
  refine hstart.bind fun s t hst => ?_
  cases hphase : plugin.collector with
  | none => exact .pure hst
  | some phase =>
    refine (Run.lockstep_say _ _).bind_eq fun _ => ?_
    exact (lockstep_runPhase hn (hp phase (.inl hphase)) hst _).bind fun _ _ h => .pure h.1

theorem lockstep_build (hp : s.plugin.Timeless) (h : s.Alike src t) :
    Lockstep (Over src) (PluginSession.Alike src) (buildUnlessFailed s) (buildUnlessFailed t) := by
  have hplugin := h.same PluginSession.plugin fun _ _ => rfl
  have hbuilder : Lockstep (Over src) (fun x y => x.1.Alike src y.1 ∧ x.2 = y.2) (runBuilder s)
      (runBuilder t) := by
    unfold runBuilder
    rw [← hplugin]
    cases hphase : s.plugin.buildPhase with
    | none => exact .pure ⟨h, rfl⟩
    | some phase => exact lockstep_runPhase hn (hp phase (.inr (.inl hphase))) h _
  unfold buildUnlessFailed
  rw [h.same PluginSession.failure fun _ _ => rfl]
  refine Lockstep.ite (.pure h) ((Run.lockstep_say _ _).bind_eq fun _ => hbuilder.bind ?_)
  rintro ⟨x, v⟩ ⟨y, v'⟩ ⟨hxy, rfl⟩
  exact lockstep_keepBuilt hxy v

theorem lockstep_stage (hp : s.plugin.Timeless) (h : s.Alike src t) :
    Lockstep (Over src) (PluginSession.Alike src) (stageUnlessFailed s) (stageUnlessFailed t) := by
  have hfailure := h.same PluginSession.failure fun _ _ => rfl
  have hplugin := h.same PluginSession.plugin fun _ _ => rfl
  unfold stageUnlessFailed
  split
  · next phase hf hphase =>
    split
    · next phase' _ hphase' =>
      rw [← hplugin, hphase] at hphase'
      cases hphase'
      have hgiven :
          PluginSession.Alike src { s with data := s.derived } { t with data := t.derived } :=
        ⟨h.store, congrArg (fun z : PluginSession => { z with data := z.derived }) h.rest⟩
      refine (Run.lockstep_say _ _).bind_eq fun _ => ?_
      exact (lockstep_runPhase hn (hp phase (.inr (.inr hphase))) hgiven _).bind
        fun _ _ hr => .pure hr.1
    · next hskip => exact absurd (hplugin ▸ hphase) (hskip phase (hfailure ▸ hf))
  · next hskip =>
    split
    · next phase hf hphase =>
      exact absurd (hplugin ▸ hphase) (hskip phase (hfailure ▸ hf))
    · exact .pure h

/-- Two lives of a plugin over the same files end alike, whatever was parsed before each of them. -/
theorem alike_of_lives {project : Project} {table : RouteTable} (hp : plugin.Timeless)
    (hs : Life src project table src.Sound plugin s)
    (ht : Life src project table src.Sound plugin t) : s.Alike src t := by
  obtain ⟨hc, h0, collects, h1, builds, h2, stages⟩ := hs
  obtain ⟨hc', h0', collects', h1', builds', h2', stages'⟩ := ht
  have hplugin := (opened_for_of_openAndCollect collects).1
  have hbuilt := (aged_of_build builds).plugin
  have hcollected := (lockstep_openAndCollect hn hc hc' project table hp).related ⟨h0, h0'⟩
    collects collects'
  have hbuilds := (lockstep_build hn (hplugin ▸ hp) hcollected).related ⟨h1, h1'⟩ builds builds'
  exact (lockstep_stage hn (hbuilt ▸ hplugin ▸ hp) hbuilds).related ⟨h2, h2'⟩ stages stages'

/-- What a session hands on is sound if what it was given is. -/
theorem sound_of_collected {project : Project} {table : RouteTable} (hp : plugin.Timeless)
    (h : Collected src project table src.Sound plugin s) (hcache : s.store.parseCache = .ok cache) :
    src.Sound cache := by
  obtain ⟨given, w0, t0, hc, h0, hs⟩ := h
  have halike := (lockstep_openAndCollect hn hc hc project table hp).related ⟨h0, h0⟩ hs hs
  obtain ⟨kept, -, hkept, -, hsound, -⟩ := halike.store.parseCache
  cases hcache.symm.trans hkept
  exact hsound

/-! ### Runs -/

theorem lockstep_collectAll {plugins : List Plugin} (hp : ∀ plugin ∈ plugins, plugin.Timeless)
    (project : Project) (table : RouteTable) (hc : src.Sound cache) (hc' : src.Sound cache') :
    Lockstep (Over src) (List.Forall₂ fun s t => s.Alike src t ∧ s.plugin.Timeless)
      (collectAll project table cache plugins) (collectAll project table cache' plugins) := by
  induction plugins generalizing cache cache' with
  | nil => exact .pure .nil
  | cons plugin rest ih =>
    have hplugin := hp plugin List.mem_cons_self
    have hopen := (lockstep_openAndCollect hn hc hc' project table hplugin).and_left
      fun _ _ _ h => (opened_for_of_openAndCollect h).1 ▸ hplugin
    refine hopen.bind fun s t hst => ?_
    obtain ⟨kept, kept', hs, ht, hsound⟩ := hst.1.store.parseCache
    have hcaches : ResultsAlike (fun c c' => src.Sound c ∧ src.Sound c') s.store.parseCache
        t.store.parseCache := by
      rw [hs, ht]
      exact .ok hsound
    refine (Lockstep.lift hcaches).bind fun c c' hsound => ?_
    have hrest := ih (fun other hm => hp other (List.mem_cons_of_mem _ hm)) hsound.1 hsound.2
    exact hrest.bind fun _ _ h => .pure (.cons hst h)

/-- The routes of a project are resolved alike, and what is parsed for them is sound. -/
theorem lockstep_routes (r : Setup) :
    Lockstep (Over src) (fun x y => x = y ∧ src.Sound x.2) r.routes r.routes := by
  have hhistory (f : World → List Snapshot) : Lockstep (Over src) Eq
      (modify fun w => { w with history := f w } : Run Unit)
      (modify fun w => { w with history := f w }) :=
    fun _ _ h => .ok rfl ⟨h.left, h.right⟩
  have hprepare : Lockstep (Over src) (fun x y => x = y ∧ src.Sound x.2)
      (prepare r.project r.convention) (prepare r.project r.convention) := by
    refine Lockstep.get.bind fun w u h => ?_
    rw [h.left, h.right]
    cases hroutes : resolveRoutes r.project r.convention src .fresh with
    | error e store => exact .throw e
    | ok found store =>
      exact (hhistory _).bind_eq fun _ => .pure ⟨rfl, sound_of_resolveRoutes hn hroutes⟩
  refine (hhistory _).bind_eq fun _ => (Run.lockstep_say _ _).bind_eq fun _ => hprepare.bind ?_
  rintro x y ⟨rfl, hsound⟩
  exact (Run.lockstep_say _ _).bind_eq fun _ => .pure ⟨rfl, hsound⟩

/-- The phases of a run over the same files end alike, each time it is run. -/
theorem lockstep_sessions {r : Setup} (hp : ∀ plugin ∈ r.plugins, plugin.Timeless) :
    Lockstep (Over src) (List.Forall₂ (PluginSession.Alike src)) r.sessions r.sessions := by
  refine (lockstep_routes hn r).bind ?_
  rintro ⟨table, cache⟩ _ ⟨rfl, hsound⟩
  refine (lockstep_collectAll hn hp r.project table hsound hsound).bind fun _ _ hs => ?_
  have hbuilt : ∀ s t, s.Alike src t ∧ s.plugin.Timeless → Lockstep (Over src)
      (fun s t => s.Alike src t ∧ s.plugin.Timeless) (buildUnlessFailed s) (buildUnlessFailed t) :=
    fun _ _ h => (lockstep_build hn h.2 h.1).and_left
      fun _ _ _ hb => (aged_of_build hb).plugin ▸ h.2
  refine (Lockstep.mapM hs hbuilt).bind fun _ _ hs => ?_
  exact Lockstep.mapM hs fun _ _ h => lockstep_stage hn h.2 h.1

end Pipeline

end

end RoutePlugins
