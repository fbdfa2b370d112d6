import RoutePlugins.Proofs.Json.Documents
import RoutePlugins.Proofs.Pipeline.CommitDecision
import RoutePlugins.Proofs.Pipeline.StagedTexts

/-!
# The table of errors

A record of the ledger holds texts and whole numbers and no doubles, and never lies deep. Only the
request to report an error writes to the table of errors, and it puts such a record in front. So the
errors that a session leaves behind can be read again, and there are none of them if and only if the
session does not stand in the way of a commit.
-/

namespace RoutePlugins

namespace Json

/-- A value that can be read again: it has no doubles, no number in it is too long, and it lies at
most `depth` deep. -/
abbrev Shallow (depth : Nat) (v : Json) : Prop := Within FewDigits (fun _ => False) depth v

theorem Shallow.legible {m depth : Nat} {v : Json} (h : Shallow m v) (hd : m ≤ depth) :
    Legible depth v :=
  Within.imp h (fun _ hn => hn) (fun _ hf => hf.elim) hd

end Json

/-! ### Records -/

namespace Ledger

open Store Json

theorem within_record (plugin file : Text) (mark : Option Mark) (message : Text) (now : Nat) :
    Within (fun _ => True) (fun _ => False) 3
      (.obj (recordFields (.str plugin) file mark message now)) := by
  cases mark with
  | none => simp [recordFields, placeOf, Within, WithinFields]
  | some m =>
    simp [recordFields, placeOf, Mark.toJson, Point.toJson, Within, WithinFields]

/-- The errors of a store are a list of shallow values. -/
def Tabled (s : Store) : Prop :=
  ∃ items, s.slotAt? ReportKind.error.path = some (.arr items) ∧ ∀ v ∈ items, Shallow 3 v

theorem Tabled.keepsSlots {K : AccessPath → Prop} (hK : K ReportKind.error.path) {s t : Store}
    (h : Tabled s) (hk : KeepsSlots K s t) : Tabled t := by
  obtain ⟨items, hslot, hitems⟩ := h
  exact ⟨items, (hk _ hK).trans hslot, hitems⟩

/-- A value that is put in front of the errors has no number that is too long. -/
theorem tabled_unshift {j : Json} (hj : Within (fun _ => True) (fun _ => False) 3 j) :
    Moves (Keeps Tabled) (StoreM.change (·.unshift ReportKind.error.path.toValue (.ofJson j))) :=
  StoreM.moves_change fun s t h ⟨items, hslot, hitems⟩ => by
    obtain ⟨items', new, hc, hkeep⟩ := unshift_eq_ok.mp h
    obtain ⟨hold, hnew⟩ := hc.slotAt (by decide)
    rw [hslot] at hold
    cases hold
    refine ⟨new :: items, by rw [hnew, if_pos rfl], List.forall_mem_cons.mpr ⟨?_, hitems⟩⟩
    obtain ⟨j', hj', hw, rfl⟩ := Value.keep_eq_ok hkeep
    cases Value.ofJson_injective hj'
    exact (hj.fewDigits hw.1).joined

theorem record_eq_ok {l : Ledger} {plugin : Text} (hl : l.plugin = .str plugin) {fs : Files}
    {message : Value} {file : Text} {mark : Option Mark} {fields : List (Text × Json)}
    {s t : LedgerState} (h : l.record fs message file mark s = .ok fields t) :
    ∃ file message now, fields = recordFields (.str plugin) file mark message now := by
  unfold record at h
  obtain ⟨present, u1, -, h⟩ := bind_eq_ok.mp h
  cases present with
  | false => cases h
  | true =>
    simp only [Bool.not_true, Bool.false_eq_true, if_false] at h
    obtain ⟨resolved, u2, -, h⟩ := bind_eq_ok.mp h
    obtain ⟨now, u3, -, h⟩ := bind_eq_ok.mp h
    rw [hl] at h
    cases h
    exact ⟨_, _, _, rfl⟩

/-- A report leaves the errors a list of shallow values. -/
theorem tabled_report {l : Ledger} {plugin : Text} (hl : l.plugin = .str plugin) (fs : Files)
    (kind : ReportKind) (message : Value) (file : Text) (mark : Option Mark) :
    Moves (LedgerState.OnStore (Keeps Tabled)) (l.report fs kind message file mark) := by
  cases kind with
  | warning =>
    have hwrites := KeepsSlots.writesMove (K := (· = ReportKind.error.path))
      ReportKind.warning.proper_path (by decide)
    exact (moves_report hwrites.unshift l fs message file mark).mono fun s t hk h =>
      Tabled.keepsSlots (K := (· = ReportKind.error.path)) rfl h hk
  | error =>
    refine (moves_record l fs message file mark).bind_from fun s fields t hr => ?_
    obtain ⟨file', message', now, rfl⟩ := record_eq_ok hl hr
    refine moves_onStore ?_ t
    refine (StoreM.moves_read _).bind fun kept => (Moves.lift _).bind fun known => ?_
    refine Moves.ite (.pure _) ?_
    exact (tabled_unshift (within_record plugin file' mark message' now)).bind fun _ => .pure _

end Ledger

/-! ### Sessions -/

/-- A session whose ledger is named by a text, and whose errors are a list of shallow values. -/
structure Filed (ledger : Ledger) (store : Store) : Prop where
  named : ∃ plugin : Text, ledger.plugin = .str plugin
  tabled : Ledger.Tabled store

namespace PluginSession

open Store PhaseM

theorem filed_answer {q : Request} (hq : q.isOrdinary = true) {s : PhaseState}
    (h : Filed s.session.ledger s.session.store) :
    Filed (endState (answer q s)).session.ledger (endState (answer q s)).session.store := by
  have hledger := (Pipeline.aged_of_frame (moves_answer q s)).ledger
  rw [hledger]
  refine ⟨h.named, ?_⟩
  by_cases hs : ReportKind.error.path ∈ q.slots
  · obtain ⟨plugin, hname⟩ := h.named
    cases q with
    | report kind message file mark =>
      exact onLedger_moves (Ledger.tabled_report hname s.world.files kind message file mark) s
        h.tabled
    | imports => exact absurd hs (by dsimp only [Request.slots]; decide)
    | reached => exact absurd hs (by dsimp only [Request.slots]; decide)
    | collect => exact absurd hs (by dsimp only [Request.slots]; decide)
    | save => exact absurd hs (by dsimp only [Request.slots]; decide)
    | stage => exact absurd hs (by dsimp only [Request.slots]; decide)
    | _ => cases hs
  · exact h.tabled.keepsSlots hs (keepsSlots_answer hq s)

end PluginSession

/-- The errors stay a list of shallow values through every phase that does not use the store
directly. -/
theorem Phase.Ordinary.filed {α : Type} {phase : Phase α} (hp : phase.Ordinary) {s : PhaseState}
    (h : Filed s.session.ledger s.session.store) :
    Filed (endState (phase.run s)).session.ledger (endState (phase.run s)).session.store := by
  induction hp generalizing s with
  | done a => exact h
  | fail e => exact h
  | ask q next hq _ ih =>
    rw [Phase.run_ask]
    exact ih _ (PluginSession.filed_answer hq h)

namespace Pipeline

variable {s : PluginSession} {w w' : World} {src : Sources} {project : Project} {table : RouteTable}
  {C : ParseCache → Prop} {plugin : Plugin}

theorem derived_of_runPhase {s' : PluginSession} {name : Text} {phase : Phase Value} {v : Value}
    (h : runPhase s name phase w = .ok (s', v) w') : s'.derived = s.derived := by
  obtain hp | ⟨e, t, hp, -, -, rfl, -⟩ := runPhase_eq_ok h
  · have hsession := congrArg PluginSession.derived (phase.moves_run.of_ok hp).session
    exact hsession
  · have hsession := congrArg PluginSession.derived (phase.moves_run.of_error hp).session
    exact hsession

/-- What holds of the ledger, the store and the data of a session when it is opened, and is kept by
each of its phases and as data is kept, holds at the end of its life. -/
theorem Life.invariant (h : Life src project table C plugin s) {P : Ledger → Store → Json → Prop}
    (hstart : ∀ root (cache : ParseCache),
      P ⟨.str plugin.name, root⟩ (.active plugin.name ⟨cache, firstSlots⟩) .null)
    (hphase : ∀ phase, plugin.collector = some phase ∨ plugin.buildPhase = some phase ∨
      plugin.stager = some phase → ∀ t : PhaseState,
        P t.session.ledger t.session.store t.session.derived →
          P (endState (phase.run t)).session.ledger (endState (phase.run t)).session.store
            t.session.derived)
    (hkeep : ∀ {ledger store old v new}, Value.keepBuilt v = .ok new → P ledger store old →
      P ledger store new) : P s.ledger s.store s.derived := by
  obtain ⟨-, -, collects, -, builds, -, stages⟩ := h
  rename_i cache collected built w0 w1 w2 t0 t1 t2
  have hrun {name : Text} {phase : Phase Value} (hm : plugin.collector = some phase ∨
      plugin.buildPhase = some phase ∨ plugin.stager = some phase) {s s' : PluginSession}
      {v : Value} {w w' : World} (h : P s.ledger s.store s.derived)
      (hr : runPhase s name phase w = .ok (s', v) w') : P s'.ledger s'.store s'.derived := by
    have hend := hphase phase hm ⟨w, s⟩ h
    rw [derived_of_runPhase hr]
    obtain hok | ⟨e, t, herr, -, -, rfl, -⟩ := runPhase_eq_ok hr
    · rwa [hok] at hend
    · rwa [herr] at hend
  have hplugin := (opened_for_of_openAndCollect collects).1
  have hcollected : P collected.ledger collected.store collected.derived := by
    obtain ⟨opened, hopened, hopen⟩ := openAndCollect_eq_ok collects
    obtain ⟨root, config, -, -, rfl⟩ := PluginSession.start_eq_ok hopened
    obtain ⟨-, rfl⟩ | ⟨phase, v, u, hsome, -, hr⟩ := hopen
    · exact hstart root cache
    · exact hrun (.inl hsome) (hstart root cache) hr
  have hbuilt : P built.ledger built.store built.derived := by
    obtain ⟨-, rfl⟩ | ⟨u, t, v, u', -, -, hr, hk⟩ := buildUnlessFailed_eq_ok builds
    · exact hcollected
    have ht : P t.ledger t.store t.derived := by
      obtain ⟨-, rfl, -⟩ | ⟨phase, hsome, hr⟩ := runBuilder_eq_ok hr
      · exact hcollected
      · rw [hplugin] at hsome
        exact hrun (.inr (.inl hsome)) hcollected hr
    obtain ⟨-, rfl⟩ | ⟨-, b, -, ⟨derived, hb, rfl⟩ | ⟨cause, -, rfl⟩⟩ := keepBuilt_eq_ok hk
    · exact ht
    · exact hkeep hb ht
    · exact ht
  obtain ⟨-, rfl⟩ | ⟨phase, v, u, -, hsome, -, hr⟩ := stageUnlessFailed_eq_ok stages
  · exact hbuilt
  · rw [(aged_of_build builds).plugin, hplugin] at hsome
    exact hrun (s := { built with data := built.derived }) (.inr (.inr hsome)) hbuilt hr

/-- The errors of a session of an ordinary plugin are a list of shallow values. -/
theorem Life.filed (h : Life src project table C plugin s) (hp : plugin.Ordinary) :
    Filed s.ledger s.store :=
  h.invariant (P := fun ledger store _ => Filed ledger store)
    (fun _ _ => ⟨⟨_, rfl⟩, [], rfl, by simp⟩) (fun phase hm _ ht => (hp phase hm).filed ht)
    fun _ ht => ht

/-- In a run of ordinary plugins the errors of every session are a list of shallow values. -/
theorem filed_of_sessions {r : Setup} (hp : ∀ plugin ∈ r.plugins, plugin.Ordinary)
    {sessions : List PluginSession} (h : r.sessions w = .ok sessions w') :
    ∀ s ∈ sessions, Filed s.ledger s.store := by
  obtain ⟨table, cache, -, -, -, -, hlives⟩ := lives_of_sessions (C := fun _ => True) h
  intro s hs
  obtain ⟨plugin, hm, hlife⟩ :=
    exists_of_forall₂_left (hlives trivial fun _ _ _ _ _ _ => trivial).flip hs
  exact hlife.filed (hp plugin hm)

end Pipeline

/-! ### What is left behind -/

theorem Value.truthy_arr (items : List Json) :
    (Value.ofJson (.arr items)).truthy = !items.isEmpty := by
  cases items with
  | nil => rfl
  | cons v rest => rfl

theorem PluginSession.failureRecord_eq (plugin phase text : Text) :
    ∃ j, failureRecord plugin phase text = .ofJson j ∧ Json.Shallow 3 j :=
  ⟨.obj [("plugin", .str plugin), ("file", .str Ledger.unknown), ("line", .str Ledger.unknown),
      ("column", .str Ledger.unknown), ("source", .str Ledger.unknown),
      ("message", .str (phase ++ " phase failed: " ++ text)), ("loc", .str Ledger.unknown),
      ("phase", .str phase)], rfl, by simp [Json.Within, Json.WithinFields]⟩

/-- A session leaves a list of shallow errors behind. It has none if and only if it does not stand
in the way of a commit. -/
theorem Filed.persistedErrors {s : PluginSession} (h : Filed s.ledger s.store) :
    ∃ items, s.persistedErrors = .ok (.ofJson (.arr items)) ∧ Json.Shallow 4 (.arr items) ∧
      s.hasFailed = .ok (!items.isEmpty) := by
  obtain ⟨items, hslot, hitems⟩ := h.tabled
  have hrecords : s.records .error = .ok (.ofJson (.arr items)) :=
    Store.get_of_slotAt (by decide) (by decide) hslot
  unfold PluginSession.persistedErrors PluginSession.hasFailed
  rw [hrecords]
  cases hf : s.failure with
  | none =>
    refine ⟨items, rfl, ⟨by decide, Json.withinItems_iff.mpr hitems⟩, ?_⟩
    exact congrArg Except.ok (Value.truthy_arr items)
  | some failure =>
    obtain ⟨phase, text⟩ := failure
    obtain ⟨j, hj, hshallow⟩ := PluginSession.failureRecord_eq s.plugin.name phase text
    refine ⟨j :: items, ?_, ⟨by decide, hshallow, Json.withinItems_iff.mpr hitems⟩, rfl⟩
    change Except.ok (Value.list (PluginSession.failureRecord s.plugin.name phase text ::
      Value.ofJsonItems items)) = _
    rw [hj]
    rfl

end RoutePlugins
