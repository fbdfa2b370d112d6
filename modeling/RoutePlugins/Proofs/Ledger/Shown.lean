import RoutePlugins.Ledger.Persisted
import RoutePlugins.Proofs.Pipeline.LeftArtifacts

/-!
# The records of a result

What a session leaves behind are JSON values, and the result of a run has those of its errors and
of its warnings under the name of the plugin. Before a run returns it shows each of their elements,
and only a record can be shown. So the elements are records, and none is lost when only the records
in a document are loaded.
-/

namespace RoutePlugins

variable {kind : ReportKind} {j : Json}

/-! ### Tables hold JSON -/

theorem Arena.ofJson_of_read {a : Arena} {path : AccessPath} {v : Value}
    (hp : parsedPath.isFront path = false) (h : a.read path = .ok v) : ∃ j, v = .ofJson j := by
  rw [Arena.read_eq_readSlots fun _ _ => hp] at h
  unfold Arena.readSlots at h
  split at h
  · next j _ =>
    cases h
    exact ⟨j, rfl⟩
  · split at h
    · next registered j _ =>
      cases hd : j.descend (path.drop registered.length) with
      | error e =>
        rw [hd] at h
        cases h
      | ok found =>
        rw [hd] at h
        cases h
        exact ⟨found, rfl⟩
    · split at h
      · cases h
        exact ⟨_, rfl⟩
      · cases h

theorem Store.ofJson_of_get {s : Store} {path : AccessPath} (hpath : path.Proper)
    (hp : parsedPath.isFront path = false) {v : Value} (h : s.get path.toValue = .ok v) :
    ∃ j, v = .ofJson j := by
  obtain ⟨⟨name, a⟩, -, h⟩ := bind_ok_iff.mp h
  rw [AccessPath.ofValue_toValue hpath] at h
  exact Arena.ofJson_of_read hp h

namespace PluginSession

variable {s : PluginSession} {v : Value} {rows : List (Text × Value)}

theorem ofJson_of_persistedErrors (h : s.persistedErrors = .ok v) : ∃ j, v = .ofJson j := by
  obtain ⟨kept, hkept, h⟩ := bind_ok_iff.mp h
  obtain ⟨j, rfl⟩ := Store.ofJson_of_get (by decide) (by decide) hkept
  cases hf : s.failure with
  | none =>
    rw [hf] at h
    cases h
    exact ⟨j, rfl⟩
  | some failure =>
    obtain ⟨phase, text⟩ := failure
    rw [hf] at h
    cases j with
    | arr items =>
      cases h
      obtain ⟨record, hrecord, -⟩ := failureRecord_eq s.plugin.name phase text
      refine ⟨.arr (record :: items), ?_⟩
      rw [hrecord]
      rfl
    | _ => cases h

/-- What a session leaves behind are JSON values. -/
theorem ofJson_of_artifacts (h : s.artifacts = .ok rows) : ∀ e ∈ rows, ∃ j, e.2 = .ofJson j := by
  obtain ⟨errors, warnings, collection, staged, he, hw, hc, hs, rfl⟩ := artifacts_eq_ok h
  simp only [Pipeline.artifactNames, List.zip_cons_cons, List.zip_nil_left, List.forall_mem_cons,
    List.not_mem_nil, false_implies, implies_true, and_true]
  exact ⟨Store.ofJson_of_get (by decide) (by decide) hc, ⟨s.derived, rfl⟩,
    ofJson_of_persistedErrors he, Store.ofJson_of_get (by decide) (by decide) hw,
    Store.ofJson_of_get (by decide) (by decide) hs⟩

/-- What a session leaves behind for the reports of a kind. -/
def left (s : PluginSession) : ReportKind → Except Fault Value
  | .error => s.persistedErrors
  | .warning => s.records .warning

theorem mem_artifacts_of_left (h : s.artifacts = .ok rows) (hv : s.left kind = .ok v) :
    (Ledger.fileName kind, v) ∈ rows := by
  obtain ⟨errors, warnings, collection, staged, he, hw, -, -, rfl⟩ := artifacts_eq_ok h
  cases kind with
  | error =>
    cases he.symm.trans hv
    simp [Pipeline.artifactNames, Ledger.fileName]
  | warning =>
    cases hw.symm.trans hv
    simp [Pipeline.artifactNames, Ledger.fileName]

end PluginSession

/-! ### Records that were shown -/

namespace Ledger

theorem map_of_boxes {kind : Text} {root : Option Path} {items : List Value}
    (h : (boxes kind root items).2 = none) : ∀ v ∈ items, ∃ entries, v = .map entries := by
  induction items with
  | nil => simp
  | cons v rest ih =>
    rw [boxes] at h
    cases v with
    | map entries => exact List.forall_mem_cons.mpr ⟨⟨entries, rfl⟩, ih h⟩
    | _ => cases h

theorem ofJsonItems_of_map {items : List Json}
    (h : ∀ v ∈ Value.ofJsonItems items, ∃ entries, v = .map entries) :
    Value.ofJsonItems items =
      (recordsIn (.arr items)).map fun fields => .ofJson (.obj fields) := by
  induction items with
  | nil => rfl
  | cons j rest ih =>
    rw [Value.ofJsonItems] at h ⊢
    obtain ⟨⟨entries, hj⟩, hrest⟩ := List.forall_mem_cons.mp h
    cases j with
    | obj fields =>
      rw [ih hrest]
      rfl
    | _ => cases hj

/-- The elements of a value are its records, if all of them are maps. -/
theorem elements_of_map {items : List Value} (he : (Value.ofJson j).elements = .ok items)
    (hmap : ∀ v ∈ items, ∃ entries, v = .map entries) :
    items = (recordsIn j).map fun fields => .ofJson (.obj fields) := by
  cases j with
  | arr js =>
    cases he
    exact ofJsonItems_of_map hmap
  | obj fields =>
    cases he
    cases fields with
    | nil => rfl
    | cons e rest =>
      obtain ⟨entries, hkey⟩ := hmap (.str e.1) (by simp [Value.ofJsonFields])
      cases hkey
  | str t =>
    cases he
    obtain ⟨points⟩ := t
    cases points with
    | nil => rfl
    | cons p rest =>
      obtain ⟨entries, hpoint⟩ := hmap (.str ⟨[p]⟩) (by simp [Value.pointItems])
      cases hpoint
  | _ => cases he

end Ledger

/-! ### Results -/

/-- The rows of a kind in a result. -/
def RunResult.rows (result : RunResult) : ReportKind → List (Text × Value)
  | .error => result.errors
  | .warning => result.warnings

/-- The document of the records of a kind that a result has for a plugin. -/
def RunResult.document (result : RunResult) (kind : ReportKind) (name : Text) : Json :=
  ((Assoc.get? name (result.rows kind)).bind Value.toJson?).getD .null

/-- The reports of a kind that a result tells of: the records of each plugin, in the order of the
names, with halves put together. -/
def RunResult.reports (result : RunResult) (kind : ReportKind) : List (List (Text × Json)) :=
  (sortTexts (Assoc.keys (result.rows kind))).flatMap fun name =>
    Ledger.recordsIn (result.document kind name).joined

namespace Pipeline

open World Files

variable {result : RunResult} {sessions : List PluginSession}

theorem Reports.rows (h : Reports result sessions) (kind : ReportKind) :
    List.Forall₂ (fun s row => row.1 = s.plugin.name ∧ s.left kind = .ok row.2) sessions
      (result.rows kind) := by
  cases kind with
  | error => exact h.errors
  | warning => exact h.warnings

theorem Reports.keys (h : Reports result sessions) (kind : ReportKind) :
    Assoc.keys (result.rows kind) = sessions.map (·.plugin.name) := by
  have hrows := h.rows kind
  generalize result.rows kind = rows at hrows ⊢
  clear h
  induction hrows with
  | nil => rfl
  | cons hrow _ ih => exact List.cons_eq_cons.mpr ⟨hrow.1, ih⟩

/-- A result has the document of what a session has left behind, under the name of its plugin. -/
theorem Reports.document (h : Reports result sessions)
    (hnodup : (sessions.map (·.plugin.name)).Nodup) {s : PluginSession} (hs : s ∈ sessions)
    (hj : s.left kind = .ok (.ofJson j)) :
    (s.plugin.name, .ofJson j) ∈ result.rows kind ∧ result.document kind s.plugin.name = j := by
  have hrows := h.rows kind
  obtain ⟨row, hrow, hname, hleft⟩ := exists_of_forall₂_left hrows hs
  obtain rfl : row = (s.plugin.name, .ofJson j) :=
    Prod.ext hname (Except.ok.inj (hleft.symm.trans hj))
  refine ⟨hrow, ?_⟩
  rw [← h.keys kind] at hnodup
  rw [RunResult.document, Assoc.get?_of_mem hnodup hrow, Option.bind_some, Value.toJson?_ofJson]
  rfl

/-- Records that were shown are the elements of what holds them. -/
theorem elements_of_shown {root : Path} {w w' : World}
    (h : showRecords kind root (.ofJson j) w = .ok () w') :
    (Value.ofJson j).elements =
      .ok ((Ledger.recordsIn j).map fun fields => .ofJson (.obj fields)) := by
  obtain ⟨items, hitems⟩ := elements_of_showRecords h
  have hboxes : (Ledger.boxes kind.name (some root) items).2 = none := by
    unfold showRecords at h
    rw [Ledger.boxesOf, hitems] at h
    obtain ⟨⟨⟩, u, -, h⟩ := bind_eq_ok.mp h
    cases hfault : (Ledger.boxes kind.name (some root) items).2 with
    | none => rfl
    | some e =>
      rw [hfault] at h
      cases h
  rw [hitems, Ledger.elements_of_map hitems (Ledger.map_of_boxes hboxes)]

/-- A run that returns has shown the records of its result. -/
theorem shown_of_run {r : Setup} {w w' : World} (h : r.run w = .ok result w') (kind : ReportKind) :
    ∀ row ∈ result.rows kind, ∃ root u v, showRecords kind root row.2 u = .ok () v := by
  obtain ⟨sessions, w1, settled, failed, w2, w3, hs, hset, -, hend⟩ := run_eq_ok h
  obtain ⟨-, -, -, hreports, -, -, hfailed⟩ := settleAll_eq_ok hset
  intro row hrow
  obtain ⟨rfl, hconc⟩ | ⟨-, hshow⟩ := hend
  · -- A committed run has shown the records of each session.
    obtain ⟨rfl, -⟩ := conclude_eq_ok hconc
    obtain ⟨s, hm, -, hleft⟩ := exists_of_forall₂_left (hreports.rows kind).flip
      (show row ∈ settled.rows kind by cases kind <;> exact hrow)
    have hnone : s.failure = none := by
      have hok := (failedNames_eq_ok hfailed).1.mp rfl s hm
      obtain ⟨-, hfalse⟩ | ⟨hn, -⟩ := hasFailed_eq_ok hok
      · cases hfalse
      · exact hn
    obtain ⟨⟨⟩, u, hall, -⟩ := bind_eq_ok.mp hconc
    obtain ⟨u1, u2, hone⟩ := mem_of_forM_eq_ok hall hm
    obtain ⟨errors, v1, hreadErrors, hone⟩ := bind_eq_ok.mp hone
    obtain ⟨he, -⟩ := lift_eq_ok.mp hreadErrors
    obtain ⟨⟨⟩, v2, hshown, hone⟩ := bind_eq_ok.mp hone
    obtain ⟨warnings, v3, hreadWarnings, hshown'⟩ := bind_eq_ok.mp hone
    obtain ⟨hw, -⟩ := lift_eq_ok.mp hreadWarnings
    cases kind with
    | error =>
      change s.persistedErrors = .ok row.2 at hleft
      rw [persistedErrors_of_none hnone, he] at hleft
      cases hleft
      exact ⟨_, _, _, hshown⟩
    | warning =>
      cases hw.symm.trans hleft
      exact ⟨_, _, _, hshown'⟩
  · -- An aborted run has shown the rows of its result.
    obtain ⟨⟨⟩, u, hall, hrest⟩ := bind_eq_ok.mp hshow
    obtain ⟨rfl, -⟩ := showAbort_eq_ok hshow
    obtain ⟨s, hm, -, hleft⟩ := exists_of_forall₂_left (hreports.rows kind).flip hrow
    obtain ⟨⟨errors, warnings⟩, hpair, ⟨-, he⟩, -, hw⟩ :=
      exists_mem_zip hreports.errors hreports.warnings hm
    obtain ⟨u1, u2, hone⟩ := mem_of_forM_eq_ok hall hpair
    obtain ⟨⟨⟩, v1, hshown, hshown'⟩ := bind_eq_ok.mp hone
    cases kind with
    | error =>
      rw [← Except.ok.inj (he.symm.trans hleft)]
      exact ⟨_, _, _, hshown⟩
    | warning =>
      rw [← Except.ok.inj (hw.symm.trans hleft)]
      exact ⟨_, _, _, hshown'⟩

end Pipeline

end RoutePlugins
