import RoutePlugins.Proofs.Pipeline.CommitFrame

/-!
# The decision to commit

A run settles its sessions, decides, and then either concludes or shows why it was aborted. It is
aborted if and only if some session stands in the way: a phase of it has failed, or its table of
errors is not empty.
-/

namespace RoutePlugins

variable {s : PluginSession}

/-- A value that can be run over counts as true if it has an element. -/
theorem Value.truthy_iff_of_elements {v : Value} {items : List Value} (h : v.elements = .ok items) :
    v.truthy = true ↔ items ≠ [] := by
  cases v with
  | null => cases h
  | bool b => cases h
  | int n => cases h
  | float d => cases h
  | parsed file => cases h
  | object name => cases h
  | str s => cases h; simp [Value.truthy, Value.pointItems, Text.isEmpty]
  | bytes b => cases h; simp [Value.truthy]
  | list items => cases h; simp [Value.truthy]
  | tuple items => cases h; simp [Value.truthy]
  | set items => cases h; simp [Value.truthy]
  | map entries => cases h; simp [Value.truthy]

namespace Pipeline

open World Files

/-! ### The decision -/

/-- A session stands in the way of a commit: a phase of it has failed, or its table of errors has an
element. -/
def Blocks (s : PluginSession) : Prop :=
  s.failure.isSome = true ∨
    ∃ v items, s.records .error = .ok v ∧ v.elements = .ok items ∧ items ≠ []

theorem hasFailed_eq_ok {failed : Bool} (h : s.hasFailed = .ok failed) :
    s.failure.isSome = true ∧ failed = true ∨
      s.failure = none ∧ ∃ v, s.records .error = .ok v ∧ failed = v.truthy := by
  unfold PluginSession.hasFailed at h
  cases hf : s.failure with
  | some failure =>
    rw [hf] at h
    cases h
    exact .inl ⟨rfl, rfl⟩
  | none =>
    rw [hf] at h
    obtain ⟨v, hv, h⟩ := bind_ok_iff.mp h
    cases h
    exact .inr ⟨rfl, v, hv, rfl⟩

variable {sessions : List PluginSession} {project : Project} {result result' : RunResult}
  {w w' : World} {failed : List Text} {settled : List PluginSession} {α : Type} {r : Setup}

/-- The sessions that are named are those that failed. -/
theorem failedNames_eq_ok (h : failedNames sessions = .ok failed) :
    (failed = [] ↔ ∀ s ∈ sessions, s.hasFailed = .ok false) ∧
      ∀ s ∈ sessions, ∃ b, s.hasFailed = .ok b := by
  induction sessions generalizing failed with
  | nil =>
    cases h
    simp
  | cons s rest ih =>
    obtain ⟨b, hb, h⟩ := bind_ok_iff.mp h
    obtain ⟨others, ho, h⟩ := bind_ok_iff.mp h
    obtain ⟨hnone, hall⟩ := ih ho
    cases h
    refine ⟨?_, List.forall_mem_cons.mpr ⟨⟨b, hb⟩, hall⟩⟩
    cases b with
    | true => simp [hb]
    | false => simp [hb, hnone]

/-! ### Settled sessions -/

/-- What a result tells of the sessions that were settled: for each of them, under the name of its
plugin, the errors and the warnings that are left behind and the data, and which phases failed. -/
structure Reports (result : RunResult) (sessions : List PluginSession) : Prop where
  errors : List.Forall₂ (fun s row => row.1 = s.plugin.name ∧ s.persistedErrors = .ok row.2)
    sessions result.errors
  warnings : List.Forall₂ (fun s row => row.1 = s.plugin.name ∧ s.records .warning = .ok row.2)
    sessions result.warnings
  data : result.data = sessions.map fun s => (s.plugin.name, s.derived)
  failures : result.failures = sessions.filterMap fun s =>
    s.failure.map fun f => (s.plugin.name, (f.1 ++ ": " ++ f.2 : Text))

/-- Settling a session adds it to those that the result tells of. -/
theorem reports_of_settle (hr : Reports result settled)
    (h : settle project result s w = .ok result' w') :
    Reports result' (settled ++ [s]) ∧ result'.staged = result.staged ∧
      result'.committed = result.committed := by
  obtain ⟨errors, w1, h1, h⟩ := bind_eq_ok.mp h
  obtain ⟨warnings, w2, h2, h⟩ := bind_eq_ok.mp h
  obtain ⟨collection, w3, -, h⟩ := bind_eq_ok.mp h
  obtain ⟨staged, w4, -, h⟩ := bind_eq_ok.mp h
  obtain ⟨⟨⟩, w5, -, h⟩ := bind_eq_ok.mp h
  cases h
  obtain ⟨he, -⟩ := lift_eq_ok.mp h1
  obtain ⟨hw, -⟩ := lift_eq_ok.mp h2
  refine ⟨⟨?_, ?_, ?_, ?_⟩, rfl, rfl⟩
  · exact List.rel_append hr.errors (.cons ⟨rfl, he⟩ .nil)
  · exact List.rel_append hr.warnings (.cons ⟨rfl, hw⟩ .nil)
  · simp [hr.data]
  · cases hf : s.failure with
    | none => simp [hr.failures, hf]
    | some failure => simp [hr.failures, hf]

theorem reports_of_foldlM (hr : Reports result settled)
    (h : sessions.foldlM (settle project) result w = .ok result' w') :
    Reports result' (settled ++ sessions) ∧ result'.staged = result.staged ∧
      result'.committed = result.committed := by
  induction sessions generalizing result settled w with
  | nil =>
    cases h
    rw [List.append_nil]
    exact ⟨hr, rfl, rfl⟩
  | cons s rest ih =>
    rw [List.foldlM_cons] at h
    obtain ⟨next, u, hs, h⟩ := bind_eq_ok.mp h
    obtain ⟨hnext, hst, hc⟩ := reports_of_settle hr hs
    obtain ⟨hall, hsts, hcs⟩ := ih hnext h
    rw [List.append_assoc] at hall
    exact ⟨hall, hsts.trans hst, hcs.trans hc⟩

theorem settleAll_eq_ok (h : settleAll project sessions w = .ok (result, failed) w') :
    ∃ merged u,
      mergeStaged project (sessions.filter (·.failure.isNone)) ⟨[], []⟩ w = .ok merged u ∧
      Reports result sessions ∧ result.staged = merged.texts ∧ result.committed = false ∧
      failedNames sessions = .ok failed := by
  obtain ⟨merged, u, hm, h⟩ := bind_eq_ok.mp h
  obtain ⟨result', v, hf, h⟩ := bind_eq_ok.mp h
  obtain ⟨failed', v', hn, h⟩ := bind_eq_ok.mp h
  cases h
  obtain ⟨hn, -⟩ := lift_eq_ok.mp hn
  have hnil : Reports ⟨false, merged.texts, [], [], [], []⟩ [] := ⟨.nil, .nil, rfl, rfl⟩
  obtain ⟨hr, hs, hc⟩ := reports_of_foldlM hnil hf
  exact ⟨merged, u, hm, hr, hs, hc, hn⟩

theorem exists_mem_zip {β γ : Type} {A : α → β → Prop} {B : α → γ → Prop} {l : List α} {m : List β}
    {n : List γ} (h : List.Forall₂ A l m) (h' : List.Forall₂ B l n) {a : α} (ha : a ∈ l) :
    ∃ p ∈ m.zip n, A a p.1 ∧ B a p.2 := by
  induction h generalizing n with
  | nil => simp at ha
  | cons hab _ ih =>
    cases h' with
    | cons hac hrest =>
      obtain rfl | ha := List.mem_cons.mp ha
      · exact ⟨_, List.mem_cons_self, hab, hac⟩
      · obtain ⟨p, hp, hap⟩ := ih hrest ha
        exact ⟨p, List.mem_cons_of_mem _ hp, hap⟩

/-! ### Endings -/

theorem endingStores_eq_ok {work : Run α} {a : α} (h : endingStores sessions work w = .ok a w') :
    ∃ u, work w = .ok a u ∧ SameSources u w' := by
  have hend : Moves SameSources (sessions.forM endStore) :=
    .forM fun s _ => (Moves.lift _).bind fun _ => moves_history _
  unfold endingStores at h
  split at h
  · next b u hw =>
    split at h
    · next hs =>
      cases h
      exact ⟨u, hw, hend.of_ok hs⟩
    · cases h
  · split at h
    · cases h
    · cases h

/-- Records are shown only if they can be run over. -/
theorem elements_of_showRecords {kind : ReportKind} {root : Path} {records : Value}
    (h : showRecords kind root records w = .ok () w') : ∃ items, records.elements = .ok items := by
  cases he : records.elements with
  | ok items => exact ⟨items, rfl⟩
  | error e =>
    have hb : Ledger.boxesOf kind (some root) records = ([], some e) := by
      rw [Ledger.boxesOf, he]
    unfold showRecords at h
    rw [hb] at h
    cases h

theorem mem_of_forM_eq_ok {ε σ : Type} {f : α → EStateM ε σ PUnit} {l : List α} {s t : σ}
    (h : l.forM f s = .ok () t) {a : α} (ha : a ∈ l) : ∃ u v, f a u = .ok () v := by
  induction l generalizing s with
  | nil => simp at ha
  | cons b l ih =>
    change (f b >>= fun _ => l.forM f) s = _ at h
    obtain ⟨⟨⟩, u, hb, h⟩ := bind_eq_ok.mp h
    obtain rfl | ha := List.mem_cons.mp ha
    · exact ⟨s, u, hb⟩
    · exact ih h ha

/-- An aborted run gives what was settled, and has shown the errors of every session. -/
theorem showAbort_eq_ok (h : showAbort project result failed w = .ok result' w') :
    result' = result ∧ ∀ row ∈ result.errors.zip result.warnings,
      ∃ items, row.1.2.elements = .ok items := by
  obtain ⟨⟨⟩, u, hshow, h⟩ := bind_eq_ok.mp h
  obtain ⟨⟨⟩, v, -, h⟩ := bind_eq_ok.mp h
  cases h
  refine ⟨rfl, fun row hrow => ?_⟩
  obtain ⟨s, t, hs⟩ := mem_of_forM_eq_ok hshow hrow
  obtain ⟨⟨⟩, s', hs, -⟩ := bind_eq_ok.mp hs
  exact elements_of_showRecords hs

/-- A run that concludes is committed, and has written the staged texts if it was to write files. -/
theorem conclude_eq_ok {writesFiles : Bool}
    (h : conclude project writesFiles sessions result w = .ok result' w') :
    result' = { result with committed := true } ∧ (writesFiles = true →
      ∃ u n v, SameSources w u ∧ writeTexts project result.staged u = .ok n v ∧
        SameSources v w') := by
  obtain ⟨⟨⟩, u, hshow, h⟩ := bind_eq_ok.mp h
  have hu : SameSources w u := (moves_showAll sessions).of_ok hshow
  cases writesFiles with
  | false =>
    obtain ⟨⟨⟩, v, -, h⟩ := bind_eq_ok.mp h
    cases h
    exact ⟨rfl, by simp⟩
  | true =>
    obtain ⟨n, v, hwrite, h⟩ := bind_eq_ok.mp h
    obtain ⟨⟨⟩, v1, h1, h⟩ := bind_eq_ok.mp h
    obtain ⟨⟨⟩, v2, h2, h⟩ := bind_eq_ok.mp h
    cases h
    refine ⟨rfl, fun _ => ⟨u, n, v, hu, hwrite, ?_⟩⟩
    exact trans_of SameSources ((Run.moves_say _).of_ok h1) ((Run.moves_say _).of_ok h2)

/-- The parts of a run that returns. -/
theorem run_eq_ok (h : r.run w = .ok result w') :
    ∃ sessions w1 settled failed w2 w3, r.sessions w = .ok sessions w1 ∧
      settleAll r.project sessions w1 = .ok (settled, failed) w2 ∧ SameSources w3 w' ∧
      (failed = [] ∧ conclude r.project r.writesFiles sessions settled w2 = .ok result w3 ∨
        failed ≠ [] ∧ showAbort r.project settled failed w2 = .ok result w3) := by
  obtain ⟨sessions, w1, hs, h⟩ := bind_eq_ok.mp h
  obtain ⟨⟨settled, failed⟩, w2, hset, h⟩ := bind_eq_ok.mp h
  obtain ⟨w3, hwork, hend⟩ := endingStores_eq_ok h
  refine ⟨sessions, w1, settled, failed, w2, w3, hs, hset, hend, ?_⟩
  cases failed with
  | nil => exact .inl ⟨rfl, hwork⟩
  | cons name rest => exact .inr ⟨by simp, hwork⟩

/-! ### When a run is aborted -/

theorem not_blocks_of_hasFailed (h : s.hasFailed = .ok false) : ¬ Blocks s := by
  obtain ⟨-, hf⟩ | ⟨hn, v, hv, ht⟩ := hasFailed_eq_ok h
  · cases hf
  rintro (hs | ⟨v', items, hv', he, hi⟩)
  · simp [hn] at hs
  · rw [hv] at hv'
    cases hv'
    have htrue := (Value.truthy_iff_of_elements he).mpr hi
    rw [← ht] at htrue
    cases htrue

/-- The errors of a session that has not failed are left behind as they are. -/
theorem persistedErrors_of_none (h : s.failure = none) : s.persistedErrors = s.records .error := by
  unfold PluginSession.persistedErrors
  rw [h]
  cases s.records .error with
  | ok v => rfl
  | error e => rfl

theorem blocks_of_hasFailed (h : s.hasFailed = .ok true)
    (he : ∃ v items, s.persistedErrors = .ok v ∧ v.elements = .ok items) : Blocks s := by
  obtain ⟨hf, -⟩ | ⟨hn, v, hv, ht⟩ := hasFailed_eq_ok h
  · exact .inl hf
  obtain ⟨v', items, hp, hi⟩ := he
  rw [persistedErrors_of_none hn, hv] at hp
  cases hp
  exact .inr ⟨v, items, hv, hi, (Value.truthy_iff_of_elements hi).mp ht.symm⟩

/-- Some session of those that failed blocks, once the errors of all have been shown. -/
theorem exists_blocks {settled : RunResult} {u u' : World}
    (hset : settleAll project sessions w = .ok (settled, failed) w') (hne : failed ≠ [])
    (hshow : showAbort project settled failed u = .ok result u') : ∃ s ∈ sessions, Blocks s := by
  obtain ⟨-, -, -, hreports, -, -, hfailed⟩ := settleAll_eq_ok hset
  obtain ⟨hnone, hall⟩ := failedNames_eq_ok hfailed
  obtain ⟨-, hshown⟩ := showAbort_eq_ok hshow
  by_contra hno
  refine hne (hnone.mpr fun s hs => ?_)
  obtain ⟨b, hb⟩ := hall s hs
  cases b with
  | false => exact hb
  | true =>
    obtain ⟨row, hrow, herrors, -⟩ := exists_mem_zip hreports.errors hreports.warnings hs
    obtain ⟨items, hi⟩ := hshown row hrow
    exact absurd ⟨s, hs, blocks_of_hasFailed hb ⟨_, items, herrors.2, hi⟩⟩ hno

/-- A run that returns tells of its sessions, and is aborted if and only if one of them stands in
the way. -/
theorem committed_eq_false_iff (h : r.run w = .ok result w') :
    ∃ sessions w1, r.sessions w = .ok sessions w1 ∧ Reports result sessions ∧
      (result.committed = false ↔ ∃ s ∈ sessions, Blocks s) := by
  obtain ⟨sessions, w1, settled, failed, w2, w3, hs, hset, -, hend⟩ := run_eq_ok h
  refine ⟨sessions, w1, hs, ?_⟩
  obtain ⟨-, -, -, hreports, -, hc, hfailed⟩ := settleAll_eq_ok hset
  obtain ⟨rfl, hconc⟩ | ⟨hne, hshow⟩ := hend
  · obtain ⟨rfl, -⟩ := conclude_eq_ok hconc
    have hnone := (failedNames_eq_ok hfailed).1.mp rfl
    refine ⟨⟨hreports.errors, hreports.warnings, hreports.data, hreports.failures⟩, ?_⟩
    constructor
    · intro hf
      cases hf
    · rintro ⟨s, hm, hb⟩
      exact absurd hb (not_blocks_of_hasFailed (hnone s hm))
  · obtain ⟨rfl, -⟩ := showAbort_eq_ok hshow
    refine ⟨hreports, ?_⟩
    constructor
    · intro _
      exact exists_blocks hset hne hshow
    · intro _
      exact hc

end Pipeline

end RoutePlugins
