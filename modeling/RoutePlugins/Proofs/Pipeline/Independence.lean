import RoutePlugins.Proofs.Pipeline.AbortSafety
import RoutePlugins.Proofs.Plugin.Alike

/-!
# Plugins do not depend on each other

What a plugin comes to in a run, it comes to when it is run alone over the same files: the same
data, collection, staged texts and failure, and the same errors and warnings up to their times. This
holds of plugins that make the requests they are given and do not look at the times of records. So a
run is committed if and only if the run of each of its plugins alone is.
-/

namespace RoutePlugins.Pipeline

/-- The run of one plugin alone. -/
def Setup.alone (r : Setup) (plugin : Plugin) : Setup := { r with plugins := [plugin] }

/-- Two sessions come to the same, up to the times of records. -/
structure SameOutcome (s t : PluginSession) : Prop where
  data : s.derived = t.derived
  collection : ∃ v, s.table? collectionPath = .ok v ∧ t.table? collectionPath = .ok v
  staged : ∃ v, s.table? stagedPath = .ok v ∧ t.table? stagedPath = .ok v
  failure : s.failure = t.failure
  records : ∀ kind, ∃ v v', s.records kind = .ok v ∧ t.records kind = .ok v' ∧ v.SameRecords v'

variable {s t : PluginSession}

theorem SameOutcome.of_alike {src : Sources} (h : s.Alike src t) : SameOutcome s t where
  data := h.same PluginSession.derived fun _ _ => rfl
  collection := h.table? (by decide) (by decide)
  staged := h.table? (by decide) (by decide)
  failure := h.same PluginSession.failure fun _ _ => rfl
  records := h.records

/-! ### What stands in the way of a commit -/

theorem SameOutcome.symm (h : SameOutcome s t) : SameOutcome t s := by
  obtain ⟨v, hv, hv'⟩ := h.collection
  obtain ⟨x, hx, hx'⟩ := h.staged
  refine ⟨h.data.symm, ⟨v, hv', hv⟩, ⟨x, hx', hx⟩, h.failure.symm, fun kind => ?_⟩
  obtain ⟨y, y', hy, hy', j, j', hj, hj', heq⟩ := h.records kind
  exact ⟨y', y, hy', hy, j', j, hj', hj, heq.symm⟩

theorem length_ofJsonItems (items : List Json) :
    (Value.ofJsonItems items).length = items.length := by
  rw [Value.ofJsonItems_eq_map, List.length_map]

/-- There are as many records in two tables that differ only in the times of records. -/
theorem length_elements_of_sameRecords {v v' : Value} (h : v.SameRecords v') {items : List Value}
    (he : v.elements = .ok items) : ∃ items', v'.elements = .ok items' ∧
      items'.length = items.length := by
  obtain ⟨j, j', rfl, rfl, heq⟩ := h
  obtain ⟨rfl, -⟩ | ⟨kept, kept', rfl, rfl, hmap⟩ := Json.untimed_eq heq
  · exact ⟨items, he, rfl⟩
  · cases he
    have hl := congrArg List.length hmap
    rw [List.length_map, List.length_map] at hl
    exact ⟨_, rfl, by rw [length_ofJsonItems, length_ofJsonItems, hl]⟩

theorem SameOutcome.blocks (h : SameOutcome s t) (hs : Blocks s) : Blocks t := by
  obtain hf | ⟨v, items, hv, he, hne⟩ := hs
  · rw [h.failure] at hf
    exact .inl hf
  · obtain ⟨x, x', hx, hx', hsame⟩ := h.records .error
    cases hv.symm.trans hx
    obtain ⟨items', he', hl⟩ := length_elements_of_sameRecords hsame he
    refine .inr ⟨x', items', hx', he', fun hnil => hne ?_⟩
    rw [hnil] at hl
    exact List.eq_nil_of_length_eq_zero hl.symm

/-! ### Runs -/

/-- The sessions of a run are the ends of lives over the routes of the project, each opened with
sound parsed files. -/
theorem sound_lives_of_sessions {r : Setup} {w w' : World} (hw : w.files.WellFormed)
    (hp : ∀ plugin ∈ r.plugins, plugin.Timeless) {sessions : List PluginSession}
    (h : r.sessions w = .ok sessions w') :
    ∃ table cache snapshot store,
      resolveRoutes r.project r.convention w.sources .fresh = .ok (table, cache, snapshot) store ∧
      List.Forall₂ (Life w.sources r.project table w.sources.Sound) r.plugins sessions := by
  obtain ⟨table, cache, t, u, ht, hprepare, hlives⟩ := lives_of_sessions h
  obtain ⟨snapshot, store, hroutes⟩ := prepare_eq_ok hprepare
  rw [ht] at hroutes
  refine ⟨table, cache, snapshot, store, hroutes, hlives ?_ fun plugin hm s handed hs hcache => ?_⟩
  · exact sound_of_resolveRoutes hw.names hroutes
  · exact sound_of_collected hw.names (hp plugin hm) hs hcache

/-- A run of a plugin alone comes to the same as the life of any session of it over the same routes
and files. -/
theorem same_of_run_alone {r : Setup} {w u u' : World} (hw : w.files.WellFormed)
    {table : RouteTable} {cache : ParseCache} {snapshot : Snapshot} {store : Store}
    (hroutes : resolveRoutes r.project r.convention w.sources .fresh =
      .ok (table, cache, snapshot) store) {plugin : Plugin} (hp : plugin.Timeless)
    (hs : Life w.sources r.project table w.sources.Sound plugin s) (hu : u.sources = w.sources)
    {alone : RunResult} (h : (r.alone plugin).run u = .ok alone u') :
    ∃ t u1, (r.alone plugin).sessions u = .ok [t] u1 ∧ Reports alone [t] ∧ SameOutcome s t ∧
      (alone.committed = false ↔ Blocks s) := by
  obtain ⟨sessions, u1, hsessions, hreports, hblocks⟩ := committed_eq_false_iff h
  have hfiles : u.files = w.files := congrArg Sources.files hu
  have hpu : ∀ other ∈ (r.alone plugin).plugins, other.Timeless :=
    fun other hm => List.mem_singleton.mp hm ▸ hp
  obtain ⟨table', cache', snapshot', store', hroutes', hlives⟩ :=
    sound_lives_of_sessions (hfiles ▸ hw) hpu hsessions
  rw [hu] at hroutes' hlives
  cases hroutes.symm.trans hroutes'
  cases hlives with
  | @cons _ t _ _ ht hnil =>
    cases hnil
    have hsame : SameOutcome s t := .of_alike (alike_of_lives hw.names hp hs ht)
    refine ⟨t, u1, hsessions, hreports, hsame, hblocks.trans ⟨?_, fun hb => ?_⟩⟩
    · rintro ⟨t', ht', hb⟩
      rw [List.mem_singleton.mp ht'] at hb
      exact hsame.symm.blocks hb
    · exact ⟨t, List.mem_singleton_self t, hsame.blocks hb⟩

/-- Every plugin of a run that returns comes to the same as in any run of it alone over the same
files that returns, and the run is committed if and only if these are. -/
theorem plugin_independence (r : Setup) (w : World) (hw : w.files.WellFormed)
    (hp : ∀ plugin ∈ r.plugins, plugin.Timeless) (result : RunResult) (w' : World)
    (hrun : r.run w = .ok result w') :
    ∃ sessions w1, r.sessions w = .ok sessions w1 ∧ Reports result sessions ∧
      List.Forall₂ (fun plugin s => ∀ u alone u', u.sources = w.sources →
        (r.alone plugin).run u = .ok alone u' →
        ∃ t u1, (r.alone plugin).sessions u = .ok [t] u1 ∧ Reports alone [t] ∧ SameOutcome s t)
        r.plugins sessions ∧
      ∀ alone : Plugin → RunResult,
        (∀ plugin ∈ r.plugins, ∃ u u', u.sources = w.sources ∧
          (r.alone plugin).run u = .ok (alone plugin) u') →
        (result.committed = true ↔ ∀ plugin ∈ r.plugins, (alone plugin).committed = true) := by
  obtain ⟨sessions, w1, hs, hreports, hblocks⟩ := committed_eq_false_iff hrun
  obtain ⟨table, cache, snapshot, store, hroutes, hlives⟩ := sound_lives_of_sessions hw hp hs
  have hgiven : ∀ plugin ∈ r.plugins, plugin ∈ r.plugins ∧ plugin.Timeless :=
    fun plugin hm => ⟨hm, hp plugin hm⟩
  have hlives := (List.forall₂_and_left _ _).mpr ⟨hgiven, hlives⟩
  refine ⟨sessions, w1, hs, hreports, hlives.imp fun plugin s hlife => ?_, fun alone halone => ?_⟩
  · intro u alone u' hu h
    obtain ⟨t, u1, ht, hreports, hsame, -⟩ := same_of_run_alone hw hroutes hlife.1.2 hlife.2 hu h
    exact ⟨t, u1, ht, hreports, hsame⟩
  · -- A session stands in the way exactly if the run of its plugin alone is aborted.
    have haborted : List.Forall₂ (fun plugin s => plugin ∈ r.plugins ∧
        ((alone plugin).committed = false ↔ Blocks s)) r.plugins sessions := by
      refine hlives.imp fun plugin s hlife => ⟨hlife.1.1, ?_⟩
      obtain ⟨u, u', hu, h⟩ := halone plugin hlife.1.1
      obtain ⟨_, _, -, -, -, hiff⟩ := same_of_run_alone hw hroutes hlife.1.2 hlife.2 hu h
      exact hiff
    constructor
    · intro hc plugin hm
      obtain ⟨s, hsm, -, hiff⟩ := exists_of_forall₂_left haborted hm
      by_contra hn
      have hfalse := hblocks.mpr ⟨s, hsm, hiff.mp (Bool.not_eq_true _ ▸ hn)⟩
      rw [hc] at hfalse
      cases hfalse
    · intro hc
      by_contra hn
      obtain ⟨s, hsm, hb⟩ := hblocks.mp (Bool.not_eq_true _ ▸ hn)
      obtain ⟨plugin, -, hm, hiff⟩ := exists_of_forall₂_left haborted.flip hsm
      have hfalse := hiff.mpr hb
      rw [hc plugin hm] at hfalse
      cases hfalse

/-! ### A run of two plugins -/

namespace Sample

/-- The page as plugins name it. -/
def pageFile : Text := "/proj/app/page.tsx"

/-- How many elements an answer has. -/
def countOf : Except Fault Value → Value
  | .ok v => .int (v.elements.toOption.getD []).length
  | .error _ => .null

/-- A plugin that parses the page, reports an error about it, and collects how many errors there
are. -/
def reporter : Plugin :=
  ⟨"r", .map [], some (.ask (.parse pageFile) fun _ =>
    .ask (.report .error (.str "bad") pageFile none) fun _ =>
    .ask (.records .error) fun found =>
    .ask (.collect (countOf found)) fun _ => .done .null), none, none, none⟩

/-- A plugin that parses the page, and stages a new text for it. -/
def reader : Plugin :=
  ⟨"s", .map [], some (.ask (.parse pageFile) fun _ => .done .null), none, none,
    some (.ask (.stage (.str "new") pageFile) fun _ => .done .null)⟩

theorem countOf_congr {v v' : Value} (h : v.SameRecords v') :
    countOf (.ok v) = countOf (.ok v') := by
  obtain ⟨j, j', rfl, rfl, heq⟩ := h
  obtain ⟨rfl, -⟩ | ⟨items, items', rfl, rfl, hmap⟩ := Json.untimed_eq heq
  · rfl
  · have hl := congrArg List.length hmap
    rw [List.length_map, List.length_map] at hl
    change Value.int (Value.ofJsonItems items).length = .int (Value.ofJsonItems items').length
    rw [length_ofJsonItems, length_ofJsonItems, hl]

theorem timeless_reporter : reporter.Timeless := by
  rintro phase (h | h | h)
  · cases h
    refine .ask _ _ rfl (fun _ _ _ => rfl) fun _ => .ask _ _ rfl (fun _ _ _ => rfl) fun _ => ?_
    refine .ask _ _ rfl (fun v v' hv => ?_) fun _ =>
      .ask _ _ rfl (fun _ _ _ => rfl) fun _ => .done _
    rw [countOf_congr hv]
  · cases h
  · cases h

theorem timeless_reader : reader.Timeless := by
  rintro phase (h | h | h)
  · cases h
    exact .ask _ _ rfl (fun _ _ _ => rfl) fun _ => .done _
  · cases h
  · cases h
    exact .ask _ _ rfl (fun _ _ _ => rfl) fun _ => .done _

/-- A run that writes no texts. -/
def dryRun (plugins : List Plugin) : Setup := { setupOf plugins with writesFiles := false }

/-- The same files at another time. -/
def laterWorld : World := { worldWith [] with clock := .still 5000 }

end Sample

open Sample

/-- One plugin reports an error, and the run is aborted. Alone, and later, that plugin comes to the
same, and the other one to the same and to a commit. -/
theorem plugin_independence_reporter_and_reader :
    ∃ result w' sessions w1 aborted u' committed v',
      (dryRun [reporter, reader]).run (worldWith []) = .ok result w' ∧ result.committed = false ∧
      (dryRun [reporter, reader]).sessions (worldWith []) = .ok sessions w1 ∧
      (dryRun [reporter]).run laterWorld = .ok aborted u' ∧ aborted.committed = false ∧
      (dryRun [reader]).run laterWorld = .ok committed v' ∧ committed.committed = true ∧
      (∃ s ∈ sessions, ∃ t u1, (dryRun [reporter]).sessions laterWorld = .ok [t] u1 ∧
        SameOutcome s t) ∧
      ∃ s ∈ sessions, ∃ t u1, (dryRun [reader]).sessions laterWorld = .ok [t] u1 ∧
        SameOutcome s t := by
  have hboth : observe (fun result _ => result.committed)
      ((dryRun [reporter, reader]).run (worldWith [])) = some false := by decide +kernel
  have hreporter : observe (fun result _ => result.committed) ((dryRun [reporter]).run laterWorld) =
      some false := by decide +kernel
  have hreader : observe (fun result _ => result.committed) ((dryRun [reader]).run laterWorld) =
      some true := by decide +kernel
  obtain ⟨result, w', hrun, hc⟩ := ok_of_observe hboth
  obtain ⟨aborted, u', hrun1, hc1⟩ := ok_of_observe hreporter
  obtain ⟨committed, v', hrun2, hc2⟩ := ok_of_observe hreader
  have hp : ∀ plugin ∈ [reporter, reader], plugin.Timeless := by
    intro plugin hm
    obtain rfl | rfl := List.mem_pair.mp hm
    · exact timeless_reporter
    · exact timeless_reader
  obtain ⟨sessions, w1, hs, -, hall, -⟩ := plugin_independence (dryRun [reporter, reader])
    (worldWith []) (by decide +kernel) hp result w' hrun
  refine ⟨result, w', sessions, w1, aborted, u', committed, v', hrun, hc, hs, hrun1, hc1, hrun2,
    hc2, ?_, ?_⟩
  · obtain ⟨s, hm, halone⟩ := exists_of_forall₂_left hall (List.mem_pair.mpr (.inl rfl))
    obtain ⟨t, u1, ht, -, hsame⟩ := halone laterWorld aborted u' rfl hrun1
    exact ⟨s, hm, t, u1, ht, hsame⟩
  · obtain ⟨s, hm, halone⟩ := exists_of_forall₂_left hall (List.mem_pair.mpr (.inr rfl))
    obtain ⟨t, u1, ht, -, hsame⟩ := halone laterWorld committed v' rfl hrun2
    exact ⟨s, hm, t, u1, ht, hsame⟩

end RoutePlugins.Pipeline
