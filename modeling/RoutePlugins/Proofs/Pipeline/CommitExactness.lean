import RoutePlugins.Proofs.Pipeline.AbortSafety
import RoutePlugins.Proofs.Pipeline.CommitWrites
import RoutePlugins.Proofs.Pipeline.StagedTexts

/-!
# What a committed run leaves in the files

A committed run gives the text that was staged last for each path, leaves a file at each of these
paths, and changes no other file apart from the artifacts.

The bytes of the file are those of the text, unless one of three things gets in the way: the text
has no bytes, another text is staged for the same file under another path, or the file is skipped
since it has the text up to its line ends.
-/

namespace RoutePlugins.Pipeline

open World Files

/-- The text staged last for each path, by the last of some sessions that staged one for it. -/
def lastStaged (sessions : List Watched) : StagingLog := Assoc.ofList (sessions.flatMap Prod.snd)

/-! ### What is committed -/

variable {w : World} {fs gs : Files} {entries : StagingLog} {r : Setup}
  {sessions : List PluginSession} {w' : World} {e : Text × Text}

/-- A watched run goes with every run. -/
theorem watched_of_sessions (h : r.sessions w = .ok sessions w') :
    ∃ watched, r.watched w = .ok watched w' ∧ watched.map Prod.fst = sessions := by
  rw [← fst_watched, map_eq_ok] at h
  exact h

theorem failure_of_failedNames (h : failedNames sessions = .ok []) :
    sessions.filter (·.failure.isNone) = sessions := by
  rw [List.filter_eq_self]
  intro s hs
  have hfailed := (failedNames_eq_ok h).1.mp rfl s hs
  obtain ⟨-, hf⟩ | ⟨hn, -⟩ := hasFailed_eq_ok hfailed
  · cases hf
  · simp [hn]

/-- Sessions none of which has failed are settled with the texts staged last. -/
theorem staged_of_settleAll {project : Project} {sessions : List Watched}
    (ht : ∀ s ∈ sessions, Tallied fs s) {settled : RunResult}
    (h : settleAll project (sessions.map Prod.fst) w = .ok (settled, []) w') :
    settled.staged = (lastStaged sessions).map fun e => (e.1, .str e.2.joined) := by
  obtain ⟨merged, u, hm, -, hstaged, -, hfailed⟩ := settleAll_eq_ok h
  rw [failure_of_failedNames hfailed] at hm
  rw [hstaged, mergeStaged_eq_ok ht hm]
  exact (Assoc.update_mapValues (fun _ (code : Text) => Json.str code.joined) [] _).symm

/-- A text as it is kept. -/
def keptEntry (e : Text × Text) : Text × Text := (e.1, e.2.joined)

theorem kept_eq_asTexts (entries : StagingLog) :
    (entries.map fun e => (e.1, Json.str e.2.joined)) = asTexts (entries.map keptEntry) := by
  rw [asTexts, List.map_map]
  rfl

theorem keyed_lastStaged {sessions : List Watched} (hw : fs.WellFormed)
    (ht : ∀ s ∈ sessions, Tallied fs s) : Keyed ((lastStaged sessions).map keptEntry) where
  nodup := by
    have hkeys : Assoc.keys ((lastStaged sessions).map keptEntry) =
        Assoc.keys (lastStaged sessions) := by
      simp [Assoc.keys, keptEntry, Function.comp_def]
    rw [hkeys]
    exact Assoc.nodup_keys_ofList _
  text := by
    intro e he
    obtain ⟨e', he', rfl⟩ := List.mem_map.mp he
    obtain ⟨s, hs, hlog⟩ := List.mem_flatMap.mp (Assoc.mem_of_mem_ofList he')
    obtain ⟨p, q, hq, htext⟩ := (ht s hs).tallies.resolved e' hlog
    change (Path.parse e'.1).text = e'.1
    rw [← htext, Files.parse_text_of_resolve hw.names hq]

/-- Texts that have bytes are kept as they are. -/
theorem map_keptEntry (h : ∀ e ∈ entries, ∃ b, Utf8.encode e.2 = .ok b) :
    entries.map keptEntry = entries := by
  refine (List.map_congr_left fun e he => ?_).trans entries.map_id
  obtain ⟨b, hb⟩ := h e he
  rw [keptEntry, Utf8.joined_of_encode hb]
  rfl

/-- A text that lands does so as it is kept. -/
theorem Lands.kept (h : Lands fs gs entries e) :
    keptEntry e = e ∧ Lands fs gs (entries.map keptEntry) e := by
  obtain ⟨b, hb, hsame, hor⟩ := h
  have hjoined : e.2.joined = e.2 := Utf8.joined_of_encode hb
  refine ⟨by rw [keptEntry, hjoined], b, hb, ?_, hor.imp_right ?_⟩
  · intro e'' he'' hfile
    obtain ⟨e', he', rfl⟩ := List.mem_map.mp he''
    rw [keptEntry, hsame e' he' hfile, hjoined]
  · rintro ⟨e', he', hfile, hpend⟩
    have hkept : keptEntry e' = e' := by
      rw [keptEntry, hsame e' he' hfile, hjoined, ← hsame e' he' hfile]
    exact ⟨e', hkept ▸ List.mem_map_of_mem he', hfile, hpend⟩

theorem exact_of_lands (hw : fs.WellFormed) (h : TextsWritten (entries.map keptEntry) fs gs)
    (he : e ∈ entries) (hlands : Lands fs gs entries e) : Exact gs e := by
  obtain ⟨hkept, hlands⟩ := hlands.kept
  exact h.exact hw (hkept ▸ List.mem_map_of_mem he) hlands

theorem lands_of_exact (hw : fs.WellFormed) (h : TextsWritten (entries.map keptEntry) fs gs)
    (hall : ∀ e ∈ entries, Exact gs e) : ∀ e ∈ entries, Lands fs gs entries e := by
  rw [map_keptEntry fun e he => (hall e he).imp fun _ hb => hb.1] at h
  exact fun e he => h.lands hw hall he

/-! ### Committed runs -/

/-- Before a run comes to write, only artifacts were written. -/
theorem written_of_settleAll {settled : RunResult × List Text} {w w1 w2 : World}
    (hw : w.files.WellFormed) (hs : r.sessions w = .ok sessions w1)
    (hset : settleAll r.project sessions w1 = .ok settled w2) :
    Written (IsArtifact r.project r.names) w.files w2.files := by
  have hfiles : w1.files = w.files := congrArg Sources.files ((moves_sessions r).of_ok hs)
  rw [← hfiles] at hw ⊢
  exact (moves_settleAll (name_of_sessions hs)).of_ok hset hw

/-- A committed run that writes files gives the text staged last for each path. Each of these paths
is a file in the end. Its bytes are those of the text if the text lands, and the bytes of all of
them are those of their texts only if all of the texts land. Every file to which neither a staged
path nor an artifact leads keeps its bytes, and artifacts lead only into a data directory of the
plugins' own. -/
theorem commit_exactness (r : Setup) (w : World) (hw : w.files.WellFormed)
    (hp : ∀ plugin ∈ r.plugins, plugin.Ordinary) (hon : r.writesFiles = true)
    (result : RunResult) (w' : World) (hrun : r.run w = .ok result w')
    (hc : result.committed = true) :
    ∃ sessions w1 settled w2, r.watched w = .ok sessions w1 ∧
      settleAll r.project (sessions.map Prod.fst) w1 = .ok (settled, []) w2 ∧
      result.staged = (lastStaged sessions).map (fun e => (e.1, .str e.2.joined)) ∧
      (∀ e ∈ lastStaged sessions, ∃ b, w'.files.readBytes (Path.parse e.1) = .ok b) ∧
      (∀ e ∈ lastStaged sessions,
        Lands w2.files w'.files (lastStaged sessions) e → Exact w'.files e) ∧
      ((∀ e ∈ lastStaged sessions, Exact w'.files e) →
        ∀ e ∈ lastStaged sessions, Lands w2.files w'.files (lastStaged sessions) e) ∧
      (∀ l, (∀ e ∈ lastStaged sessions, ¬ w'.files.Leads (Path.parse e.1) l) →
        (∀ p, IsArtifact r.project r.names p → ¬ w'.files.Leads p l) →
        w'.files.contentAt? l = w.files.contentAt? l) ∧
      ∀ root, w.files.locate .follow r.project.root = .ok (root, some .directory) →
        (∀ name ∈ r.names, Plugin.isName name = true) → OwnsArtifacts w.files root r.names →
        ∀ p l, IsArtifact r.project r.names p → w'.files.Leads p l → dataPlace root <+: l := by
  obtain ⟨sessions', w1, settled, failed, w2, w3, hs, hset, hsame, hend⟩ := run_eq_ok hrun
  obtain ⟨sessions, hwatched, rfl⟩ := watched_of_sessions hs
  have ht := tallied_of_watched hp hwatched
  obtain ⟨rfl, hconc⟩ | ⟨hne, hshow⟩ := hend
  · obtain ⟨rfl, hwrites⟩ := conclude_eq_ok hconc
    obtain ⟨u, n, v, hu, hwrite, hv⟩ := hwrites hon
    have hstaged := staged_of_settleAll ht hset
    -- The files change in two steps: the artifacts are left behind, then the texts are written.
    have hartifacts := written_of_settleAll hw hs hset
    have htexts : TextsWritten ((lastStaged sessions).map keptEntry) w2.files w'.files := by
      have huf : u.files = w2.files := congrArg Sources.files hu
      have hvf : w'.files = v.files := congrArg Sources.files (hsame.trans hv)
      rw [hstaged, kept_eq_asTexts] at hwrite
      rw [← huf, hvf]
      refine textsWritten_of_writeTexts (keyed_lastStaged hw ht) ?_ hwrite
      rw [huf]
      exact hartifacts.wellFormed
    refine ⟨sessions, w1, settled, w2, hwatched, hset, hstaged, fun e he => ?_,
      fun e he => exact_of_lands hartifacts.wellFormed htexts he,
      lands_of_exact hartifacts.wellFormed htexts, fun l hstage hart => ?_, ?_⟩
    · obtain ⟨l, b, hl, hb⟩ := htexts.present _ (List.mem_map_of_mem he)
      exact ⟨b, (readBytes_eq_ok htexts.wellFormed).mpr ⟨l, hl, hb⟩⟩
    · rw [htexts.skipped l, hartifacts.kept l]
      · exact fun p hp hl => hart p hp (htexts.grows.leads hartifacts.wellFormed hl)
      · intro e he hl
        obtain ⟨e', he', rfl⟩ := List.mem_map.mp he
        exact absurd hl (hstage e' he')
    · intro root hroot hnames howns p l hp hl
      have hgrows := hartifacts.grows.trans htexts.grows
      have hroot' := hgrows.locate hroot
      rw [hgrows.directory root (foundAt_of_locate hw hroot).entry] at hroot'
      exact dataPlace_of_leads hroot' hnames (howns.grows hgrows) hp hl
  · obtain ⟨rfl, -⟩ := showAbort_eq_ok hshow
    obtain ⟨-, -, -, -, -, hfalse, -⟩ := settleAll_eq_ok hset
    rw [hfalse] at hc
    cases hc

/-! ### Two commits -/

instance (gs : Files) (e : Text × Text) : Decidable (Exact gs e) :=
  match hb : Utf8.encode e.2, hr : gs.readBytes (Path.parse e.1) with
  | .ok b, .ok c =>
    decidable_of_iff (b = c) ⟨fun h => ⟨b, hb, h ▸ hr⟩, fun ⟨d, hd, hc⟩ =>
      (Except.ok.inj (hb.symm.trans hd)).trans (Except.ok.inj (hr.symm.trans hc)).symm⟩
  | .error _, _ => .isFalse fun ⟨_, hd, _⟩ => by simp [hb] at hd
  | _, .error _ => .isFalse fun ⟨_, _, hc⟩ => by simp [hr] at hc

namespace Sample

/-- Stage texts for files in turn. -/
def stageAll : List (Text × Text) → Phase Value
  | [] => .done .null
  | (file, code) :: rest => .ask (.stage (.str code) file) fun _ => stageAll rest

theorem ordinary_stageAll (texts : List (Text × Text)) : (stageAll texts).Ordinary := by
  induction texts with
  | nil => exact .done _
  | cons e rest ih => exact .ask _ _ rfl fun _ => ih

/-- A plugin that stages texts. -/
def stages (name : Text) (texts : List (Text × Text)) : Plugin :=
  ⟨name, .map [], none, none, none, some (stageAll texts)⟩

theorem ordinary_stages (name : Text) (texts : List (Text × Text)) :
    (stages name texts).Ordinary := by
  rintro phase (h | h | h)
  · cases h
  · cases h
  · cases h
    exact ordinary_stageAll texts

/-- The page, with a source file beside it. -/
def sourceWith (content : Bytes) : List (Location × Entry) :=
  [(["proj", "a.ts"], .file content)]

/-- Two plugins that stage texts for one file, and one of them for a new file. -/
def twoPlugins : List Plugin :=
  [stages "a" [("/proj/a.ts", "one"), ("/proj/a.ts", "two")],
    stages "b" [("/proj/new/b.ts", "x"), ("/proj/a.ts", "three")]]

/-- What they stage last. -/
def twoTexts : StagingLog := [("/proj/a.ts", "three"), ("/proj/new/b.ts", "x")]

/-- A text of one line. -/
def line : StagingLog := [("/proj/a.ts", "x\n")]

end Sample

open Sample

/-- Two plugins stage texts for one file, and one of them for a new file: both texts staged last
land, and are in their files. -/
theorem commit_exactness_two_plugins :
    ∃ result w' sessions w1 settled w2,
      (setupOf twoPlugins).run (worldWith (sourceWith [120])) = .ok result w' ∧
      result.committed = true ∧
      (setupOf twoPlugins).watched (worldWith (sourceWith [120])) = .ok sessions w1 ∧
      settleAll (setupOf twoPlugins).project (sessions.map Prod.fst) w1 = .ok (settled, []) w2 ∧
      lastStaged sessions = twoTexts ∧
      ∀ e ∈ lastStaged sessions,
        Lands w2.files w'.files (lastStaged sessions) e ∧ Exact w'.files e := by
  have hout : observe (fun result w' => (result.committed,
      decide (∀ e ∈ twoTexts, Exact w'.files e)))
      ((setupOf twoPlugins).run (worldWith (sourceWith [120]))) = some (true, true) := by
    decide +kernel
  have hlog : observe (fun sessions _ => lastStaged sessions)
      ((setupOf twoPlugins).watched (worldWith (sourceWith [120]))) = some twoTexts := by
    decide +kernel
  obtain ⟨result, w', hrun, hview⟩ := ok_of_observe hout
  have hc : result.committed = true := congrArg Prod.fst hview
  have hexact := of_decide_eq_true (congrArg Prod.snd hview)
  obtain ⟨sessions, w1, hwatched, hlast⟩ := ok_of_observe hlog
  have hp : ∀ plugin ∈ twoPlugins, plugin.Ordinary := by
    intro plugin hm
    obtain rfl | rfl := List.mem_pair.mp hm
    · exact ordinary_stages _ _
    · exact ordinary_stages _ _
  obtain ⟨sessions', w1', settled, w2, hwatched', hset, -, -, -, hlands, -, -⟩ :=
    commit_exactness (setupOf twoPlugins) (worldWith (sourceWith [120])) (by decide +kernel) hp rfl
      result w' hrun hc
  rw [hwatched] at hwatched'
  cases hwatched'
  rw [← hlast] at hexact
  exact ⟨result, w', sessions, w1, settled, w2, hrun, hc, hwatched, hset, hlast,
    fun e he => ⟨hlands hexact e he, hexact e he⟩⟩

/-- A file that has the staged text up to its line ends is skipped, and keeps its bytes. -/
theorem committed_file_keeps_line_ends :
    ∃ result w' sessions w1,
      (setupOf [stages "p" line]).run (worldWith (sourceWith [120, 13, 10])) = .ok result w' ∧
      result.committed = true ∧
      (setupOf [stages "p" line]).watched (worldWith (sourceWith [120, 13, 10])) =
        .ok sessions w1 ∧
      lastStaged sessions = line ∧ ∀ e ∈ line, ¬ Exact w'.files e := by
  have hout : observe (fun result w' => (result.committed, decide (∀ e ∈ line, ¬ Exact w'.files e)))
      ((setupOf [stages "p" line]).run (worldWith (sourceWith [120, 13, 10]))) =
      some (true, true) := by decide +kernel
  have hlog : observe (fun sessions _ => lastStaged sessions)
      ((setupOf [stages "p" line]).watched (worldWith (sourceWith [120, 13, 10]))) =
      some line := by decide +kernel
  obtain ⟨result, w', hrun, hview⟩ := ok_of_observe hout
  obtain ⟨sessions, w1, hwatched, hlast⟩ := ok_of_observe hlog
  exact ⟨result, w', sessions, w1, hrun, congrArg Prod.fst hview, hwatched, hlast,
    of_decide_eq_true (congrArg Prod.snd hview)⟩

end RoutePlugins.Pipeline
