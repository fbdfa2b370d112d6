import RoutePlugins.Proofs.Pipeline.AbortSafety
import RoutePlugins.Proofs.Plugin.StagingTables

/-!
# The tables of a session

A session keeps what its plugin collects, saves and stages in five tables. Saving and staging write
to two of them each. Whatever makes one of the two writes fail makes the first one fail, so both
tables are written or none. It follows that the tables hold, in their order, what was asked for by
the requests that succeeded.
-/

namespace RoutePlugins

namespace PluginSession

open Store PhaseM

/-! ### What requests write -/

/-- Collecting adds a value that can be kept to the collection. Otherwise it changes nothing. -/
theorem answer_collect {s : PhaseState} {items : List Json}
    (h : s.session.store.slotAt? collectionPath = some (.arr items)) (v : Value) :
    (∃ j t, v.keep = .ok j ∧ answer (.collect v) s = .ok () (withStore s t) ∧
      ∀ other, t.slotAt? other = if other = collectionPath then some (.arr (items ++ [j])) else
        s.session.store.slotAt? other) ∨
    ∃ e, answer (.collect v) s = .error e s := by
  change (∃ j t, _ ∧ PhaseM.change (·.push collectionPath.toValue v) s = _ ∧ _) ∨
    ∃ e, PhaseM.change (·.push collectionPath.toValue v) s = _
  simp only [push_eq_revise]
  cases hv : v.keep with
  | ok j =>
    obtain ⟨t, ht, hslots⟩ := change_of_ok (by decide) (by decide) h
      (extended_eq_ok.mpr ⟨items, j, rfl, rfl, hv⟩)
    exact .inl ⟨j, t, rfl, ht, hslots⟩
  | error cause =>
    exact .inr ⟨_, change_of_error (by decide) (by decide) h (extended_of_error hv)⟩

/-- Saving writes a value that can be kept to both tables. Otherwise it changes nothing. -/
theorem answer_save {s : PhaseState} {items : List Json} {last : Json}
    (h : s.session.store.slotAt? savedPath = some last)
    (hh : s.session.store.slotAt? savedHistoryPath = some (.arr items)) (v : Value) :
    (∃ j t, v.keep = .ok j ∧ answer (.save v) s = .ok () (withStore s t) ∧
      ∀ other, t.slotAt? other = if other = savedHistoryPath then some (.arr (items ++ [j])) else
        if other = savedPath then some j else s.session.store.slotAt? other) ∨
    ∃ e, answer (.save v) s = .error e s := by
  change (∃ j t, _ ∧ (PhaseM.change (·.set savedPath.toValue v) >>= fun _ =>
      PhaseM.change (·.push savedHistoryPath.toValue v)) s = _ ∧ _) ∨
    ∃ e, (PhaseM.change (·.set savedPath.toValue v) >>= fun _ =>
      PhaseM.change (·.push savedHistoryPath.toValue v)) s = _
  simp only [push_eq_revise, set_eq_revise]
  cases hv : v.keep with
  | ok j =>
    -- The value that the first table takes is one that the second takes.
    obtain ⟨t, ht, hslots⟩ := change_both (f := fun key _ => checked key v) (by decide) (by decide)
      (by decide) (by decide) (by decide) h hh (checked_eq_ok.mpr hv)
      (extended_eq_ok.mpr ⟨items, j, rfl, rfl, hv⟩)
    exact .inl ⟨j, t, rfl, ht, hslots⟩
  | error cause =>
    have hf : checked savedPath v = .error (refusal savedPath cause) := by
      rw [checked, hv]
      rfl
    exact .inr ⟨_, bind_of_error (change_of_error (f := fun key _ => checked key v) (by decide)
      (by decide) h hf)⟩

end PluginSession

/-! ### Requests in turn -/

namespace Request

/-- The value that a request collects. -/
def collected? : Request → Option Value
  | .collect v => some v
  | _ => none

/-- The value that a request saves. -/
def saved? : Request → Option Value
  | .save v => some v
  | _ => none

end Request

namespace PluginSession

open Store PhaseM

/-- The state after requests were answered in turn, each with a reply or with a fault. -/
def answerAll (requests : List Request) (s : PhaseState) : PhaseState :=
  requests.foldl (fun s q => endState (answer q s)) s

/-- Those of the requests answered in turn that were answered with a reply. -/
def succeeded : List Request → PhaseState → List Request
  | [], _ => []
  | q :: rest, s =>
    match answer q s with
    | .ok _ t => q :: succeeded rest t
    | .error _ t => succeeded rest t

/-- A request carries a property along: it holds of the store in the end, and of the requests that
succeeded, among which the request is counted if it did. -/
def Carries (P : List Request → Store → Prop) (done : List Request) (q : Request)
    (s : PhaseState) : Prop :=
  (∀ r t, answer q s = .ok r t → P (done ++ [q]) t.session.store) ∧
    ∀ e t, answer q s = .error e t → P done t.session.store

variable {P : List Request → Store → Prop} {done : List Request} {q : Request} {s : PhaseState}

theorem Carries.of_ok {t : PhaseState} {r : q.Reply} (ha : answer q s = .ok r t)
    (h : P (done ++ [q]) t.session.store) : Carries P done q s := by
  rw [Carries, ha]
  refine ⟨fun r' t' ht => ?_, fun e t' ht => ?_⟩
  · cases ht
    exact h
  · cases ht

theorem Carries.of_error {t : PhaseState} {e : Fault} (ha : answer q s = .error e t)
    (h : P done t.session.store) : Carries P done q s := by
  rw [Carries, ha]
  refine ⟨fun r t' ht => ?_, fun e' t' ht => ?_⟩
  · cases ht
  · cases ht
    exact h

/-- A request carries along what depends only on tables that it does not write to. -/
theorem Carries.of_apart (hq : q.isOrdinary = true) {K : List AccessPath}
    (hK : ∀ key ∈ K, key ∉ q.slots)
    (h : ∀ t : Store, (∀ key ∈ K, t.slotAt? key = s.session.store.slotAt? key) →
      P (done ++ [q]) t ∧ P done t) : Carries P done q s := by
  have hkeeps := keepsSlots_answer hq
  refine ⟨fun r t ht => ?_, fun e t ht => ?_⟩
  · exact (h _ fun key hk => hkeeps.of_ok ht key (hK key hk)).1
  · exact (h _ fun key hk => hkeeps.of_error ht key (hK key hk)).2

/-- What each request carries along holds after all of them. -/
theorem carries_answerAll {s0 : PhaseState}
    (hP : ∀ {done q s}, q.isOrdinary = true → PhaseState.Frame s0 s → P done s.session.store →
      Carries P done q s) {requests : List Request} (hr : ∀ q ∈ requests, q.isOrdinary = true)
    (hs : PhaseState.Frame s0 s) (h : P done s.session.store) :
    P (done ++ succeeded requests s) (answerAll requests s).session.store := by
  induction requests generalizing done s with
  | nil => rwa [succeeded, List.append_nil]
  | cons q rest ih =>
    obtain ⟨hok, herror⟩ := hP (hr q (by simp)) hs h
    have hrest : ∀ q ∈ rest, q.isOrdinary = true := fun q hm => hr q (by simp [hm])
    have hframe := moves_answer q
    rw [succeeded]
    change P _ (answerAll rest (endState (answer q s))).session.store
    cases ha : answer q s with
    | ok r t =>
      dsimp only
      rw [← List.singleton_append, ← List.append_assoc]
      exact ih hrest (trans_of PhaseState.Frame hs (hframe.of_ok ha)) (hok r t ha)
    | error e t =>
      exact ih hrest (trans_of PhaseState.Frame hs (hframe.of_error ha)) (herror e t ha)

/-! ### What is collected and saved -/

/-- The collection is what some requests have collected. -/
def Collected (done : List Request) (s : Store) : Prop :=
  ∃ values : List Json, done.filterMap Request.collected? = values.map Value.ofJson ∧
    s.slotAt? collectionPath = some (.arr (values.map Json.joined))

theorem collected_answer (h : Collected done s.session.store) (hq : q.isOrdinary = true) :
    Carries Collected done q s := by
  obtain ⟨values, hvalues, hslot⟩ := h
  by_cases hs : ∃ v, q = .collect v
  · obtain ⟨v, rfl⟩ := hs
    obtain ⟨j, t, hkeep, ha, hslots⟩ | ⟨e, ha⟩ := answer_collect hslot v
    · obtain ⟨j', rfl, -, rfl⟩ := Value.keep_eq_ok hkeep
      refine .of_ok ha ⟨values ++ [j'], ?_, ?_⟩
      · rw [List.filterMap_append, hvalues, List.map_append]
        rfl
      · rw [List.map_append]
        exact hslots collectionPath
    · exact .of_error ha ⟨values, hvalues, hslot⟩
  · have hnone : q.collected? = none := by
      cases q with
      | collect v => exact absurd ⟨v, rfl⟩ hs
      | _ => rfl
    have hapart : ∀ key ∈ [collectionPath], key ∉ q.slots := by
      cases q with
      | collect v => exact absurd ⟨v, rfl⟩ hs
      | report kind => cases kind <;> (dsimp only [Request.slots]; decide)
      | _ => dsimp only [Request.slots]; decide
    refine .of_apart hq hapart fun t ht => ?_
    have htable := (ht collectionPath (by simp)).trans hslot
    refine ⟨⟨values, ?_, htable⟩, values, hvalues, htable⟩
    simp [List.filterMap_append, hvalues, hnone]

/-- The saved values are what some requests have saved, and the last of them is the saved value. -/
def Saved (done : List Request) (s : Store) : Prop :=
  ∃ values : List Json, done.filterMap Request.saved? = values.map Value.ofJson ∧
    s.slotAt? savedHistoryPath = some (.arr (values.map Json.joined)) ∧
    s.slotAt? savedPath = some ((values.map Json.joined).getLastD .null)

theorem saved_answer (h : Saved done s.session.store) (hq : q.isOrdinary = true) :
    Carries Saved done q s := by
  obtain ⟨values, hvalues, hhistory, hlast⟩ := h
  by_cases hs : ∃ v, q = .save v
  · obtain ⟨v, rfl⟩ := hs
    obtain ⟨j, t, hkeep, ha, hslots⟩ | ⟨e, ha⟩ := answer_save hlast hhistory v
    · obtain ⟨j', rfl, -, rfl⟩ := Value.keep_eq_ok hkeep
      refine .of_ok ha ⟨values ++ [j'], ?_, ?_, ?_⟩
      · rw [List.filterMap_append, hvalues, List.map_append]
        rfl
      · rw [List.map_append]
        exact hslots savedHistoryPath
      · rw [List.map_append, List.map_singleton, List.getLastD_concat]
        exact hslots savedPath
    · exact .of_error ha ⟨values, hvalues, hhistory, hlast⟩
  · have hnone : q.saved? = none := by
      cases q with
      | save v => exact absurd ⟨v, rfl⟩ hs
      | _ => rfl
    have hapart : ∀ key ∈ [savedHistoryPath, savedPath], key ∉ q.slots := by
      cases q with
      | save v => exact absurd ⟨v, rfl⟩ hs
      | report kind => cases kind <;> (dsimp only [Request.slots]; decide)
      | _ => dsimp only [Request.slots]; decide
    refine .of_apart hq hapart fun t ht => ?_
    have htables := (ht savedHistoryPath (by simp)).trans hhistory
    have htable := (ht savedPath (by simp)).trans hlast
    refine ⟨⟨values, ?_, htables, htable⟩, values, hvalues, htables, htable⟩
    simp [List.filterMap_append, hvalues, hnone]

/-! ### What is staged -/

/-- The tables of staged texts are those of what some requests have staged, for paths inside the
root. -/
structure Staged (fs : Files) (root : Path) (done : List Request) (s : Store) : Prop where
  staged : s.slotAt? stagedPath =
    some (.obj (StagingLog.kept (done.filterMap (Request.staging? fs))))
  history : s.slotAt? stagedHistoryPath =
    some (.arr ((done.filterMap (Request.staging? fs)).map stagedRecord))
  inside : ∀ e ∈ done.filterMap (Request.staging? fs), ∃ code file p,
    Request.stage (.str code) file ∈ done ∧ fs.resolve (Path.parse file) = .ok p ∧
      fs.isInside root p = .ok true ∧ e.1 = p.text

theorem staged_answer {fs : Files} {root : Path} (hfs : s.world.files = fs)
    (hroot : s.session.project.root = root) (h : Staged fs root done s.session.store)
    (hq : q.isOrdinary = true) : Carries (Staged fs root) done q s := by
  subst hfs hroot
  by_cases hs : ∃ code file, q = .stage code file
  · obtain ⟨code, file, rfl⟩ := hs
    obtain ⟨text, p, t, rfl, hp, hin, ha, hslots⟩ | ⟨e, ha⟩ :=
      answer_stage h.staged h.history code file
    · have hentry : (Request.stage (.str text) file).staging? s.world.files =
          some (p.text, text) := by
        rw [Request.staging?, hp]
        rfl
      have hlog : (done ++ [Request.stage (.str text) file]).filterMap
            (Request.staging? s.world.files) =
          done.filterMap (Request.staging? s.world.files) ++ [(p.text, text)] := by
        rw [List.filterMap_append, List.filterMap_cons_some hentry, List.filterMap_nil]
      refine .of_ok ha ⟨?_, ?_, ?_⟩
      · rw [hlog]
        exact hslots stagedPath
      · rw [hlog, List.map_append]
        exact hslots stagedHistoryPath
      · rw [hlog]
        refine forall_mem_concat.mpr ⟨fun e he => ?_, text, file, p, by simp, hp, hin, rfl⟩
        obtain ⟨code, file', p', hm, hrest⟩ := h.inside e he
        exact ⟨code, file', p', by simp [hm], hrest⟩
    · exact .of_error ha h
  · have hnone : q.staging? s.world.files = none := by
      unfold Request.staging?
      split
      · next code file => exact absurd ⟨_, file, rfl⟩ hs
      · rfl
    have hlog : (done ++ [q]).filterMap (Request.staging? s.world.files) =
        done.filterMap (Request.staging? s.world.files) := by
      rw [List.filterMap_append, List.filterMap_cons_none hnone, List.filterMap_nil,
        List.append_nil]
    have hkeeps := keepsStaged_answer hq fun code file he => hs ⟨code, file, he⟩
    refine ⟨fun r t ht => ⟨?_, ?_, fun e he => ?_⟩, fun e t ht => ⟨?_, ?_, h.inside⟩⟩
    · rw [hlog]
      exact (hkeeps.of_ok ht _ (.inl rfl)).trans h.staged
    · rw [hlog]
      exact (hkeeps.of_ok ht _ (.inr rfl)).trans h.history
    · rw [hlog] at he
      obtain ⟨code, file, p, hm, hrest⟩ := h.inside e he
      exact ⟨code, file, p, by simp [hm], hrest⟩
    · exact (hkeeps.of_error ht _ (.inl rfl)).trans h.staged
    · exact (hkeeps.of_error ht _ (.inr rfl)).trans h.history

end PluginSession

/-- The code that a history of staged texts gives for each path: the one that was staged last. -/
def lastCodes (history : List Json) : List (Text × Json) :=
  history.foldl (fun codes record =>
    match record.field? "filePath", record.field? "code" with
    | some (.str path), some code => Assoc.insert path code codes
    | _, _ => codes) []

theorem lastCodes_stagedRecord (log : StagingLog) :
    lastCodes (log.map stagedRecord) = log.kept := by
  rw [lastCodes, StagingLog.kept, Assoc.ofList, Assoc.update, List.foldl_map, List.foldl_map]
  rfl

namespace PluginSession

open Store PhaseM

/-- A table that has a value is read as it is. -/
theorem outcome_table {s : PhaseState} {key : AccessPath} {v : Json} (hk : key.Proper)
    (hp : parsedPath.isFront key = false) (h : s.session.store.slotAt? key = some v) :
    outcome (PhaseM.table key s) = .ok (.ofJson v) := by
  unfold PhaseM.table PhaseM.onStore
  rw [StoreM.read_apply, get_of_slotAt hk hp h]
  rfl

/-- A session is opened with empty tables. -/
theorem recorded_start {fs : Files} {project : Project} {table : RouteTable} {cache : ParseCache}
    {plugin : Plugin} {session : PluginSession}
    (h : PluginSession.start fs project table cache plugin = .ok session) (gs : Files) :
    session.project = project ∧ Collected [] session.store ∧ Saved [] session.store ∧
      Staged gs project.root [] session.store := by
  obtain ⟨root, config, -, -, rfl⟩ := PluginSession.start_eq_ok h
  exact ⟨rfl, ⟨[], rfl, rfl⟩, ⟨[], rfl, rfl, rfl⟩, ⟨rfl, rfl, by simp⟩⟩

/-- In a session that was opened and has answered any requests in turn, some of them with faults:
the collection is the values that were collected by the requests that succeeded, in their order.
The saved value is the last of the saved values, or nothing if there is none, and these are the
values that were saved by the requests that succeeded. The staged texts are the last ones that the
history of staged texts has for each path, the history is what was staged by the requests that
succeeded, and each path is a resolved one, inside the root or the root itself, of what such a
request named. Values are kept as JSON, with the halves in their texts put together. -/
theorem tables_match_requests {fs : Files} {project : Project} {table : RouteTable}
    {cache : ParseCache} {plugin : Plugin} {session : PluginSession}
    (hstart : PluginSession.start fs project table cache plugin = .ok session) (w : World)
    (requests : List Request) (hr : ∀ q ∈ requests, q.isOrdinary = true) :
    let s := answerAll requests ⟨w, session⟩
    let done := succeeded requests ⟨w, session⟩
    (∃ values : List Json, done.filterMap Request.collected? = values.map Value.ofJson ∧
      outcome (answer .collected s) = .ok (.ofJson (.arr (values.map Json.joined)))) ∧
    (∃ values saved : List Json, done.filterMap Request.saved? = values.map Value.ofJson ∧
      saved = values.map Json.joined ∧
      outcome (answer .savedHistory s) = .ok (.ofJson (.arr saved)) ∧
      outcome (answer .saved s) = .ok (.ofJson (saved.getLastD .null))) ∧
    ∃ history : List Json,
      history = (done.filterMap (Request.staging? w.files)).map stagedRecord ∧
      outcome (answer .stagedHistory s) = .ok (.ofJson (.arr history)) ∧
      outcome (answer .staged s) = .ok (.ofJson (.obj (lastCodes history))) ∧
      ∀ key ∈ Assoc.keys (lastCodes history), ∃ code file p,
        Request.stage (.str code) file ∈ done ∧ w.files.resolve (Path.parse file) = .ok p ∧
        w.files.isInside project.root p = .ok true ∧ key = p.text := by
  intro s done
  obtain ⟨hproject, hcollected, hsaved, hstaged⟩ := recorded_start hstart w.files
  have hframe : PhaseState.Frame ⟨w, session⟩ ⟨w, session⟩ := refl_of PhaseState.Frame _
  refine ⟨?_, ?_, ?_⟩
  · obtain ⟨values, hvalues, hslot⟩ :=
      carries_answerAll (fun hq _ h => collected_answer h hq) hr hframe hcollected
    exact ⟨values, hvalues, outcome_table (by decide) (by decide) hslot⟩
  · obtain ⟨values, hvalues, hhistory, hlast⟩ :=
      carries_answerAll (fun hq _ h => saved_answer h hq) hr hframe hsaved
    exact ⟨values, _, hvalues, rfl, outcome_table (by decide) (by decide) hhistory,
      outcome_table (by decide) (by decide) hlast⟩
  · have hend : Staged w.files project.root ([] ++ done) s.session.store := by
      refine carries_answerAll (fun hq hs h => ?_) hr hframe hstaged
      have hfs := congrArg Sources.files hs.sources
      have hroot := congrArg (·.project.root) hs.session
      exact staged_answer hfs (hroot.trans (congrArg Project.root hproject)) h hq
    refine ⟨_, rfl, outcome_table (by decide) (by decide) hend.history, ?_, fun key hkey => ?_⟩
    · rw [lastCodes_stagedRecord]
      exact outcome_table (by decide) (by decide) hend.staged
    · rw [lastCodes_stagedRecord] at hkey
      obtain ⟨e, he, rfl⟩ := List.mem_map.mp hkey
      obtain ⟨entry, hentry, rfl⟩ := List.mem_map.mp (Assoc.mem_of_mem_ofList he)
      exact hend.inside entry hentry

namespace Sample

open Pipeline.Sample

/-- A session of a plugin in the project with one page. -/
def opened : Except Fault PluginSession :=
  PluginSession.start (filesWith []) (setupOf []).project ⟨[]⟩ [] failing

/-- What is seen of the session in the project after requests were answered in turn. -/
def after {α : Type} (requests : List Request) (view : PhaseState → α) : Option α :=
  opened.toOption.map fun session => view (answerAll requests ⟨worldWith [], session⟩)

theorem exists_opened {α : Type} {requests : List Request} {view : PhaseState → α} {a : α}
    (h : after requests view = some a) :
    ∃ session, opened = .ok session ∧ view (answerAll requests ⟨worldWith [], session⟩) = a := by
  obtain ⟨session, hsession, hview⟩ := Option.map_eq_some_iff.mp h
  exact ⟨session, ok_of_toOption hsession, hview⟩

def text? : Value → Option Text
  | .str text => some text
  | _ => none

/-- The keys of a table that was read. -/
def keysOf : Except Fault Value → Option (List Text)
  | .ok (.map entries) => entries.mapM fun e => text? e.1
  | _ => none

/-- Requests of each kind that succeed, and some that fail: a set cannot be kept, a text cannot be
staged for a file outside the project, and there is no file to parse. -/
def mixed : List Request :=
  [.collect (.int 1), .collect (.set []), .save (.str "a"), .save (.str "b"), .save (.set []),
    .stage (.str "x") "/proj/app/page.tsx", .stage (.str "z") "/other", .parse "/proj/none.ts",
    .stage (.str "y") "/proj/app/../app/page.tsx", .collect .null]

end Sample

open Sample Pipeline.Sample

/-- Two values are collected, two are saved and two texts are staged for one file, among requests
that fail. -/
theorem tables_match_requests_mixed :
    ∃ session, opened = .ok session ∧ (∀ q ∈ mixed, q.isOrdinary = true) ∧
      keysOf (outcome (answer .staged (answerAll mixed ⟨worldWith [], session⟩))) =
        some [("/proj/app/page.tsx" : Text)] ∧
      ∃ history : List Json,
        history = ((succeeded mixed ⟨worldWith [], session⟩).filterMap
          (Request.staging? (filesWith []))).map stagedRecord ∧
        outcome (answer .staged (answerAll mixed ⟨worldWith [], session⟩)) =
          .ok (.ofJson (.obj (lastCodes history))) := by
  have hkeys : after mixed (fun s => keysOf (outcome (answer .staged s))) =
      some (some [("/proj/app/page.tsx" : Text)]) := by decide +kernel
  obtain ⟨session, hopened, hview⟩ := exists_opened hkeys
  have hr : ∀ q ∈ mixed, q.isOrdinary = true := by decide +kernel
  obtain ⟨-, -, history, hhistory, -, hstaged, -⟩ :=
    tables_match_requests hopened (worldWith []) mixed hr
  exact ⟨session, hopened, hr, hview, history, hhistory, hstaged⟩

/-- The root is in the project, so a text can be staged for it, although it is no file. -/
theorem text_staged_for_root :
    ∃ session, opened = .ok session ∧
      keysOf (outcome (answer .staged
        (answerAll [.stage (.str "x") "/proj"] ⟨worldWith [], session⟩))) =
          some [("/proj" : Text)] ∧
      session.project.root.text = "/proj" ∧
      (filesWith []).isFile session.project.root = .ok false := by
  have hkeys : after [.stage (.str "x") "/proj"]
      (fun s => keysOf (outcome (answer .staged s))) = some (some [("/proj" : Text)]) := by
    decide
  obtain ⟨session, hopened, hview⟩ := exists_opened hkeys
  have hproject := (recorded_start hopened (filesWith [])).1
  refine ⟨session, hopened, hview, ?_, ?_⟩
  · rw [hproject]
    decide
  · rw [hproject]
    exact ok_of_toOption (by decide)

end PluginSession

end RoutePlugins
