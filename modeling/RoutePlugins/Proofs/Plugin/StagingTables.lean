import RoutePlugins.Proofs.Files.Resolved
import RoutePlugins.Proofs.Plugin.StagingLog

/-!
# The table of staged texts

A session keeps the text staged last for each file in one table, and all that was staged in another.
Only the request to stage writes to them, and it writes to both or to none. So at the end of a phase
that never uses the store directly the first table holds what the log of the session gives.
-/

namespace RoutePlugins

variable {t : Store} {log : StagingLog} {fs : Files}

/-! ### Slots of a store -/

namespace Store

variable {new : Json}

/-- The value in a slot of an open store. -/
def slotAt? (s : Store) (key : AccessPath) : Option Json :=
  match s with
  | .active _ a => Assoc.get? key a.slots
  | _ => none

/-- A write to a path changes its slot and no other. -/
theorem Changed.slotAt {s : Store} {key : AccessPath} {old : Json} (hk : key.Proper)
    (h : s.Changed t key.toValue old new) :
    s.slotAt? key = some old ∧
      ∀ other, t.slotAt? other = if other = key then some new else s.slotAt? other := by
  obtain ⟨name, a, key', rfl, hv, -, hold, rfl⟩ := h
  rw [AccessPath.ofValue_toValue hk] at hv
  cases hv
  exact ⟨hold, fun other => Assoc.get?_insert key other new a.slots⟩

/-- A slot that has a value can be written to. -/
theorem exists_changed {s : Store} {key : AccessPath} {old : Json} (hk : key.Proper)
    (hp : key ≠ parsedPath) (h : s.slotAt? key = some old) (new : Json) :
    ∃ t, s.Changed t key.toValue old new := by
  cases s with
  | fresh => cases h
  | ended name => cases h
  | active name a =>
    exact ⟨_, name, a, key, rfl, AccessPath.ofValue_toValue hk, hp, h, rfl⟩

/-- A slot that has a value is read at its path. -/
theorem get_of_slotAt {s : Store} {key : AccessPath} {v : Json} (hk : key.Proper)
    (hp : parsedPath.isFront key = false) (h : s.slotAt? key = some v) :
    s.get key.toValue = .ok (.ofJson v) := by
  cases s with
  | fresh => cases h
  | ended name => cases h
  | active name a =>
    have hv : Assoc.get? key a.slots = some v := h
    change (AccessPath.ofValue key.toValue >>= a.read) = _
    rw [AccessPath.ofValue_toValue hk]
    change a.read key = _
    rw [Arena.read_eq_readSlots fun _ _ => hp, Arena.readSlots, hv]

section

variable {s : Store} {key : AccessPath} {f : AccessPath → Json → Except Fault Json} {old : Json}

/-- A write to a slot succeeds if it can make the new value, and changes that slot alone. -/
theorem revise_of_ok (hk : key.Proper) (hp : key ≠ parsedPath) (hs : s.slotAt? key = some old)
    (hf : f key old = .ok new) :
    ∃ t, s.revise key.toValue f = .ok t ∧
      ∀ other, t.slotAt? other = if other = key then some new else s.slotAt? other := by
  obtain ⟨t, ht⟩ := exists_changed hk hp hs new
  refine ⟨t, revise_eq_ok.mpr ⟨key, old, new, AccessPath.ofValue_toValue hk, ht, hf⟩, ?_⟩
  exact (ht.slotAt hk).2

/-- A write to a slot fails if it cannot make the new value. -/
theorem revise_of_error (hk : key.Proper) (hp : key ≠ parsedPath) (hs : s.slotAt? key = some old)
    {e : Fault} (hf : f key old = .error e) : s.revise key.toValue f = .error e := by
  cases s with
  | fresh => cases hs
  | ended name => cases hs
  | active name a =>
    have hslot : (Store.active name a).slot key.toValue = .ok ⟨name, a, key, old⟩ :=
      slot_eq_ok.mpr ⟨rfl, AccessPath.ofValue_toValue hk, hp, hs⟩
    rw [revise, hslot]
    change (f key old >>= _) = _
    rw [hf]
    rfl

end

/-- Some slots stay as they are. -/
def KeepsSlots (K : AccessPath → Prop) (s t : Store) : Prop :=
  ∀ key, K key → t.slotAt? key = s.slotAt? key

instance (K : AccessPath → Prop) : IsPreorder Store (KeepsSlots K) where
  refl _ _ _ := rfl
  trans _ _ _ h h' key hk := (h' key hk).trans (h key hk)

variable {K : AccessPath → Prop}

theorem Changed.keepsSlots {s : Store} {key : AccessPath} {old : Json} (hk : key.Proper)
    (hn : ¬ K key) (h : s.Changed t key.toValue old new) : KeepsSlots K s t := by
  intro other ho
  rw [(h.slotAt hk).2 other, if_neg]
  rintro rfl
  exact hn ho

theorem KeepsSlots.parse (src : Sources) (file : Text) :
    Moves (KeepsSlots K) (Store.parse src file) := by
  intro s
  obtain he | ⟨name, cache, slots, p, parsed, rfl, -, -, he⟩ := endState_parse src file s
  · rw [he]
    exact refl_of (KeepsSlots K) s
  · rw [he]
    exact fun _ _ => rfl

/-- What is written to a slot moves the store along a relation. -/
structure WritesMove (R : Store → Store → Prop) (key : AccessPath) : Prop where
  set : ∀ v, Moves R (StoreM.change (·.set key.toValue v))
  push : ∀ v, Moves R (StoreM.change (·.push key.toValue v))
  unshift : ∀ v, Moves R (StoreM.change (·.unshift key.toValue v))
  merge : ∀ v, Moves R (StoreM.change (·.merge key.toValue v))

theorem WritesMove.of_written {R : Store → Store → Prop} [IsPreorder Store R] {key : AccessPath}
    (h : ∀ {s t}, s.Written t key.toValue → R s t) : WritesMove R key where
  set _ := StoreM.moves_change fun _ _ hs => h (written_of_set hs)
  push _ := StoreM.moves_change fun _ _ hs => h (written_of_push hs)
  unshift _ := StoreM.moves_change fun _ _ hs => h (written_of_unshift hs)
  merge _ := StoreM.moves_change fun _ _ hs => h (written_of_merge hs)

theorem KeepsSlots.writesMove {key : AccessPath} (hk : key.Proper) (hn : ¬ K key) :
    WritesMove (KeepsSlots K) key :=
  .of_written fun ⟨_, _, hc, _⟩ => hc.keepsSlots hk hn

end Store

/-! ### What requests write -/

namespace ImportGraph

open Store

section

variable {R : Store → Store → Prop} [IsPreorder Store R] {src : Sources}
  (hparse : ∀ file, Moves R (Store.parse src file))
  (himports : ∀ v, Moves R (StoreM.change (·.merge importsPath.toValue v)))
  (hreached : ∀ v, Moves R (StoreM.change (·.merge reachedPath.toValue v)))

include hparse himports

/-- Following imports parses files and remembers what it finds, and does no more to the store. -/
theorem moves_imports (g : ImportGraph) (file : Text) : Moves R (g.imports src file) := by
  unfold imports
  refine (Moves.lift _).bind fun p => (StoreM.moves_read _).bind fun v => ?_
  split
  · refine (hparse _).bind fun parsed => (Moves.lift _).bind fun found => ?_
    exact (himports _).bind fun _ => .pure _
  · exact .lift _

theorem moves_reachFrom (g : ImportGraph) (fuel : Nat) (stack order : List Text) :
    Moves R (g.reachFrom src fuel stack order) := by
  induction fuel generalizing stack order with
  | zero => exact .pure _
  | succ fuel ih =>
    unfold reachFrom
    split
    · exact .pure _
    · refine (moves_imports hparse himports g _).bind fun _ => ?_
      exact (Moves.lift _).bind fun _ => ih _ _

include hreached in
theorem moves_reached (g : ImportGraph) (entry : Text) : Moves R (g.reached src entry) := by
  unfold reached
  refine (Moves.lift _).bind fun p => (StoreM.moves_read _).bind fun v => ?_
  split
  · refine Moves.get.bind fun s => (moves_reachFrom hparse himports g _ _ _).bind fun order => ?_
    exact (hreached _).bind fun _ => .pure _
  · exact .lift _

end

end ImportGraph

/-- The store under a ledger changes along a relation. -/
def LedgerState.OnStore (R : Store → Store → Prop) (s t : LedgerState) : Prop := R s.store t.store

instance (R : Store → Store → Prop) [IsPreorder Store R] :
    IsPreorder LedgerState (LedgerState.OnStore R) where
  refl s := refl_of R s.store
  trans _ _ _ h h' := trans_of R h h'

namespace Ledger

open Store

theorem moves_onStore {α : Type} {R : Store → Store → Prop} {m : StoreM α} (h : Moves R m) :
    Moves (LedgerState.OnStore R) (LedgerM.onStore m) := by
  intro s
  have hm := h s.store
  unfold LedgerM.onStore
  split
  · next he => rwa [he] at hm
  · next he => rwa [he] at hm

theorem moves_record {R : Store → Store → Prop} [IsPreorder Store R] (l : Ledger) (fs : Files)
    (message : Value) (file : Text) (mark : Option Mark) :
    Moves (LedgerState.OnStore R) (l.record fs message file mark) := by
  have htick : Moves (LedgerState.OnStore R) LedgerM.tick := fun s => refl_of R s.store
  unfold record
  refine (Moves.lift _).bind fun present => ?_
  extract_lets rest
  have hrest (u : Unit) : Moves (LedgerState.OnStore R) (rest u) := by
    refine (Moves.lift _).bind fun resolved => htick.bind fun now => ?_
    split
    · exact .pure _
    · exact .throw _
  exact Moves.ite ((Moves.throw _).bind hrest) (hrest ())

/-- A report puts a record in front of those of its kind, and does no more to the store. -/
theorem moves_report {R : Store → Store → Prop} [IsPreorder Store R] {kind : ReportKind}
    (hunshift : ∀ v, Moves R (StoreM.change (·.unshift kind.path.toValue v))) (l : Ledger)
    (fs : Files) (message : Value) (file : Text) (mark : Option Mark) :
    Moves (LedgerState.OnStore R) (l.report fs kind message file mark) := by
  refine (moves_record l fs message file mark).bind fun fields => moves_onStore ?_
  refine (StoreM.moves_read _).bind fun kept => (Moves.lift _).bind fun known => ?_
  exact Moves.ite (.pure _) ((hunshift _).bind fun _ => .pure _)

end Ledger

/-! ### Sessions -/

/-- The store of a session changes along a relation. -/
def PhaseState.OnStore (R : Store → Store → Prop) (s t : PhaseState) : Prop :=
  R s.session.store t.session.store

instance (R : Store → Store → Prop) [IsPreorder Store R] :
    IsPreorder PhaseState (PhaseState.OnStore R) where
  refl s := refl_of R s.session.store
  trans _ _ _ h h' := trans_of R h h'

namespace PhaseM

variable {α : Type} {R : Store → Store → Prop}

theorem onStore_moves {m : StoreM α} (h : Moves R m) :
    Moves (PhaseState.OnStore R) (onStore m) := by
  intro s
  have hm := h s.session.store
  unfold onStore
  split
  · next he => rwa [he] at hm
  · next he => rwa [he] at hm

theorem onLedger_moves {m : LedgerM α} (h : Moves (LedgerState.OnStore R) m) :
    Moves (PhaseState.OnStore R) (onLedger m) := by
  intro s
  have hm := h ⟨s.session.store, s.world.clock⟩
  unfold onLedger
  dsimp only
  split
  · next he => rwa [he] at hm
  · next he => rwa [he] at hm

theorem change_apply (f : Store → Except Fault Store) (s : PhaseState) :
    PhaseM.change f s = match f s.session.store with
      | .ok t => .ok () { s with session := { s.session with store := t } }
      | .error e => .error e s := by
  unfold PhaseM.change PhaseM.onStore
  rw [StoreM.change_apply]
  cases f s.session.store with
  | ok t => rfl
  | error e => rfl

/-- The state of a phase with another store. -/
def withStore (s : PhaseState) (store : Store) : PhaseState :=
  { s with session := { s.session with store } }

section

variable {s : PhaseState} {key : AccessPath} {f : AccessPath → Json → Except Fault Json}
  {old new : Json}

theorem change_of_ok (hk : key.Proper) (hp : key ≠ parsedPath)
    (hs : s.session.store.slotAt? key = some old) (hf : f key old = .ok new) :
    ∃ t, PhaseM.change (·.revise key.toValue f) s = .ok () (withStore s t) ∧
      ∀ other, t.slotAt? other = if other = key then some new else
        s.session.store.slotAt? other := by
  obtain ⟨t, ht, hslots⟩ := Store.revise_of_ok hk hp hs hf
  refine ⟨t, ?_, hslots⟩
  rw [change_apply, ht]
  rfl

theorem change_of_error (hk : key.Proper) (hp : key ≠ parsedPath)
    (hs : s.session.store.slotAt? key = some old) {e : Fault} (hf : f key old = .error e) :
    PhaseM.change (·.revise key.toValue f) s = .error e s := by
  rw [change_apply, Store.revise_of_error hk hp hs hf]

/-- Two slots are written one after the other if the new value of each can be made. -/
theorem change_both {key' : AccessPath} {g : AccessPath → Json → Except Fault Json}
    {old' new' : Json} (hk : key.Proper) (hp : key ≠ parsedPath) (hk' : key'.Proper)
    (hp' : key' ≠ parsedPath) (hne : key' ≠ key) (hs : s.session.store.slotAt? key = some old)
    (hs' : s.session.store.slotAt? key' = some old') (hf : f key old = .ok new)
    (hg : g key' old' = .ok new') :
    ∃ t, (do
        PhaseM.change (·.revise key.toValue f)
        PhaseM.change (·.revise key'.toValue g)) s = .ok () (withStore s t) ∧
      ∀ other, t.slotAt? other = if other = key' then some new' else
        if other = key then some new else s.session.store.slotAt? other := by
  obtain ⟨t, ht, hslots⟩ := change_of_ok hk hp hs hf
  have hold : (withStore s t).session.store.slotAt? key' = some old' :=
    (hslots key').trans ((if_neg hne).trans hs')
  obtain ⟨u, hu, hslots'⟩ := change_of_ok hk' hp' hold hg
  refine ⟨u, ?_, fun other => (hslots' other).trans (if_congr Iff.rfl rfl (hslots other))⟩
  rw [bind_of_ok ht, hu]
  rfl

end

end PhaseM

/-- The slots that a request writes to, unless it uses the store directly. -/
def Request.slots : Request → List AccessPath
  | .imports _ => [ImportGraph.importsPath]
  | .reached _ => [ImportGraph.importsPath, ImportGraph.reachedPath]
  | .collect _ => [collectionPath]
  | .save _ => [savedPath, savedHistoryPath]
  | .report kind .. => [kind.path]
  | .stage .. => [stagedPath, stagedHistoryPath]
  | _ => []

theorem ReportKind.proper_path (kind : ReportKind) : kind.path.Proper := by
  cases kind with
  | error => decide
  | warning => decide

theorem Request.proper_slots (q : Request) : ∀ key ∈ q.slots, key.Proper := by
  cases q with
  | report kind => exact List.forall_mem_singleton.mpr kind.proper_path
  | _ =>
    dsimp only [slots]
    decide

namespace PluginSession

open Store PhaseM PhaseState

variable {q : Request}

/-- The two tables of staged texts. -/
def IsStagingTable (key : AccessPath) : Prop := key = stagedPath ∨ key = stagedHistoryPath

instance (key : AccessPath) : Decidable (IsStagingTable key) := inferInstanceAs (Decidable (_ ∨ _))

section

variable {R : Store → Store → Prop} [IsPreorder Store R]

theorem moves_stage_of (hstaged : WritesMove R stagedPath)
    (hhistory : WritesMove R stagedHistoryPath) (code : Value) (file : Text) :
    Moves (OnStore R) (stage code file) := by
  refine Moves.get.bind fun s => ?_
  split
  · refine (Moves.lift _).bind fun target => (Moves.lift _).bind fun inside => ?_
    have hwrite (v v' : Value) : Moves (OnStore R) (do
        PhaseM.change (·.merge stagedPath.toValue v)
        PhaseM.change (·.push stagedHistoryPath.toValue v')) :=
      (onStore_moves (hstaged.merge v)).bind fun _ => onStore_moves (hhistory.push v')
    exact Moves.ite ((Moves.throw _).bind fun _ => hwrite _ _) (hwrite _ _)
  · exact .throw _

/-- A request that does not use the store directly parses files and writes to its slots, and does no
more to the store. -/
theorem moves_answer_of (hparse : ∀ src file, Moves R (Store.parse src file))
    (hq : q.isOrdinary = true) (hslots : ∀ key ∈ q.slots, WritesMove R key) :
    Moves (OnStore R) (answer q) := by
  cases q with
  | parse => exact Moves.get.bind fun _ => onStore_moves (hparse _ _)
  | sourceFile => exact Moves.get.bind fun _ => .lift _
  | routes => exact Moves.get.bind fun _ => .pure _
  | imports =>
    have himports := hslots _ (.head _)
    exact Moves.get.bind fun _ =>
      onStore_moves (ImportGraph.moves_imports (hparse _) himports.merge _ _)
  | reached =>
    have himports := hslots _ (.head _)
    have hreached := hslots _ (.tail _ (.head _))
    exact Moves.get.bind fun _ =>
      onStore_moves (ImportGraph.moves_reached (hparse _) himports.merge hreached.merge _ _)
  | clientFiles => exact Moves.get.bind fun _ => .pure _
  | serverFiles => exact Moves.get.bind fun _ => .pure _
  | collect v => exact onStore_moves ((hslots _ (.head _)).push v)
  | collected => exact onStore_moves (StoreM.moves_read _)
  | save v =>
    have hhistory := hslots _ (.tail _ (.head _))
    exact (onStore_moves ((hslots _ (.head _)).set v)).bind fun _ => onStore_moves (hhistory.push v)
  | saved => exact onStore_moves (StoreM.moves_read _)
  | savedHistory => exact onStore_moves (StoreM.moves_read _)
  | report kind =>
    have hrecords := hslots _ (.head _)
    exact Moves.get.bind fun _ => onLedger_moves (Ledger.moves_report hrecords.unshift _ _ _ _ _)
  | records => exact onStore_moves (StoreM.moves_read _)
  | stage code file => exact moves_stage_of (hslots _ (.head _)) (hslots _ (.tail _ (.head _))) _ _
  | staged => exact onStore_moves (StoreM.moves_read _)
  | stagedHistory => exact onStore_moves (StoreM.moves_read _)
  | store => cases hq
  | context => exact Moves.get.bind fun _ => .pure _
  | configure => exact fun s => refl_of (OnStore R) s
  | note => exact fun s => refl_of (OnStore R) s

end

/-- A request that does not use the store directly writes to no slots but its own. -/
theorem keepsSlots_answer (hq : q.isOrdinary = true) :
    Moves (OnStore (KeepsSlots (· ∉ q.slots))) (answer q) := by
  refine moves_answer_of KeepsSlots.parse hq fun key hm => ?_
  refine KeepsSlots.writesMove (q.proper_slots key hm) (not_not.mpr hm)

/-- Of the requests that do not use the store directly, only the one to stage writes to the tables
of staged texts. -/
theorem keepsStaged_answer (hq : q.isOrdinary = true) (hs : ∀ code file, q ≠ .stage code file) :
    Moves (OnStore (KeepsSlots IsStagingTable)) (answer q) := by
  have hapart : ∀ key ∈ q.slots, ¬ IsStagingTable key := by
    cases q with
    | stage code file => exact absurd rfl (hs code file)
    | report kind =>
      cases kind with
      | error =>
        dsimp only [Request.slots]
        decide
      | warning =>
        dsimp only [Request.slots]
        decide
    | _ =>
      dsimp only [Request.slots]
      decide
  exact (keepsSlots_answer hq).mono fun s t h key hkey => h key fun hmem => hapart key hmem hkey

end PluginSession

/-! ### The tables and the log -/

/-- The text staged last for each path of a log, as it is kept. -/
def StagingLog.kept (log : StagingLog) : List (Text × Json) :=
  Assoc.ofList (log.map fun e => (e.1, .str e.2.joined))

theorem StagingLog.kept_append (log : StagingLog) (p text : Text) :
    StagingLog.kept (log ++ [(p, text)]) = Assoc.update log.kept [(p, .str text.joined)] := by
  simp [kept, Assoc.ofList, Assoc.update]

/-- A staged text in the history of staged texts. -/
def stagedRecord (e : Text × Text) : Json :=
  .obj [("filePath", .str e.1), ("code", .str e.2.joined)]

namespace PluginSession

open Store PhaseM

/-- Staging a text checks where it goes before anything is written. -/
theorem answer_stage_str (text file : Text) (s : PhaseState) :
    answer (.stage (.str text) file) s = match s.world.files.resolve (Path.parse file) with
      | .error e => .error e s
      | .ok q => match s.world.files.isInside s.session.project.root q with
        | .error e => .error e s
        | .ok false => .error (.store (.outsideRoot file)) s
        | .ok true => (do
          PhaseM.change (·.merge stagedPath.toValue (.map [(.str q.text, .str text)]))
          PhaseM.change (·.push stagedHistoryPath.toValue
            (.map [(.str "filePath", .str q.text), (.str "code", .str text)]))) s := by
  change (PhaseM.lift (s.world.files.resolve (Path.parse file)) >>= _) s = _
  cases s.world.files.resolve (Path.parse file) with
  | error e => rfl
  | ok q =>
    change (PhaseM.lift (s.world.files.isInside s.session.project.root q) >>= _) s =
      match s.world.files.isInside s.session.project.root q with
      | .error e => .error e s
      | .ok false => _
      | .ok true => _
    cases s.world.files.isInside s.session.project.root q with
    | error e => rfl
    | ok inside =>
      cases inside with
      | false => rfl
      | true => rfl

section

variable {s : PhaseState} {file : Text} {q : Path}
  (hq : s.world.files.resolve (Path.parse file) = .ok q)

include hq

/-- A text for a path inside the root is written to both tables. -/
theorem answer_stage_of_inside {items : List Json}
    (h : s.session.store.slotAt? stagedPath = some (.obj log.kept))
    (hh : s.session.store.slotAt? stagedHistoryPath = some (.arr items))
    (hin : s.world.files.isInside s.session.project.root q = .ok true) (text : Text) :
    ∃ t, answer (.stage (.str text) file) s = .ok () (withStore s t) ∧
      ∀ other, t.slotAt? other =
        if other = stagedHistoryPath then some (.arr (items ++ [stagedRecord (q.text, text)])) else
        if other = stagedPath then some (.obj (StagingLog.kept (log ++ [(q.text, text)]))) else
          s.session.store.slotAt? other := by
  rw [answer_stage_str, hq]
  dsimp only
  rw [hin]
  -- A resolved path has no halves to put together, so it is kept as it is.
  have hpath : q.text.joined = q.text := Files.joined_of_resolve hq
  have hkeep : (Value.map [(.str q.text, .str text)]).keep =
      .ok (.obj [(q.text.joined, .str text.joined)]) := rfl
  have hrecord : (Value.map [(.str "filePath", .str q.text), (.str "code", .str text)]).keep
      = .ok (.obj [("filePath", .str q.text.joined), ("code", .str text.joined)]) := rfl
  rw [hpath] at hkeep hrecord
  simp only [push_eq_revise, merge_eq_revise]
  obtain ⟨t, ht, hslots⟩ := change_both (by decide) (by decide) (by decide) (by decide)
    (by decide) h hh (overlaid_eq_ok.mpr ⟨_, _, _, rfl, rfl, rfl, hkeep⟩)
    (extended_eq_ok.mpr ⟨items, _, rfl, rfl, hrecord⟩)
  refine ⟨t, ht, ?_⟩
  rwa [StagingLog.kept_append]

/-- A text for a path outside the root is refused. -/
theorem answer_stage_of_outside
    (hin : s.world.files.isInside s.session.project.root q = .ok false) (text : Text) :
    answer (.stage (.str text) file) s = .error (.store (.outsideRoot file)) s := by
  rw [answer_stage_str, hq]
  dsimp only
  rw [hin]

end

/-- Staging writes a text for a path inside the root to both tables. Otherwise it changes
nothing. -/
theorem answer_stage {s : PhaseState} {items : List Json}
    (h : s.session.store.slotAt? stagedPath = some (.obj log.kept))
    (hh : s.session.store.slotAt? stagedHistoryPath = some (.arr items)) (code : Value)
    (file : Text) :
    (∃ text q t, code = .str text ∧ s.world.files.resolve (Path.parse file) = .ok q ∧
      s.world.files.isInside s.session.project.root q = .ok true ∧
      answer (.stage code file) s = .ok () (withStore s t) ∧
      ∀ other, t.slotAt? other =
        if other = stagedHistoryPath then some (.arr (items ++ [stagedRecord (q.text, text)])) else
        if other = stagedPath then some (.obj (StagingLog.kept (log ++ [(q.text, text)]))) else
          s.session.store.slotAt? other) ∨
    ∃ e, answer (.stage code file) s = .error e s := by
  cases code with
  | str text =>
    cases hq : s.world.files.resolve (Path.parse file) with
    | error e =>
      refine .inr ⟨e, ?_⟩
      rw [answer_stage_str, hq]
    | ok q =>
      cases hin : s.world.files.isInside s.session.project.root q with
      | error e =>
        refine .inr ⟨e, ?_⟩
        rw [answer_stage_str, hq]
        dsimp only
        rw [hin]
      | ok inside =>
        cases inside with
        | false => exact .inr ⟨_, answer_stage_of_outside hq hin text⟩
        | true =>
          obtain ⟨t, ht, hslots⟩ := answer_stage_of_inside hq h hh hin text
          exact .inl ⟨text, q, t, rfl, rfl, hin, ht, hslots⟩
  | _ => exact .inr ⟨_, rfl⟩

end PluginSession

/-- The tables of staged texts are those of a log over some files. -/
structure Tallies (fs : Files) (log : StagingLog) (s : Store) : Prop where
  staged : s.slotAt? stagedPath = some (.obj log.kept)
  history : ∃ items, s.slotAt? stagedHistoryPath = some (.arr items)
  resolved : ∀ e ∈ log, ∃ p q, fs.resolve p = .ok q ∧ q.text = e.1

theorem Tallies.keepsSlots {s : Store} (h : Tallies fs log s)
    (hk : Store.KeepsSlots PluginSession.IsStagingTable s t) : Tallies fs log t := by
  obtain ⟨items, hi⟩ := h.history
  refine ⟨?_, ⟨items, ?_⟩, h.resolved⟩
  · rw [hk stagedPath (.inl rfl)]
    exact h.staged
  · rw [hk stagedHistoryPath (.inr rfl)]
    exact hi

namespace PluginSession

/-- A text that is staged goes to the tables and to the log, one that is refused to none of them. -/
theorem tallies_stage {s : PhaseState} (h : Tallies fs log s.session.store)
    (hfs : s.world.files = fs) (code : Value) (file : Text) :
    (∀ t, stage code file s = .ok () t →
      Tallies fs (log ++ (Request.staging? fs (.stage code file)).toList) t.session.store) ∧
    ∀ e t, stage code file s = .error e t → Tallies fs log t.session.store := by
  subst hfs
  obtain ⟨items, hi⟩ := h.history
  obtain ⟨text, q, u, rfl, hq, -, hu, hslots⟩ | ⟨e, he⟩ := answer_stage h.staged hi code file
  · have hlog : Request.staging? s.world.files (.stage (.str text) file) = some (q.text, text) := by
      rw [Request.staging?, hq]
      rfl
    rw [hlog]
    refine ⟨fun t ht => ?_, fun e t ht => ?_⟩
    · cases hu.symm.trans ht
      exact ⟨hslots stagedPath, ⟨_, hslots stagedHistoryPath⟩,
        forall_mem_concat.mpr ⟨h.resolved, _, q, hq, rfl⟩⟩
    · cases hu.symm.trans ht
  · refine ⟨fun t ht => ?_, fun e' t ht => ?_⟩
    · cases he.symm.trans ht
    · cases he.symm.trans ht
      exact h

/-- The tables follow the log through every request that does not use the store directly. -/
theorem tallies_answer {s : PhaseState} (h : Tallies fs log s.session.store)
    (hfs : s.world.files = fs) {q : Request} (hq : q.isOrdinary = true) :
    (∀ r t, answer q s = .ok r t →
      Tallies fs (log ++ (q.staging? fs).toList) t.session.store) ∧
    ∀ e t, answer q s = .error e t → Tallies fs log t.session.store := by
  by_cases hs : ∃ code file, q = .stage code file
  · obtain ⟨code, file, rfl⟩ := hs
    obtain ⟨hok, herr⟩ := tallies_stage h hfs code file
    exact ⟨fun _ => hok, herr⟩
  · have hmoves := keepsStaged_answer hq fun code file he => hs ⟨code, file, he⟩
    have hnone : q.staging? fs = none := by
      unfold Request.staging?
      split
      · next code file => exact absurd ⟨_, file, rfl⟩ hs
      · rfl
    rw [hnone]
    simp only [Option.toList_none, List.append_nil]
    exact ⟨fun r t ht => h.keepsSlots (hmoves.of_ok ht),
      fun e t ht => h.keepsSlots (hmoves.of_error ht)⟩

end PluginSession

/-- The tables follow the log through every phase that does not use the store directly. -/
theorem Phase.Ordinary.tallies {α : Type} {phase : Phase α} (hp : phase.Ordinary) {s : PhaseState}
    (h : Tallies fs log s.session.store) (hfs : s.world.files = fs) :
    Tallies fs (log ++ phase.stagings s) (endState (phase.run s)).session.store := by
  induction hp generalizing log s with
  | done a =>
    rw [Phase.stagings, List.append_nil]
    exact h
  | fail e =>
    rw [Phase.stagings, List.append_nil]
    exact h
  | ask q next hq _ ih =>
    obtain ⟨hok, herr⟩ := PluginSession.tallies_answer h hfs hq
    have hframe := PluginSession.moves_answer q
    rw [Phase.stagings, Phase.run]
    dsimp only
    cases ha : PluginSession.answer q s with
    | ok r t =>
      have ht : t.world.files = fs := (congrArg Sources.files (hframe.of_ok ha).sources).trans hfs
      dsimp only
      rw [hfs, ← List.append_assoc]
      exact ih (.ok r) (hok r t ha) ht
    | error e t =>
      have ht : t.world.files = fs :=
        (congrArg Sources.files (hframe.of_error ha).sources).trans hfs
      exact ih (.error e) (herr e t ha) ht

end RoutePlugins
