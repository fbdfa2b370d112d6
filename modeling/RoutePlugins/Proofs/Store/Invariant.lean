import RoutePlugins.Proofs.Store.Steps

/-!
# The invariant of stores

Whatever is done with a store, by operations that succeed or fail and with any paths and values, the
registered paths of an open store are proper and lie apart from each other, and all values but the
parsed files can be kept. A store that is not open has nothing registered. The parsed files are
registered as long as the store is only started with such as can be made into a map.

The invariant is `Arena.WellFormed`. Each operation keeps it, so every sequence of operations does.
-/

namespace RoutePlugins

/-- The registered paths are proper and lie apart, and the values can be kept. -/
structure Arena.WellFormed (a : Arena) : Prop where
  proper : ∀ p ∈ a.paths, p.Proper
  apart : a.paths.Pairwise AccessPath.Apart
  kept : ∀ e ∈ a.slots, e.2.Stored

namespace Arena

/-- An arena without slots is well formed. -/
theorem wellFormed_empty (cache : Option ParseCache) : WellFormed ⟨cache, []⟩ where
  proper := by
    intro p hp
    obtain ⟨-, -, rfl⟩ : ∃ c, cache = some c ∧ parsedPath = p := by simpa [paths] using hp
    exact ⟨by decide, by decide⟩
  apart := by
    cases cache with
    | none => exact .nil
    | some c => exact List.pairwise_singleton _ _
  kept := by simp

variable {a : Arena} {key : AccessPath} {old new : Json}

/-- A proper path apart from the others may be added. -/
theorem WellFormed.append (h : a.WellFormed) {v : Json} (hk : key.Proper)
    (hp : ∀ p ∈ a.paths, AccessPath.Apart p key) (hv : v.Stored) :
    WellFormed { a with slots := a.slots ++ [(key, v)] } := by
  have hpaths : paths { a with slots := a.slots ++ [(key, v)] } = a.paths ++ [key] := by
    simp [paths]
  constructor
  · rw [hpaths]
    exact forall_mem_concat.mpr ⟨h.proper, hk⟩
  · rw [hpaths, List.pairwise_append]
    refine ⟨h.apart, List.pairwise_singleton _ _, fun p hq q hr => ?_⟩
    rw [List.mem_singleton.mp hr]
    exact hp p hq
  · exact forall_mem_concat.mpr ⟨h.kept, hv⟩

/-- Writing to a slot leaves the registered paths as they are. -/
theorem paths_insert (h : Assoc.get? key a.slots = some old) :
    paths { a with slots := Assoc.insert key new a.slots } = a.paths := by
  have hk := Assoc.keys_insert key new a.slots
  simp only [Assoc.contains, h, Option.isSome_some, if_true] at hk
  simpa [paths, Assoc.keys] using hk

/-- A value that can be kept may be written to a slot. -/
theorem WellFormed.insert (h : a.WellFormed) (hk : Assoc.get? key a.slots = some old)
    (hn : new.Stored) : WellFormed { a with slots := Assoc.insert key new a.slots } := by
  constructor
  · rw [paths_insert hk]
    exact h.proper
  · rw [paths_insert hk]
    exact h.apart
  · intro e he
    rcases Assoc.mem_insert he with rfl | he
    · exact hn
    · exact h.kept e he

end Arena

namespace Store

/-- An open store is well formed if its arena is. -/
def WellFormed : Store → Prop
  | .active _ a => a.WellFormed
  | _ => True

/-- The registered paths of a store. -/
def registered (s : Store) : List AccessPath :=
  match s.require with
  | .ok (_, a) => a.paths
  | .error _ => []

/-- The values of a store at its registered paths, parsed files apart. -/
def values (s : Store) : List (AccessPath × Json) :=
  match s.require with
  | .ok (_, a) => a.slots
  | .error _ => []

theorem clear_eq_ok {title : Value} {cache : Option ParseCache} {t : Store} :
    clear title cache = .ok t ↔
      ∃ name, AccessPath.segment? title = some name ∧ t = .active name ⟨cache, []⟩ := by
  unfold clear
  cases AccessPath.segment? title with
  | none => simp
  | some name => simp [eq_comm]

theorem WellFormed.clear {title : Value} {cache : Option ParseCache} {t : Store}
    (h : Store.clear title cache = .ok t) : t.WellFormed := by
  obtain ⟨name, -, rfl⟩ := clear_eq_ok.mp h
  exact Arena.wellFormed_empty cache

variable {t s : Store} {path v : Value}

theorem WellFormed.register (h : s.WellFormed) {initial : Value} {key : AccessPath}
    (hr : s.register path initial = .ok (key, t)) : t.WellFormed := by
  obtain ⟨name, a, v, rfl, hk, hp, hv, rfl⟩ := register_eq_ok.mp hr
  exact Arena.WellFormed.append h (AccessPath.proper_of_ofValue hk) hp (Value.stored_of_keep hv)

/-- A write turns a value that a slot may hold into another. -/
theorem Revises.stored {old new : Json} (h : Revises old new) (hold : old.Stored) : new.Stored := by
  cases h with
  | set h => exact Value.stored_of_keep h
  | push h =>
    rw [Json.stored_arr] at hold ⊢
    exact forall_mem_concat.mpr ⟨hold, Value.kept_of_keepWithin h⟩
  | unshift h =>
    rw [Json.stored_arr] at hold ⊢
    exact List.forall_mem_cons.mpr ⟨Value.kept_of_keepWithin h, hold⟩
  | merge h => exact Json.stored_update hold (Value.stored_of_keep h)

theorem WellFormed.write (h : s.WellFormed) (hw : s.Written t path) : t.WellFormed := by
  obtain ⟨old, new, ⟨name, a, key, rfl, -, -, hv, rfl⟩, hr⟩ := hw
  exact Arena.WellFormed.insert h hv (hr.stored (h.kept _ (Assoc.mem_of_get? hv)))

/-- Parsing, which only adds to the parsed files, keeps a store well formed. -/
theorem moves_parse (src : Sources) (file : Text) :
    Moves (Keeps WellFormed) (Store.parse src file) := by
  intro s h
  rcases endState_parse src file s with he | ⟨name, cache, slots, p, parsed, rfl, -, -, he⟩
  · rw [he]
    exact h
  · rw [he]
    exact ⟨h.proper, h.apart, h.kept⟩

/-- Properties that no write to a store takes away. -/
structure Stable (P : Store → Prop) : Prop where
  register {s t : Store} {path initial : Value} {key : AccessPath} (h : P s)
    (hr : s.register path initial = .ok (key, t)) : P t
  write {s t : Store} {path : Value} (h : P s) (hw : s.Written t path) : P t
  parse (src : Sources) (file : Text) : Moves (Keeps P) (Store.parse src file)

theorem stable_wellFormed : Stable WellFormed where
  register h hr := h.register hr
  write h hw := h.write hw
  parse := moves_parse

/-- Whether the parsed files are registered, if a store is open. -/
def isCached : Store → Bool
  | .active _ a => a.cache.isSome
  | _ => true

theorem isCached_of_parseCache {cache : ParseCache} (h : s.parseCache = .ok cache) :
    s.isCached = true := by
  cases s with
  | active name a =>
    obtain ⟨⟨⟩ | cache, slots⟩ := a
    · cases h
    · rfl
  | _ => rfl

theorem Written.isCached (h : s.Written t path) : t.isCached = s.isCached := by
  obtain ⟨_, _, ⟨name, a, key, rfl, -, -, -, rfl⟩, -⟩ := h
  rfl

theorem stable_cached : Stable (·.isCached = true) where
  register h hr := by
    obtain ⟨name, a, v, rfl, -, -, -, rfl⟩ := register_eq_ok.mp hr
    exact h
  write h hw := hw.isCached.trans h
  parse src file s h := by
    obtain he | ⟨name, cache, slots, p, parsed, rfl, -, -, he⟩ := endState_parse src file s
    · rw [he]
      exact h
    · rw [he]
      rfl

end Store

namespace StoreCall

open Store

/-- The path at which a call writes. -/
def target? : StoreCall → Option Value
  | .register path _ | .set path _ | .push path _ | .unshift path _ | .merge path _ => some path
  | _ => none

/-- Calls that do not start a store with parsed files that cannot be made into a map. -/
def Maps : StoreCall → Prop
  | .start _ preparsed => ∃ cache, ParseCache.ofValue preparsed = .ok cache
  | _ => True

/-- What calls do to a store and its history if they do anything. -/
inductive Alters (src : Sources) (s : StoreState) : StoreCall → StoreState → Prop
  | same {call} (h : call.target? = none) : Alters src s call s
  | start {title preparsed t}
    (h : Store.clear title (ParseCache.ofValue preparsed).toOption = .ok t) :
    Alters src s (.start title preparsed) ⟨t, s.history⟩
  | finish {name a} (h : s.store = .active name a) :
    Alters src s .finish ⟨.ended name, ⟨name, a⟩ :: s.history⟩
  | register {path initial key t} (h : s.store.register path initial = .ok (key, t)) :
    Alters src s (.register path initial) ⟨t, s.history⟩
  | write {call path t} (hp : call.target? = some path) (h : s.store.Written t path) :
    Alters src s call ⟨t, s.history⟩
  | parse {file f t} (h : Store.parse src file s.store = .ok f t) :
    Alters src s (.parse file) ⟨t, s.history⟩

theorem read_cases {α : Type} (f : Store → Except Fault α) (s : StoreState) :
    (∃ e, read f s = .error e s) ∨ ∃ a, f s.store = .ok a ∧ read f s = .ok a s := by
  unfold read onStore
  rw [StoreM.read_apply]
  cases f s.store with
  | ok a => exact .inr ⟨a, rfl, rfl⟩
  | error e => exact .inl ⟨e, rfl⟩

/-- A change fails and leaves all as it was, or puts another store in place. -/
theorem change_cases (f : Store → Except Fault Store) (s : StoreState) :
    (∃ e, change f s = .error e s) ∨
      ∃ t, f s.store = .ok t ∧ change f s = .ok .null ⟨t, s.history⟩ := by
  cases hf : f s.store with
  | ok t =>
    have h : onStore (StoreM.change f) s = .ok () ⟨t, s.history⟩ := by
      rw [onStore, StoreM.change_apply, hf]
    exact .inr ⟨t, rfl, bind_of_ok h⟩
  | error e =>
    have h : onStore (StoreM.change f) s = .error e s := by
      rw [onStore, StoreM.change_apply, hf]
    exact .inl ⟨e, bind_of_error h⟩

theorem parse_error {src : Sources} {file : Text} {s t : Store} {e : Fault}
    (h : Store.parse src file s = .error e t) : t = s := by
  cases s with
  | active name a =>
    obtain ⟨cache, slots⟩ := a
    cases cache with
    | none =>
      obtain ⟨e', he⟩ := Store.parse_uncached src file name slots
      cases he.symm.trans h
      rfl
    | some cache =>
      rw [Store.parse_active] at h
      split at h
      · cases h
        rfl
      · split at h
        · cases h
        · split at h
          · cases h
            rfl
          · cases h
  | _ =>
    cases h
    rfl

/-- Starting a store fails for want of a name, or clears the store, whether it succeeds or fails. -/
theorem startWith_cases (title preparsed : Value) (s : Store) :
    (∃ e, Store.startWith title preparsed s = .error e s) ∨
    ∃ t, Store.clear title (ParseCache.ofValue preparsed).toOption = .ok t ∧
      (Store.startWith title preparsed s = .ok () t ∨ ∃ e,
        ParseCache.ofValue preparsed = .error e ∧
          Store.startWith title preparsed s = .error e t) := by
  unfold Store.startWith Store.start Store.clear
  cases AccessPath.segment? title with
  | none => exact .inl ⟨_, rfl⟩
  | some name =>
    cases hc : ParseCache.ofValue preparsed with
    | ok cache => exact .inr ⟨_, rfl, .inl rfl⟩
    | error e => exact .inr ⟨_, rfl, .inr ⟨e, rfl, rfl⟩⟩

/-- A call fails and leaves all as it was, or alters the store in its own way. It may do that and
fail only where a store is started. -/
theorem run_cases (src : Sources) (call : StoreCall) (s : StoreState) :
    (∃ e, call.run src s = .error e s) ∨ ∃ t, Alters src s call t ∧
      ((∃ v, call.run src s = .ok v t) ∨ ∃ e, call.run src s = .error e t ∧ ¬ call.Maps) := by
  have hchange {f : Store → Except Fault Store}
      (h : ∀ t, f s.store = .ok t → Alters src s call ⟨t, s.history⟩) :
      (∃ e, change f s = .error e s) ∨ ∃ t, Alters src s call t ∧
        ((∃ v, change f s = .ok v t) ∨ ∃ e, change f s = .error e t ∧ ¬ call.Maps) :=
    (change_cases f s).imp_right fun ⟨t, hf, ht⟩ => ⟨_, h t hf, .inl ⟨_, ht⟩⟩
  have hread {α : Type} (f : Store → Except Fault α) (g : α → Value) (h : call.target? = none) :
      (∃ e, (read f >>= fun a => pure (g a)) s = .error e s) ∨ ∃ t, Alters src s call t ∧
        ((∃ v, (read f >>= fun a => pure (g a)) s = .ok v t) ∨
          ∃ e, (read f >>= fun a => pure (g a)) s = .error e t ∧ ¬ call.Maps) := by
    obtain ⟨e, he⟩ | ⟨a, -, ha⟩ := read_cases f s
    · exact .inl ⟨e, bind_of_error he⟩
    · exact .inr ⟨s, .same h, .inl ⟨g a, bind_of_ok ha⟩⟩
  cases call with
  | state => exact .inr ⟨s, .same rfl, .inl ⟨_, rfl⟩⟩
  | name => exact .inr ⟨s, .same rfl, .inl ⟨_, rfl⟩⟩
  | history => exact .inr ⟨s, .same rfl, .inl ⟨_, rfl⟩⟩
  | start title preparsed =>
    obtain ⟨e, he⟩ | ⟨t, hclear, ht | ⟨e, hcache, ht⟩⟩ := startWith_cases title preparsed s.store
    · have h : onStore (Store.startWith title preparsed) s = .error e s := by rw [onStore, he]
      exact .inl ⟨e, bind_of_error h⟩
    · have h : onStore (Store.startWith title preparsed) s = .ok () ⟨t, s.history⟩ := by
        rw [onStore, ht]
      exact .inr ⟨_, .start hclear, .inl ⟨_, bind_of_ok h⟩⟩
    · have h : onStore (Store.startWith title preparsed) s = .error e ⟨t, s.history⟩ := by
        rw [onStore, ht]
      refine .inr ⟨_, .start hclear, .inr ⟨e, bind_of_error h, ?_⟩⟩
      rintro ⟨cache, hc⟩
      cases hcache.symm.trans hc
  | finish =>
    obtain ⟨store, history⟩ := s
    cases store with
    | active name a => exact .inr ⟨_, .finish rfl, .inl ⟨_, rfl⟩⟩
    | _ => exact .inl ⟨_, rfl⟩
  | registrations => exact hread _ _ rfl
  | isRegistered path => exact hread _ _ rfl
  | parseCache => exact hread _ _ rfl
  | get path => exact (read_cases _ s).imp_right fun ⟨a, _, ha⟩ => ⟨s, .same rfl, .inl ⟨a, ha⟩⟩
  | register path initial =>
    -- The new store is read first, and putting it in place cannot fail.
    obtain ⟨e, he⟩ | ⟨⟨key, t⟩, hr, ha⟩ := read_cases (·.register path initial) s
    · exact .inl ⟨e, bind_of_error he⟩
    · exact .inr ⟨_, .register hr, .inl ⟨_, bind_of_ok ha⟩⟩
  | set path v => exact hchange fun t h => .write rfl (written_of_set h)
  | push path v => exact hchange fun t h => .write rfl (written_of_push h)
  | unshift path v => exact hchange fun t h => .write rfl (written_of_unshift h)
  | merge path v => exact hchange fun t h => .write rfl (written_of_merge h)
  | parse file =>
    cases hp : Store.parse src file s.store with
    | ok f t =>
      have h : onStore (Store.parse src file) s = .ok f ⟨t, s.history⟩ := by rw [onStore, hp]
      exact .inr ⟨_, .parse hp, .inl ⟨_, bind_of_ok h⟩⟩
    | error e t =>
      have h : onStore (Store.parse src file) s = .error e s := by
        rw [onStore, hp, parse_error hp]
      exact .inl ⟨e, bind_of_error h⟩
  | snapshot index path =>
    have hget : (MonadState.get : CallM StoreState) s = .ok s s := rfl
    rw [run, bind_of_ok hget]
    cases itemAt? s.history index with
    | none => exact .inl ⟨_, rfl⟩
    | some taken =>
      dsimp only
      cases taken.get path with
      | ok v => exact .inr ⟨s, .same rfl, .inl ⟨v, rfl⟩⟩
      | error e => exact .inl ⟨e, rfl⟩

theorem endState_run (src : Sources) (call : StoreCall) (s : StoreState) :
    endState (call.run src s) = s ∨ Alters src s call (endState (call.run src s)) := by
  obtain ⟨e, he⟩ | ⟨t, halters, ⟨v, ht⟩ | ⟨e, ht, -⟩⟩ := run_cases src call s
  · exact .inl (by rw [he]; rfl)
  · exact .inr (by rwa [ht])
  · exact .inr (by rwa [ht])

/-- What no write takes away, no call does, unless it starts the store or ends it. -/
theorem moves_run_of {P : Store → Prop} (hP : Stable P) (src : Sources) (call : StoreCall)
    (hstart : ∀ title preparsed t, call = .start title preparsed →
      Store.clear title (ParseCache.ofValue preparsed).toOption = .ok t → P t)
    (hfinish : call = .finish → ∀ name, P (.ended name)) :
    Moves (Keeps fun s : StoreState => P s.store) (call.run src) := by
  intro s hs
  obtain he | halters := endState_run src call s
  · rw [he]
    exact hs
  generalize endState (call.run src s) = t at halters ⊢
  cases halters with
  | same => exact hs
  | start h => exact hstart _ _ _ rfl h
  | finish => exact hfinish rfl _
  | register h => exact hP.register hs h
  | write _ h => exact hP.write hs h
  | parse h => exact (hP.parse src _).of_ok h hs

/-- Every call, whether it succeeds or fails, keeps its store well formed. -/
theorem moves_run (src : Sources) (call : StoreCall) :
    Moves (Keeps fun s : StoreState => s.store.WellFormed) (call.run src) :=
  moves_run_of stable_wellFormed src call (fun _ _ _ _ h => .clear h) fun _ _ => trivial

/-- The parsed files stay registered if no store is started with what cannot be made into a map. -/
theorem cached_run (src : Sources) {call : StoreCall} (hmaps : call.Maps) :
    Moves (Keeps fun s : StoreState => s.store.isCached = true) (call.run src) := by
  refine moves_run_of stable_cached src call ?_ fun _ _ => rfl
  rintro title preparsed t rfl hclear
  obtain ⟨cache, hcache⟩ := hmaps
  obtain ⟨name, -, rfl⟩ := clear_eq_ok.mp hclear
  rw [hcache]
  rfl

end StoreCall

/-- A step in the life of a store: a call, over the files that there are at the time. -/
structure StoreStep where
  call ::
  src : Sources
  operation : StoreCall

namespace StoreStep

/-- Take a step. -/
def run (step : StoreStep) : StoreCall.CallM Value := step.operation.run step.src

/-- The store after some steps, each of which may have failed. -/
def runAll (steps : List StoreStep) (s : StoreState) : StoreState :=
  steps.foldl (fun s step => endState (step.run s)) s

/-- What every step keeps true of its store, every sequence of steps does. -/
theorem keeps_runAll {P : Store → Prop} (steps : List StoreStep)
    (hP : ∀ step ∈ steps, Moves (Keeps fun s : StoreState => P s.store) step.run) (s : StoreState)
    (h : P s.store) : P (runAll steps s).store := by
  induction steps generalizing s with
  | nil => exact h
  | cons step rest ih =>
    obtain ⟨hstep, hrest⟩ := List.forall_mem_cons.mp hP
    exact ih hrest _ (hstep s h)

theorem wellFormed_runAll (steps : List StoreStep) (s : StoreState) (h : s.store.WellFormed) :
    (runAll steps s).store.WellFormed :=
  keeps_runAll steps (fun step _ => StoreCall.moves_run step.src step.operation) s h

/-- A store that was never started, after any sequence of steps with any paths and values, whether
they succeeded or failed: if it is open, every registered path has segments and none of them is
empty, no registered path begins with another one, and every value that is not the parsed files is
JSON with distinct names and with numbers that can be written. The parsed files are registered if
every start was given such as can be made into a map. If the store is not open, nothing is
registered. -/
theorem store_representation (steps : List StoreStep) (history : List Snapshot) :
    let s := (runAll steps ⟨.fresh, history⟩).store
    (s.state = "open" →
      ((∀ step ∈ steps, step.operation.Maps) → parsedPath ∈ s.registered) ∧
      (∀ p ∈ s.registered, p ≠ [] ∧ ∀ segment ∈ p, segment ≠ "") ∧
      (s.registered.Pairwise fun p q => ¬ p <+: q ∧ ¬ q <+: p) ∧
      ∀ e ∈ s.values, e.2.flaw? = none ∧ e.2.keysDistinct = true) ∧
    (s.state = "uninitialized" ∨ s.state = "ended" → s.registered = [] ∧ s.values = []) := by
  intro s
  have hw : s.WellFormed := wellFormed_runAll steps ⟨.fresh, history⟩ trivial
  have hcached (h : ∀ step ∈ steps, step.operation.Maps) : s.isCached = true :=
    keeps_runAll (P := (·.isCached = true)) steps
      (fun step hm => StoreCall.cached_run step.src (h step hm)) ⟨.fresh, history⟩ rfl
  generalize s = s at hw hcached
  cases s with
  | fresh => exact ⟨fun h => absurd h (by decide), fun _ => ⟨rfl, rfl⟩⟩
  | ended name => exact ⟨fun h => absurd h (by simp [Store.state]; decide), fun _ => ⟨rfl, rfl⟩⟩
  | active name a =>
    refine ⟨fun _ => ⟨fun h => ?_, fun p hp => ?_, hw.apart, fun e he => (hw.kept e he).1⟩,
      fun h => ?_⟩
    · obtain ⟨cache, hcache⟩ := Option.isSome_iff_exists.mp (hcached h)
      simp [Store.registered, Store.require, Arena.paths, hcache]
    · obtain ⟨hne, hseg⟩ := hw.proper p hp
      refine ⟨hne, fun segment hm => ?_⟩
      rintro rfl
      exact absurd (hseg _ hm) (by decide)
    · exact absurd h (by simp [Store.state]; decide)

/-- A store that is started with a number for the parsed files is open, and nothing is
registered. -/
theorem failed_start_leaves_nothing :
    let src : Sources := ⟨⟨[], []⟩, fun _ _ => default⟩
    let s := runAll [.call src (.start (.str "n") (.int 5))] ⟨.fresh, []⟩
    s.store.state = "open" ∧ s.store.registered = [] :=
  ⟨rfl, rfl⟩

end StoreStep

end RoutePlugins
