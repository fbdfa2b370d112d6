import RoutePlugins.Proofs.Plugin.StagingTables
import RoutePlugins.Proofs.Store.Invariant

/-!
# The tables of a session last

A session is opened with its tables registered. No request takes them away, apart from the two that
go to the store directly and start it again or end it. So a phase that makes neither leaves a store
that is open, and in which every table can be read.
-/

namespace RoutePlugins

variable {s : Store}

namespace Store

/-- A well-formed store that is open and has parsed files and the tables of a session. -/
structure HoldsTables (s : Store) : Prop where
  wellFormed : s.WellFormed
  cached : s.isCached = true
  tables : ∀ key ∈ Assoc.keys firstSlots, key ∈ Assoc.keys s.values

theorem holdsTables_first (name : Text) (cache : ParseCache) :
    HoldsTables (.active name ⟨cache, firstSlots⟩) where
  wellFormed := by
    constructor
    · change ∀ key ∈ parsedPath :: firstSlots.map Prod.fst, key.Proper
      decide
    · change (parsedPath :: firstSlots.map Prod.fst).Pairwise AccessPath.Apart
      decide
    · change ∀ e ∈ firstSlots, (e.2.flaw? = none ∧ e.2.keysDistinct = true) ∧ e.2.Shaped _
      decide
  cached := rfl
  tables := fun _ h => h

theorem stable_holdsTables : Stable HoldsTables where
  register h hr := by
    refine ⟨h.wellFormed.register hr, stable_cached.register h.cached hr, fun key hk => ?_⟩
    have hold := h.tables key hk
    obtain ⟨name, a, v, rfl, -, -, -, rfl⟩ := register_eq_ok.mp hr
    change key ∈ Assoc.keys (a.slots ++ [(_, v)])
    rw [Assoc.keys, List.map_append]
    exact List.mem_append_left _ hold
  write h hw := by
    refine ⟨h.wellFormed.write hw, hw.isCached.trans h.cached, fun key hk => ?_⟩
    have hold := h.tables key hk
    obtain ⟨_, _, ⟨name, a, target, rfl, -, -, -, rfl⟩, -⟩ := hw
    exact Assoc.mem_keys_insert.mpr (.inr hold)
  parse src file s h := by
    refine ⟨moves_parse src file s h.wellFormed, stable_cached.parse src file s h.cached, ?_⟩
    obtain he | ⟨name, cache, slots, p, parsed, rfl, -, -, he⟩ := endState_parse src file s
    · rw [he]
      exact h.tables
    · rw [he]
      exact h.tables

/-- A table of a session can be read. -/
theorem HoldsTables.mem_values (h : s.HoldsTables) {key : AccessPath}
    (hk : key ∈ Assoc.keys firstSlots) :
    ∃ v, (key, v) ∈ s.values ∧ s.get key.toValue = .ok (.ofJson v) := by
  have hplain : ∀ key ∈ Assoc.keys firstSlots, key.Proper ∧ parsedPath.isFront key = false := by
    decide
  cases s with
  | fresh => exact absurd (h.tables key hk) (by simp [values, require, Assoc.keys])
  | ended name => exact absurd (h.tables key hk) (by simp [values, require, Assoc.keys])
  | active name a =>
    obtain ⟨v, hv⟩ := Assoc.exists_get?_iff.mpr (h.tables key hk)
    exact ⟨v, Assoc.mem_of_get? hv, get_of_slotAt (hplain key hk).1 (hplain key hk).2 hv⟩

/-- A table of a session holds a value that a slot may hold. -/
theorem HoldsTables.get (h : s.HoldsTables) {key : AccessPath} (hk : key ∈ Assoc.keys firstSlots) :
    ∃ v, s.get key.toValue = .ok (.ofJson v) ∧ v.Stored := by
  obtain ⟨v, hv, hget⟩ := h.mem_values hk
  have hwf := h.wellFormed
  cases s with
  | fresh => cases hv
  | ended name => cases hv
  | active name a => exact ⟨v, hget, hwf.kept _ hv⟩

theorem HoldsTables.parseCache (h : s.HoldsTables) : ∃ cache, s.parseCache = .ok cache := by
  cases s with
  | fresh => exact absurd (h.tables savedPath (by decide)) (by decide)
  | ended name =>
    exact absurd (h.tables savedPath (by decide)) (by simp [values, require, Assoc.keys])
  | active name a =>
    obtain ⟨cache, slots⟩ := a
    obtain ⟨cache, rfl⟩ := Option.isSome_iff_exists.mp h.cached
    exact ⟨cache, rfl⟩

end Store

/-! ### Requests -/

namespace Store

theorem Stable.writesMove {P : Store → Prop} (hP : Stable P) (key : AccessPath) :
    WritesMove (Keeps P) key :=
  .of_written fun hw hs => hP.write hs hw

end Store

/-- Whether a request neither starts the store of its session nor ends it. -/
def Request.isLasting : Request → Bool
  | .store (.start ..) => false
  | .store .finish => false
  | _ => true

namespace PhaseM

theorem onCall_keeps {α : Type} {P : Store → Prop} {m : StoreCall.CallM α}
    (h : Moves (Keeps fun s : StoreState => P s.store) m) :
    Moves (PhaseState.OnStore (Keeps P)) (onCall m) := by
  intro s
  have hm := h ⟨s.session.store, s.world.history⟩
  unfold onCall
  dsimp only
  split
  · next he => rwa [he] at hm
  · next he => rwa [he] at hm

end PhaseM

namespace PluginSession

open Store PhaseM PhaseState

/-- What no write takes away from a store, no request does, unless it starts the store or ends
it. -/
theorem keeps_answer {P : Store → Prop} (hP : Stable P) {q : Request} (hq : q.isLasting = true) :
    Moves (OnStore (Keeps P)) (answer q) := by
  cases q with
  | store call =>
    refine Moves.get.bind fun _ => onCall_keeps (StoreCall.moves_run_of hP _ call ?_ ?_)
    · rintro title preparsed t rfl
      cases hq
    · rintro rfl
      cases hq
  | _ => exact moves_answer_of hP.parse rfl fun key _ => hP.writesMove key

end PluginSession

/-! ### Phases -/

/-- Programs that neither start the store of their session nor end it, whatever they are
answered. -/
inductive Phase.Lasting {α : Type} : Phase α → Prop where
  | done (a : α) : Lasting (.done a)
  | fail (e : Fault) : Lasting (.fail e)
  | ask (q : Request) (next : Except Fault q.Reply → Phase α) (h : q.isLasting = true)
      (hn : ∀ r, Lasting (next r)) : Lasting (.ask q next)

/-- Programs that leave the tables of their session in its store, if they found them there. -/
def Phase.KeepsTables {α : Type} (phase : Phase α) : Prop :=
  Moves (PhaseState.OnStore (Keeps Store.HoldsTables)) phase.run

/-- A plugin whose phases leave the tables of its session in place. -/
def Plugin.KeepsTables (plugin : Plugin) : Prop :=
  ∀ phase, (plugin.collector = some phase ∨ plugin.buildPhase = some phase ∨
    plugin.stager = some phase) → phase.KeepsTables

/-- What no write takes away from a store, a phase that neither starts the store nor ends it does
not. -/
theorem Phase.Lasting.keeps {α : Type} {P : Store → Prop} (hP : Store.Stable P) {phase : Phase α}
    (h : phase.Lasting) : Moves (PhaseState.OnStore (Keeps P)) phase.run := by
  induction h with
  | done a => exact fun _ => id
  | fail e => exact fun _ => id
  | ask q next hq _ ih =>
    intro s hs
    rw [Phase.run_ask]
    exact ih _ _ (PluginSession.keeps_answer hP hq s hs)

theorem Phase.Lasting.keepsTables {α : Type} {phase : Phase α} (h : phase.Lasting) :
    phase.KeepsTables := h.keeps Store.stable_holdsTables

end RoutePlugins
