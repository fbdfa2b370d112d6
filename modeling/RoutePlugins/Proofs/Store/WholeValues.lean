import RoutePlugins.Proofs.Ledger.ErrorTables
import RoutePlugins.Proofs.Plugin.LastingTables

/-!
# Whole values

A document is read with its surrogate pairs put together. A value without such pairs is whole: it is
read as it was written. What a store keeps is whole, and so is what a session has built. So the
tables of a session are whole, as long as its plugin does not start the store again.
-/

namespace RoutePlugins

namespace Json

/-- A value in which no halves are left to put together. -/
def Whole (v : Json) : Prop := v.joined = v

theorem whole_arr {items : List Json} : Whole (.arr items) ↔ ∀ v ∈ items, v.Whole := by
  have hself : items.map joined = items ↔ ∀ v ∈ items, v.Whole := by
    conv_lhs => rhs; rw [← List.map_id items]
    exact List.map_inj_left
  rw [Whole, joined, joinedItems_eq_map, arr.injEq, hself]

theorem joinedFields_eq_self {fields : List (Text × Json)}
    (h : ∀ e ∈ fields, e.1.joined = e.1 ∧ e.2.Whole) : joinedFields fields = fields := by
  induction fields with
  | nil => rfl
  | cons e rest ih =>
    obtain ⟨name, v⟩ := e
    obtain ⟨hname, hv⟩ := h (name, v) (by simp)
    rw [joinedFields, hname, hv, ih fun e he => h e (by simp [he])]

theorem whole_obj_of {fields : List (Text × Json)} (hd : (Assoc.keys fields).Nodup)
    (h : ∀ e ∈ fields, e.1.joined = e.1 ∧ e.2.Whole) : Whole (.obj fields) := by
  rw [Whole, joined, joinedFields_eq_self h, Assoc.ofList_of_nodup hd]

/-- Once halves were put together, none are left. -/
theorem whole_joined (v : Json) : v.joined.Whole := by
  induction v using nested_induction with
  | str s => exact congrArg str (Text.joined_joined s)
  | arr items ih =>
    rw [joined, joinedItems_eq_map]
    exact whole_arr.mpr (List.forall_mem_map.mpr ih)
  | obj fields ih =>
    exact whole_obj_of (Assoc.nodup_keys_ofList _) (forall_mem_joined fun e he =>
      ⟨Text.joined_joined e.1, ih e he⟩)
  | _ => rfl

/-- The fields of a whole object are whole. -/
theorem Whole.fields {fields : List (Text × Json)} (h : Whole (.obj fields)) :
    ∀ e ∈ fields, e.1.joined = e.1 ∧ e.2.Whole := by
  rw [← (obj.inj h : Assoc.ofList (joinedFields fields) = fields)]
  exact forall_mem_joined fun e _ => ⟨Text.joined_joined e.1, whole_joined e.2⟩

theorem whole_update {fields new : List (Text × Json)} (hd : (Assoc.keys fields).Nodup)
    (h : Whole (.obj fields)) (hn : Whole (.obj new)) :
    Whole (.obj (Assoc.update fields new)) := by
  refine whole_obj_of (Assoc.nodup_keys_update new hd) fun e he => ?_
  obtain he | he := Assoc.mem_update he
  · exact hn.fields e he
  · exact h.fields e he

end Json

/-- The kept form of a value is whole. -/
theorem Value.whole_of_keep {v : Value} {j : Json} {depth : Nat} (h : v.keepWithin depth = .ok j) :
    j.Whole := by
  obtain ⟨j', -, -, rfl⟩ := Value.keepWithin_eq_ok.mp h
  exact j'.whole_joined

/-! ### Stores -/

namespace Store

/-- A store with the tables of a session, in which all values are whole. -/
structure HoldsWhole (s : Store) : Prop extends HoldsTables s where
  whole : ∀ e ∈ s.values, e.2.Whole

theorem holdsWhole_first (name : Text) (cache : ParseCache) :
    HoldsWhole (.active name ⟨cache, firstSlots⟩) where
  toHoldsTables := holdsTables_first name cache
  whole := by
    intro e he
    change e ∈ firstSlots at he
    have hempty : e.2 = .arr [] ∨ e.2 = .obj [] ∨ e.2 = .null := by
      simp only [firstSlots, List.mem_cons, List.not_mem_nil, or_false] at he
      rcases he with rfl | rfl | rfl | rfl | rfl | rfl | rfl | rfl | rfl <;> simp
    obtain h | h | h := hempty <;> rw [h] <;> rfl

/-- A write turns a whole value into another. -/
theorem Revises.whole {old new : Json} (h : Revises old new) (hold : old.Whole) (hk : old.Kept) :
    new.Whole := by
  cases h with
  | set h => exact Value.whole_of_keep h
  | push h =>
    exact Json.whole_arr.mpr (forall_mem_concat.mpr
      ⟨Json.whole_arr.mp hold, Value.whole_of_keep h⟩)
  | unshift h =>
    exact Json.whole_arr.mpr (List.forall_mem_cons.mpr
      ⟨Value.whole_of_keep h, Json.whole_arr.mp hold⟩)
  | merge h => exact Json.whole_update (Json.kept_obj.mp hk).1 hold (Value.whole_of_keep h)

theorem stable_holdsWhole : Stable HoldsWhole where
  register h hr := by
    refine ⟨stable_holdsTables.register h.toHoldsTables hr, ?_⟩
    have hold := h.whole
    obtain ⟨name, a, v, rfl, -, -, hv, rfl⟩ := register_eq_ok.mp hr
    exact forall_mem_concat.mpr ⟨hold, Value.whole_of_keep hv⟩
  write h hw := by
    refine ⟨stable_holdsTables.write h.toHoldsTables hw, fun e he => ?_⟩
    have hold := h.whole
    have hkept := h.wellFormed
    obtain ⟨_, _, ⟨name, a, target, rfl, -, -, hget, rfl⟩, hr⟩ := hw
    obtain rfl | he := Assoc.mem_insert he
    · have hmem := Assoc.mem_of_get? hget
      exact hr.whole (hold _ hmem) (hkept.kept _ hmem).1
    · exact hold e he
  parse src file s h := by
    refine ⟨stable_holdsTables.parse src file s h.toHoldsTables, ?_⟩
    obtain he | ⟨name, cache, slots, p, parsed, rfl, -, -, he⟩ := endState_parse src file s
    · rw [he]
      exact h.whole
    · rw [he]
      exact h.whole

/-- A table is read as a whole value. -/
theorem HoldsWhole.get {s : Store} (h : s.HoldsWhole) {key : AccessPath}
    (hk : key ∈ Assoc.keys firstSlots) {j : Json} (hj : s.get key.toValue = .ok (.ofJson j)) :
    j.Whole := by
  obtain ⟨v, hv, hget⟩ := h.mem_values hk
  rw [← Value.ofJson_injective (Except.ok.inj (hget.symm.trans hj))]
  exact h.whole _ hv

end Store

/-! ### Sessions -/

/-- A plugin whose phases neither start the store of its session nor end it. -/
def Plugin.Lasting (plugin : Plugin) : Prop :=
  ∀ phase, (plugin.collector = some phase ∨ plugin.buildPhase = some phase ∨
    plugin.stager = some phase) → phase.Lasting

namespace Pipeline

section

variable {src : Sources} {project : Project} {table : RouteTable} {C : ParseCache → Prop}
  {plugin : Plugin} {s : PluginSession} (h : Life src project table C plugin s)

include h

/-- What a session has built is whole. -/
theorem Life.whole_derived : s.derived.Whole :=
  h.invariant (P := fun _ _ derived => derived.Whole) (fun _ _ => rfl) (fun _ _ _ hold => hold)
    fun hkeep _ => Value.whole_of_keep hkeep

/-- The tables of a session are whole, if its plugin neither starts the store nor ends it. -/
theorem Life.holdsWhole (hp : plugin.Lasting) : s.store.HoldsWhole :=
  h.invariant (P := fun _ store _ => store.HoldsWhole)
    (fun _ cache => Store.holdsWhole_first plugin.name cache)
    (fun phase hm t ht => (hp phase hm).keeps Store.stable_holdsWhole t ht) fun _ ht => ht

end

end Pipeline

end RoutePlugins
