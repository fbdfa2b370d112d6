import RoutePlugins.Proofs.Maps
import RoutePlugins.Proofs.Motion

/-!
# Kept values

The values that a store keeps: every number in them can be written, no object has two fields of one
name, and they do not lie too deep. The kept form of a value is always such a value, and putting
such values together gives another.
-/

namespace RoutePlugins

variable {r : NotJson}

namespace Json

mutual

/-- Whether the names of the fields are distinct in every object of a value. -/
def keysDistinct : Json → Bool
  | .arr items => keysDistinctItems items
  | .obj fields => decide (Assoc.keys fields).Nodup && keysDistinctFields fields
  | _ => true

/-- Whether names are distinct in every object of the items of a list. -/
def keysDistinctItems : List Json → Bool
  | [] => true
  | v :: rest => v.keysDistinct && keysDistinctItems rest

/-- Whether names are distinct in every object of the fields of an object. -/
def keysDistinctFields : List (Text × Json) → Bool
  | [] => true
  | (_, v) :: rest => v.keysDistinct && keysDistinctFields rest

end

section

variable (I : Int → Prop) (D : Double → Prop)

mutual

/-- A value whose lists and objects lie at most `depth` deep in one another, with whole numbers and
doubles as they are wanted. -/
def Within (depth : Nat) : Json → Prop
  | .int n => I n
  | .float d => D d
  | .arr items => 0 < depth ∧ WithinItems (depth - 1) items
  | .obj fields => 0 < depth ∧ WithinFields (depth - 1) fields
  | _ => True

/-- `Within` for items. -/
def WithinItems (depth : Nat) : List Json → Prop
  | [] => True
  | v :: rest => Within depth v ∧ WithinItems depth rest

/-- `Within` for fields. -/
def WithinFields (depth : Nat) : List (Text × Json) → Prop
  | [] => True
  | (_, v) :: rest => Within depth v ∧ WithinFields depth rest

end

variable [DecidablePred I] [DecidablePred D]

mutual

def decideWithin (depth : Nat) : (v : Json) → Decidable (Within I D depth v)
  | .null => isTrue trivial
  | .bool _ => isTrue trivial
  | .int n => inferInstanceAs (Decidable (I n))
  | .float d => inferInstanceAs (Decidable (D d))
  | .str _ => isTrue trivial
  | .arr items =>
    have := decideWithinItems (depth - 1) items
    inferInstanceAs (Decidable (_ ∧ _))
  | .obj fields =>
    have := decideWithinFields (depth - 1) fields
    inferInstanceAs (Decidable (_ ∧ _))

def decideWithinItems (depth : Nat) : (items : List Json) → Decidable (WithinItems I D depth items)
  | [] => isTrue trivial
  | v :: rest =>
    have := decideWithin depth v
    have := decideWithinItems depth rest
    inferInstanceAs (Decidable (_ ∧ _))

def decideWithinFields (depth : Nat) :
    (fields : List (Text × Json)) → Decidable (WithinFields I D depth fields)
  | [] => isTrue trivial
  | (_, v) :: rest =>
    have := decideWithin depth v
    have := decideWithinFields depth rest
    inferInstanceAs (Decidable (_ ∧ _))

end

instance (depth : Nat) (v : Json) : Decidable (Within I D depth v) := decideWithin I D depth v

end

/-- What holds of every list if it holds of its items, and of every object if it holds of its
values, holds of all values if it holds of those that have neither. -/
@[elab_as_elim]
theorem nested_induction {motive : Json → Prop} (null : motive .null)
    (bool : ∀ b, motive (.bool b)) (int : ∀ n, motive (.int n)) (float : ∀ d, motive (.float d))
    (str : ∀ s, motive (.str s)) (arr : ∀ items, (∀ v ∈ items, motive v) → motive (.arr items))
    (obj : ∀ fields, (∀ e ∈ fields, motive e.2) → motive (.obj fields)) (v : Json) : motive v :=
  @Json.rec motive (fun items => ∀ v ∈ items, motive v) (fun fields => ∀ e ∈ fields, motive e.2)
    (fun e => motive e.2) null bool int float str arr obj nofun
    (fun _ _ hv hrest => List.forall_mem_cons.mpr ⟨hv, hrest⟩) nofun
    (fun _ _ he hrest => List.forall_mem_cons.mpr ⟨he, hrest⟩) (fun _ _ hv => hv) v

section

variable {I I' : Int → Prop} {D D' : Double → Prop} {m depth : Nat} {v : Json} {items : List Json}
  {fields : List (Text × Json)}

theorem withinItems_iff : WithinItems I D depth items ↔ ∀ v ∈ items, Within I D depth v := by
  induction items with
  | nil => simp [WithinItems]
  | cons v rest ih => simp [WithinItems, ih]

theorem withinFields_iff : WithinFields I D depth fields ↔ ∀ e ∈ fields, Within I D depth e.2 := by
  induction fields with
  | nil => simp [WithinFields]
  | cons e rest ih => simp [WithinFields, ih]

theorem flawItems?_eq_none : flawItems? items = none ↔ ∀ v ∈ items, v.flaw? = none := by
  induction items with
  | nil => simp [flawItems?]
  | cons v rest ih => simp [flawItems?, ih]

theorem flawFields?_eq_none : flawFields? fields = none ↔ ∀ e ∈ fields, e.2.flaw? = none := by
  induction fields with
  | nil => simp [flawFields?]
  | cons e rest ih => simp [flawFields?, ih]

theorem joinedItems_eq_map : joinedItems items = items.map joined := by
  induction items with
  | nil => rfl
  | cons v rest ih => rw [joinedItems, ih, List.map_cons]

/-- A field of an object in which halves were put together is such a field of the object. -/
theorem forall_mem_joined {P : Text × Json → Prop}
    (h : ∀ e ∈ fields, P (e.1.joined, e.2.joined)) :
    ∀ e ∈ Assoc.ofList (joinedFields fields), P e := by
  have hmap : joinedFields fields = fields.map fun e => (e.1.joined, e.2.joined) := by
    clear h
    induction fields with
    | nil => rfl
    | cons e rest ih => rw [joinedFields, ih, List.map_cons]
  intro e he
  have hmem := Assoc.mem_of_mem_ofList he
  rw [hmap] at hmem
  exact List.forall_mem_map.mpr h e hmem

/-- Less may be wanted of the numbers of a value, and it may always lie deeper. -/
theorem Within.imp (h : Within I D m v) (hI : ∀ n, I n → I' n) (hD : ∀ d, D d → D' d)
    (hd : m ≤ depth) : Within I' D' depth v := by
  induction v using nested_induction generalizing m depth with
  | int n => exact hI n h
  | float d => exact hD d h
  | arr items ih =>
    refine ⟨Nat.lt_of_lt_of_le h.1 hd, withinItems_iff.mpr fun v hv => ?_⟩
    exact ih v hv (withinItems_iff.mp h.2 v hv) (Nat.sub_le_sub_right hd 1)
  | obj fields ih =>
    refine ⟨Nat.lt_of_lt_of_le h.1 hd, withinFields_iff.mpr fun e he => ?_⟩
    exact ih e he (withinFields_iff.mp h.2 e he) (Nat.sub_le_sub_right hd 1)
  | _ => trivial

/-- Putting halves together changes no number and no depth. -/
theorem Within.joined (h : Within I D depth v) : Within I D depth v.joined := by
  induction v using nested_induction generalizing depth with
  | arr items ih =>
    refine ⟨h.1, withinItems_iff.mpr ?_⟩
    rw [joinedItems_eq_map]
    exact List.forall_mem_map.mpr fun v hv => ih v hv (withinItems_iff.mp h.2 v hv)
  | obj fields ih =>
    exact ⟨h.1, withinFields_iff.mpr (forall_mem_joined fun e he =>
      ih e he (withinFields_iff.mp h.2 e he))⟩
  | _ => exact h

/-- The numbers of a value that can be written do not have too many digits. -/
theorem Within.fewDigits (h : Within I D depth v) (hflaw : v.flaw? = none) :
    Within FewDigits D depth v := by
  induction v using nested_induction generalizing depth with
  | int n => simpa [flaw?, Within] using hflaw
  | arr items ih =>
    exact ⟨h.1, withinItems_iff.mpr fun v hv =>
      ih v hv (withinItems_iff.mp h.2 v hv) (flawItems?_eq_none.mp hflaw v hv)⟩
  | obj fields ih =>
    exact ⟨h.1, withinFields_iff.mpr fun e he =>
      ih e he (withinFields_iff.mp h.2 e he) (flawFields?_eq_none.mp hflaw e he)⟩
  | _ => exact h

end

/-- A value that lies at most `depth` deep. -/
abbrev Shaped (depth : Nat) (v : Json) : Prop := Within (fun _ => True) (fun _ => True) depth v

theorem Shaped.mono {m depth : Nat} {v : Json} (h : Shaped m v) (hd : m ≤ depth) : Shaped depth v :=
  Within.imp h (fun _ h => h) (fun _ h => h) hd

/-- A value that can be kept: its numbers can be written, and its objects have distinct names. -/
def Kept (v : Json) : Prop := v.flaw? = none ∧ v.keysDistinct = true

/-- A list is kept if its items are. -/
theorem kept_arr {items : List Json} : Kept (.arr items) ↔ ∀ v ∈ items, Kept v := by
  have hkeys : keysDistinctItems items = true ↔ ∀ v ∈ items, v.keysDistinct = true := by
    induction items with
    | nil => simp [keysDistinctItems]
    | cons v rest ih => simp [keysDistinctItems, ih]
  rw [Kept, flaw?, keysDistinct, flawItems?_eq_none, hkeys]
  exact forall₂_and.symm

/-- An object is kept if its names are distinct and its values are kept. -/
theorem kept_obj {fields : List (Text × Json)} :
    Kept (.obj fields) ↔ (Assoc.keys fields).Nodup ∧ ∀ e ∈ fields, Kept e.2 := by
  have hkeys : keysDistinctFields fields = true ↔ ∀ e ∈ fields, e.2.keysDistinct = true := by
    induction fields with
    | nil => simp [keysDistinctFields]
    | cons e rest ih => simp [keysDistinctFields, ih]
  rw [Kept, flaw?, keysDistinct, flawFields?_eq_none, Bool.and_eq_true, decide_eq_true_eq, hkeys,
    and_left_comm]
  exact and_congr_right fun _ => forall₂_and.symm

/-- Putting halves together in a value whose numbers can be written gives one that can be kept. -/
theorem kept_joined {v : Json} (h : v.flaw? = none) : v.joined.Kept := by
  induction v using nested_induction with
  | arr items ih =>
    rw [joined, joinedItems_eq_map, kept_arr]
    exact List.forall_mem_map.mpr fun v hv => ih v hv (flawItems?_eq_none.mp h v hv)
  | obj fields ih =>
    exact kept_obj.mpr ⟨Assoc.nodup_keys_ofList _, forall_mem_joined fun e he =>
      ih e he (flawFields?_eq_none.mp h e he)⟩
  | _ => exact ⟨h, rfl⟩

/-- Updating an object with another keeps it fit to be kept. -/
theorem kept_update {fields new : List (Text × Json)} (h : Kept (.obj fields))
    (hn : Kept (.obj new)) : Kept (.obj (Assoc.update fields new)) := by
  rw [kept_obj] at h hn ⊢
  refine ⟨Assoc.nodup_keys_update new h.1, fun e he => ?_⟩
  rcases Assoc.mem_update he with he | he
  · exact hn.2 e he
  · exact h.2 e he

/-- A value whose document can be written by a look at most `depth` deep. -/
def Writable (depth : Nat) (v : Json) : Prop := v.flaw? = none ∧ v.Shaped depth

/-- A value that a slot may hold: a kept value, or such values put together. -/
def Stored (v : Json) : Prop := v.Kept ∧ v.Shaped (Value.maxDepth + 1)

/-- A list may be held if its items are kept. -/
theorem stored_arr {items : List Json} :
    Stored (.arr items) ↔ ∀ v ∈ items, v.Kept ∧ v.Shaped Value.maxDepth := by
  have hshape : Shaped (Value.maxDepth + 1) (.arr items) ↔ ∀ v ∈ items, v.Shaped Value.maxDepth :=
    (and_iff_right (Nat.succ_pos _)).trans withinItems_iff
  rw [Stored, kept_arr, hshape]
  exact forall₂_and.symm

/-- An object may be held if one is updated that may, with one that is kept. -/
theorem stored_update {fields new : List (Text × Json)} (h : Stored (.obj fields))
    (hn : Stored (.obj new)) : Stored (.obj (Assoc.update fields new)) := by
  refine ⟨kept_update h.1 hn.1, Nat.succ_pos _, withinFields_iff.mpr fun e he => ?_⟩
  rcases Assoc.mem_update he with he | he
  · exact withinFields_iff.mp hn.2.2 e he
  · exact withinFields_iff.mp h.2.2 e he

end Json

namespace Value

variable {depth : Nat}

mutual

/-- The JSON form of a value that came from JSON is that JSON. -/
theorem toJson?_ofJson : (j : Json) → toJson? (ofJson j) = some j
  | .null => rfl
  | .bool _ => rfl
  | .int _ => rfl
  | .float _ => rfl
  | .str _ => rfl
  | .arr items => by rw [ofJson, toJson?, toJsonItems?_ofJsonItems items, Option.map_some]
  | .obj fields => by rw [ofJson, toJson?, toJsonFields?_ofJsonFields fields, Option.map_some]

theorem toJsonItems?_ofJsonItems : (items : List Json) →
    toJsonItems? (ofJsonItems items) = some items
  | [] => rfl
  | v :: rest => by
    rw [ofJsonItems, toJsonItems?, toJson?_ofJson v, toJsonItems?_ofJsonItems rest]

theorem toJsonFields?_ofJsonFields : (fields : List (Text × Json)) →
    toJsonFields? (ofJsonFields fields) = some fields
  | [] => rfl
  | (k, v) :: rest => by
    rw [ofJsonFields, toJsonFields?, toJson?_ofJson v, toJsonFields?_ofJsonFields rest]

end

theorem ofJson_injective {j k : Json} (h : ofJson j = ofJson k) : j = k := by
  have hjson := congrArg toJson? h
  rwa [toJson?_ofJson, toJson?_ofJson, Option.some.injEq] at hjson

mutual

/-- A value with a JSON form came from it. -/
theorem ofJson_of_toJson? : (v : Value) → (j : Json) → toJson? v = some j → ofJson j = v
  | .null, _, h => by cases h; rfl
  | .bool _, _, h => by cases h; rfl
  | .int _, _, h => by cases h; rfl
  | .float _, _, h => by cases h; rfl
  | .str _, _, h => by cases h; rfl
  | .list items, _, h => by
    obtain ⟨js, hjs, rfl⟩ := Option.map_eq_some_iff.mp h
    rw [ofJson, ofJsonItems_of_toJsonItems? items js hjs]
  | .map entries, _, h => by
    obtain ⟨fields, hfields, rfl⟩ := Option.map_eq_some_iff.mp h
    rw [ofJson, ofJsonFields_of_toJsonFields? entries fields hfields]
  | .bytes _, _, h | .tuple _, _, h | .set _, _, h | .parsed _, _, h | .object _, _, h => by cases h

theorem ofJsonItems_of_toJsonItems? : (items : List Value) → (js : List Json) →
    toJsonItems? items = some js → ofJsonItems js = items
  | [], _, h => by cases h; rfl
  | v :: rest, js, h => by
    rw [toJsonItems?] at h
    split at h
    · next j js' hv hrest =>
      cases h
      rw [ofJsonItems, ofJson_of_toJson? v j hv, ofJsonItems_of_toJsonItems? rest js' hrest]
    · cases h

theorem ofJsonFields_of_toJsonFields? : (entries : List (Value × Value)) →
    (fields : List (Text × Json)) → toJsonFields? entries = some fields →
    ofJsonFields fields = entries
  | [], _, h => by cases h; rfl
  | (k, v) :: rest, fields, h => by
    cases k with
    | str key =>
      rw [toJsonFields?] at h
      split at h
      · next j fields' hv hrest =>
        cases h
        rw [ofJsonFields, ofJson_of_toJson? v j hv,
          ofJsonFields_of_toJsonFields? rest fields' hrest]
      · cases h
    | _ => cases h

end

theorem ofJsonItems_eq_map (items : List Json) : ofJsonItems items = items.map ofJson := by
  induction items with
  | nil => rfl
  | cons v rest ih => rw [ofJsonItems, ih, List.map_cons]

theorem ofJsonFields_eq_map (fields : List (Text × Json)) :
    ofJsonFields fields = fields.map fun e => (.str e.1, .ofJson e.2) := by
  induction fields with
  | nil => rfl
  | cons e rest ih => rw [ofJsonFields, ih, List.map_cons]

variable {v : Value} {j : Json}

mutual

/-- A value that lies at most `depth` deep is found to be JSON. -/
theorem form_ofJson (r : NotJson) : (j : Json) → ∀ {depth}, j.Shaped depth →
    form r depth (ofJson j) = .ok j
  | .null, _, _ => by rw [ofJson, form]
  | .bool _, _, _ => by rw [ofJson, form]
  | .int _, _, _ => by rw [ofJson, form]
  | .float _, _, _ => by rw [ofJson, form]
  | .str _, _, _ => by rw [ofJson, form]
  | .arr items, depth + 1, h => by
    have hitems : formItems r depth (ofJsonItems items) = _ := formItems_ofJsonItems r items h.2
    rw [ofJson, form, hitems]
    rfl
  | .obj fields, depth + 1, h => by
    have hfields : formFields r depth (ofJsonFields fields) = _ :=
      formFields_ofJsonFields r fields h.2
    rw [ofJson, form, hfields]
    rfl

theorem formItems_ofJsonItems (r : NotJson) : (items : List Json) → ∀ {depth},
    Json.WithinItems (fun _ => True) (fun _ => True) depth items →
    formItems r depth (ofJsonItems items) = .ok items
  | [], _, _ => by rw [ofJsonItems, formItems]
  | v :: rest, _, h => by
    rw [ofJsonItems, formItems, form_ofJson r v h.1, formItems_ofJsonItems r rest h.2]
    rfl

theorem formFields_ofJsonFields (r : NotJson) : (fields : List (Text × Json)) → ∀ {depth},
    Json.WithinFields (fun _ => True) (fun _ => True) depth fields →
    formFields r depth (ofJsonFields fields) = .ok fields
  | [], _, _ => by rw [ofJsonFields, formFields]
  | (_, v) :: rest, _, h => by
    rw [ofJsonFields, formFields, form_ofJson r v h.1, formFields_ofJsonFields r rest h.2]
    rfl

end

mutual

/-- A value that is found to be JSON is that JSON, and lies at most `depth` deep. -/
theorem form_eq_ok : (v : Value) → ∀ {depth j}, form r depth v = .ok j →
    v = ofJson j ∧ j.Shaped depth
  | .null, _, _, h => by rw [form] at h; cases h; exact ⟨rfl, trivial⟩
  | .bool _, _, _, h => by rw [form] at h; cases h; exact ⟨rfl, trivial⟩
  | .int _, _, _, h => by rw [form] at h; cases h; exact ⟨rfl, trivial⟩
  | .float _, _, _, h => by rw [form] at h; cases h; exact ⟨rfl, trivial⟩
  | .str _, _, _, h => by rw [form] at h; cases h; exact ⟨rfl, trivial⟩
  | .list items, 0, _, h => by cases h
  | .list items, depth + 1, _, h => by
    obtain ⟨js, hjs, h⟩ := bind_ok_iff.mp h
    cases h
    obtain ⟨rfl, hshape⟩ := formItems_eq_ok items hjs
    exact ⟨rfl, Nat.succ_pos depth, hshape⟩
  | .map entries, 0, _, h => by cases h
  | .map entries, depth + 1, _, h => by
    obtain ⟨fields, hfields, h⟩ := bind_ok_iff.mp h
    cases h
    obtain ⟨rfl, hshape⟩ := formFields_eq_ok entries hfields
    exact ⟨rfl, Nat.succ_pos depth, hshape⟩
  | .bytes _, _, _, h | .tuple _, _, _, h | .set _, _, _, h | .parsed _, _, _, h
  | .object _, _, _, h => by simp only [form, reduceCtorEq] at h

theorem formItems_eq_ok : (items : List Value) → ∀ {depth js},
    formItems r depth items = .ok js → items = ofJsonItems js ∧
      Json.WithinItems (fun _ => True) (fun _ => True) depth js
  | [], _, _, h => by cases h; exact ⟨rfl, trivial⟩
  | v :: rest, _, _, h => by
    obtain ⟨j, hj, h⟩ := bind_ok_iff.mp h
    obtain ⟨js, hjs, h⟩ := bind_ok_iff.mp h
    cases h
    obtain ⟨rfl, hv⟩ := form_eq_ok v hj
    obtain ⟨rfl, hrest⟩ := formItems_eq_ok rest hjs
    exact ⟨rfl, hv, hrest⟩

theorem formFields_eq_ok : (entries : List (Value × Value)) → ∀ {depth fields},
    formFields r depth entries = .ok fields → entries = ofJsonFields fields ∧
      Json.WithinFields (fun _ => True) (fun _ => True) depth fields
  | [], _, _, h => by cases h; exact ⟨rfl, trivial⟩
  | (.str k, v) :: rest, _, _, h => by
    obtain ⟨j, hj, h⟩ := bind_ok_iff.mp h
    obtain ⟨fields, hfields, h⟩ := bind_ok_iff.mp h
    cases h
    obtain ⟨rfl, hv⟩ := form_eq_ok v hj
    obtain ⟨rfl, hrest⟩ := formFields_eq_ok rest hfields
    exact ⟨rfl, hv, hrest⟩

end

/-- A value is kept if it is JSON that can be written, with the halves in its texts put together. -/
theorem keepWithin_eq_ok : v.keepWithin depth = .ok j ↔
    ∃ j', v = ofJson j' ∧ j'.Writable depth ∧ j = j'.joined := by
  unfold keepWithin
  rw [bind_ok_iff]
  constructor
  · rintro ⟨j', hform, h⟩
    obtain ⟨rfl, hshape⟩ := form_eq_ok v hform
    split at h
    · cases h
    · next hflaw =>
      cases h
      exact ⟨j', rfl, ⟨hflaw, hshape⟩, rfl⟩
  · rintro ⟨j', rfl, ⟨hflaw, hshape⟩, rfl⟩
    refine ⟨j', form_ofJson _ j' hshape, ?_⟩
    rw [hflaw]

theorem keep_eq_ok (h : v.keep = .ok j) :
    ∃ j', v = ofJson j' ∧ j'.Writable maxDepth ∧ j = j'.joined :=
  keepWithin_eq_ok.mp h

theorem keep_ofJson (h : j.Writable maxDepth) : (ofJson j).keep = .ok j.joined :=
  keepWithin_eq_ok.mpr ⟨j, rfl, h, rfl⟩

/-- A list is kept if its items are, which may lie less deep by one. -/
theorem keepWithin_list {α : Type} {f : α → Value} {k : α → Json} {l : List α}
    (h : ∀ a ∈ l, (f a).keepWithin depth = .ok (k a)) :
    (list (l.map f)).keepWithin (depth + 1) = .ok (.arr (l.map k)) := by
  have hitems : ∃ js, l.map f = ofJsonItems js ∧ (Json.arr js).Writable (depth + 1) ∧
      l.map k = Json.joinedItems js := by
    induction l with
    | nil => exact ⟨[], rfl, ⟨rfl, Nat.succ_pos depth, trivial⟩, rfl⟩
    | cons a rest ih =>
      obtain ⟨ha, hrest⟩ := List.forall_mem_cons.mp h
      obtain ⟨js, hf, hwritable, hk⟩ := ih hrest
      obtain ⟨j, hj, hjw, hjk⟩ := keepWithin_eq_ok.mp ha
      refine ⟨j :: js, ?_, ⟨Option.or_eq_none_iff.mpr ⟨hjw.1, hwritable.1⟩, Nat.succ_pos depth,
        hjw.2, hwritable.2.2⟩, ?_⟩
      · rw [List.map_cons, hj, hf, ofJsonItems]
      · rw [List.map_cons, hjk, hk, Json.joinedItems]
  obtain ⟨js, hf, hwritable, hk⟩ := hitems
  rw [hf, hk]
  exact keepWithin_eq_ok.mpr ⟨.arr js, rfl, hwritable, rfl⟩

/-- A value that is kept by a look so deep is kept by a deeper one. -/
theorem keepWithin_mono {m : Nat} (h : v.keepWithin m = .ok j) (hd : m ≤ depth) :
    v.keepWithin depth = .ok j := by
  obtain ⟨j', rfl, hw, rfl⟩ := keepWithin_eq_ok.mp h
  exact keepWithin_eq_ok.mpr ⟨j', rfl, ⟨hw.1, hw.2.mono hd⟩, rfl⟩

/-- The kept form of a value is a value that can be kept, and lies no deeper. -/
theorem kept_of_keepWithin (h : v.keepWithin depth = .ok j) : j.Kept ∧ j.Shaped depth := by
  obtain ⟨j', -, hw, rfl⟩ := keepWithin_eq_ok.mp h
  exact ⟨Json.kept_joined hw.1, hw.2.joined⟩

theorem kept_of_keep (h : v.keep = .ok j) : j.Kept := (kept_of_keepWithin h).1

/-- What a slot holds can be kept as what was built. -/
theorem keepBuilt_of_stored (h : j.Stored) : (ofJson j).keepBuilt = .ok j.joined :=
  keepWithin_eq_ok.mpr ⟨j, rfl, ⟨h.1.1, h.2⟩, rfl⟩

theorem stored_of_keep (h : v.keep = .ok j) : j.Stored :=
  ⟨kept_of_keep h, (kept_of_keepWithin h).2.mono (Nat.le_succ _)⟩

/-- The kept form of a map is an object. -/
theorem keep_map {entries : List (Value × Value)} (h : (map entries).keep = .ok j) :
    ∃ fields, j = .obj fields := by
  obtain ⟨j', hj, -, rfl⟩ := keep_eq_ok h
  cases j' with
  | obj fields => exact ⟨_, rfl⟩
  | _ => cases hj

end Value

end RoutePlugins
