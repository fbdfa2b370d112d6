import Mathlib.Data.List.Induction
import Mathlib.Data.List.Nodup
import RoutePlugins.Assoc

/-!
# Laws of insertion-ordered maps

A map is read through `get?`. Each operation has one equation for what is read after it, and one for
the keys it leaves. In a map whose keys are distinct, the entries are what is read.
-/

namespace RoutePlugins.Assoc

open List

variable {κ ν μ : Type} [BEq κ] [LawfulBEq κ] {key other : κ} {value : ν} {m new : List (κ × ν)}
  {e : κ × ν}

/-- What is read after one key was set. -/
theorem get?_insert [DecidableEq κ] (key other : κ) (value : ν) (m : List (κ × ν)) :
    get? other (insert key value m) = if other = key then some value else get? other m := by
  split
  · next h =>
    subst h
    exact get?_insert_self other value m
  · next h => exact get?_insert_of_ne h value m

/-- A value that is read stands in an entry. -/
theorem mem_of_get? (h : get? key m = some value) : (key, value) ∈ m := by
  induction m with
  | nil => simp [get?] at h
  | cons e rest ih =>
    obtain ⟨k, v⟩ := e
    simp only [get?] at h
    split at h
    · next hk =>
      have hk := eq_of_beq hk
      cases h
      simp [hk]
    · exact mem_cons_of_mem _ (ih h)

/-- Nothing is read at exactly the keys that are missing. -/
theorem get?_eq_none_iff : get? key m = none ↔ key ∉ keys m := by
  induction m with
  | nil => simp [get?, keys]
  | cons e rest ih =>
    obtain ⟨k, v⟩ := e
    simp only [get?, keys, map_cons, mem_cons, not_or] at ih ⊢
    by_cases hk : k = key
    · subst hk
      simp
    · rw [if_neg (by simpa using hk), ih]
      simp [Ne.symm hk]

/-- Something is read at exactly the keys that are there. -/
theorem exists_get?_iff : (∃ value, get? key m = some value) ↔ key ∈ keys m := by
  rw [← Option.isSome_iff_exists, Option.isSome_iff_ne_none, Ne, get?_eq_none_iff, not_not]

/-- Setting a key that is missing puts it at the end. -/
theorem keys_insert (key : κ) (value : ν) (m : List (κ × ν)) :
    keys (insert key value m) = if contains key m then keys m else keys m ++ [key] := by
  induction m with
  | nil => simp [insert, keys, contains, get?]
  | cons e rest ih =>
    obtain ⟨k, v⟩ := e
    by_cases hk : k = key
    · subst hk
      simp [insert, keys, contains, get?]
    · have hb : (k == key) = false := beq_false_of_ne hk
      simp only [keys, contains] at ih
      simp only [insert, keys, contains, get?, hb, Bool.false_eq_true, if_false, map_cons, ih]
      by_cases hr : (get? key rest).isSome
      · simp [hr]
      · simp [hr]

/-- A key that is missing is set at the end. -/
theorem insert_of_notMem (h : key ∉ keys m) (value : ν) :
    insert key value m = m ++ [(key, value)] := by
  induction m with
  | nil => rfl
  | cons e rest ih =>
    obtain ⟨k, v⟩ := e
    rw [keys, map_cons, mem_cons, not_or] at h
    rw [insert, if_neg (by simpa using Ne.symm h.1), ih h.2, cons_append]

/-- Where only some keys are kept, these are read as before, and nothing is read at others. -/
theorem get?_filter (keep : κ → Bool) (key : κ) (m : List (κ × ν)) :
    get? key (m.filter fun e => keep e.1) = if keep key then get? key m else none := by
  induction m with
  | nil => simp [get?]
  | cons e rest ih =>
    obtain ⟨k, v⟩ := e
    by_cases hk : k = key
    · subst hk
      cases hkeep : keep k with
      | true => simp [hkeep, get?]
      | false => simp [hkeep, ih]
    · cases hkeep : keep k with
      | true => simp [hkeep, get?, hk, ih]
      | false => simp [hkeep, get?, hk, ih]

/-- Nothing is read at a key whose entries were removed, and all else is read as before. -/
theorem get?_filter_ne [DecidableEq κ] (key other : κ) (m : List (κ × ν)) :
    get? key (m.filter (·.1 != other)) = if key = other then none else get? key m := by
  rw [get?_filter (fun k => k != other)]
  by_cases hk : key = other
  · simp [hk]
  · simp [hk]

/-- Setting a key changes no entry of another key. -/
theorem filter_ne_insert (key : κ) (value : ν) (m : List (κ × ν)) :
    (insert key value m).filter (·.1 != key) = m.filter (·.1 != key) := by
  induction m with
  | nil => simp [insert]
  | cons e rest ih =>
    obtain ⟨k, v⟩ := e
    by_cases hk : k = key
    · subst hk
      simp [insert]
    · rw [insert, if_neg (by simpa using hk), filter_cons_of_pos (by simpa using hk),
        filter_cons_of_pos (by simpa using hk), ih]

/-- The keys after one was set are the keys before and that one. -/
theorem mem_keys_insert : other ∈ keys (insert key value m) ↔ other = key ∨ other ∈ keys m := by
  rw [keys_insert]
  split
  · next h =>
    have hk : key ∈ keys m := exists_get?_iff.mp (Option.isSome_iff_exists.mp h)
    constructor
    · exact .inr
    · rintro (rfl | h)
      · exact hk
      · exact h
  · rw [mem_append, mem_singleton, or_comm]

/-- Setting a key keeps the keys distinct. -/
theorem nodup_keys_insert (h : (keys m).Nodup) : (keys (insert key value m)).Nodup := by
  rw [keys_insert]
  split
  · exact h
  · next hc =>
    have hk : key ∉ keys m := by
      rw [← get?_eq_none_iff]
      simpa [contains] using hc
    exact nodup_append.mpr ⟨h, by simp, fun a ha b hb => by
      rw [mem_singleton.mp hb]
      rintro rfl
      exact hk ha⟩

/-- An entry after one key was set is the new one or an old one. -/
theorem mem_insert (h : e ∈ insert key value m) : e = (key, value) ∨ e ∈ m := by
  induction m with
  | nil => simpa [insert] using h
  | cons f rest ih =>
    obtain ⟨k, v⟩ := f
    simp only [insert] at h
    split at h
    · next hk =>
      have hk := eq_of_beq hk
      rcases mem_cons.mp h with h | h
      · exact .inl (by rw [h, hk])
      · exact .inr (mem_cons_of_mem _ h)
    · rcases mem_cons.mp h with h | h
      · exact .inr (by simp [h])
      · rcases ih h with h | h
        · exact .inl h
        · exact .inr (mem_cons_of_mem _ h)

/-- Updating keeps the keys distinct. -/
theorem nodup_keys_update (new : List (κ × ν)) (h : (keys m).Nodup) :
    (keys (update m new)).Nodup := by
  induction new generalizing m with
  | nil => exact h
  | cons e rest ih => exact ih (nodup_keys_insert h)

/-- An entry after an update is a new one or an old one. -/
theorem mem_update (h : e ∈ update m new) : e ∈ new ∨ e ∈ m := by
  induction new generalizing m with
  | nil => exact .inr h
  | cons f rest ih =>
    rcases ih h with h | h
    · exact .inl (mem_cons_of_mem _ h)
    · rcases mem_insert h with h | h
      · exact .inl (by simp [h])
      · exact .inr h

/-- In a map with distinct keys, every entry is read. -/
theorem get?_of_mem (hm : (keys m).Nodup) (h : (key, value) ∈ m) : get? key m = some value := by
  induction m with
  | nil => simp at h
  | cons e rest ih =>
    obtain ⟨k, v⟩ := e
    simp only [keys, map_cons, nodup_cons] at hm ih
    rcases mem_cons.mp h with h | h
    · cases h
      simp [get?]
    · have hk : k ≠ key := by
        rintro rfl
        exact hm.1 (mem_map.mpr ⟨_, h, rfl⟩)
      simp [get?, beq_false_of_ne hk, ih hm.2 h]

/-- The entry of a key is found by what holds of that key alone. -/
theorem find?_of_get? {P : κ → Bool} (h : get? key m = some value)
    (hP : ∀ k ∈ keys m, P k = true ↔ k = key) : m.find? (fun e => P e.1) = some (key, value) := by
  induction m with
  | nil => cases h
  | cons e rest ih =>
    obtain ⟨k, v⟩ := e
    have hk := hP k (by simp [keys])
    by_cases hkey : k = key
    · subst hkey
      simp only [get?, beq_self_eq_true, if_true, Option.some.injEq] at h
      simp [hk.mpr rfl, h]
    · simp only [get?, beq_false_of_ne hkey, Bool.false_eq_true, if_false] at h
      have hp : P k = false := by simpa using fun hp => hkey (hk.mp hp)
      rw [List.find?_cons, hp]
      exact ih h fun k' hk' => hP k' (mem_cons_of_mem _ hk')

/-- Changing values by their keys changes what is read in the same way. -/
theorem get?_mapValues (f : κ → ν → μ) (key : κ) (m : List (κ × ν)) :
    get? key (m.map fun e => (e.1, f e.1 e.2)) = (get? key m).map (f key) := by
  induction m with
  | nil => rfl
  | cons e rest ih =>
    obtain ⟨k, v⟩ := e
    simp only [map_cons, get?]
    split
    · next hk =>
      have hk := eq_of_beq hk
      simp [hk]
    · exact ih

/-- Changing values by their keys after setting a key is setting it to the changed value. -/
theorem insert_mapValues (f : κ → ν → μ) (key : κ) (value : ν) (m : List (κ × ν)) :
    (insert key value m).map (fun e => (e.1, f e.1 e.2)) =
      insert key (f key value) (m.map fun e => (e.1, f e.1 e.2)) := by
  induction m with
  | nil => rfl
  | cons e rest ih =>
    obtain ⟨k, v⟩ := e
    simp only [map_cons, insert]
    split
    · next hk =>
      have hk := eq_of_beq hk
      simp [hk]
    · simp [ih]

omit [LawfulBEq κ] in
/-- Updating twice is updating with both in turn. -/
theorem update_append (m first second : List (κ × ν)) :
    update m (first ++ second) = update (update m first) second := foldl_append

/-- Changing values after an update is updating with the changed values. -/
theorem update_mapValues (f : κ → ν → μ) (m new : List (κ × ν)) :
    (update m new).map (fun e => (e.1, f e.1 e.2)) =
      update (m.map fun e => (e.1, f e.1 e.2)) (new.map fun e => (e.1, f e.1 e.2)) := by
  induction new generalizing m with
  | nil => rfl
  | cons e rest ih =>
    change (update (insert e.1 e.2 m) rest).map _ = _
    rw [ih, insert_mapValues]
    rfl

/-! ### Updating with a map -/

/-- Of two values set for a key, the later one stays. -/
theorem insert_insert_self (key : κ) (old new : ν) (m : List (κ × ν)) :
    insert key new (insert key old m) = insert key new m := by
  induction m with
  | nil => simp [insert]
  | cons e rest ih =>
    obtain ⟨k, v⟩ := e
    by_cases hk : k = key
    · simp [insert, hk]
    · simp [insert, beq_false_of_ne hk, ih]

/-- A key that is there may be set before or after another. -/
theorem insert_comm (hne : key ≠ other) (x y : ν) (h : key ∈ keys m) :
    insert key x (insert other y m) = insert other y (insert key x m) := by
  induction m with
  | nil => simp [keys] at h
  | cons e rest ih =>
    obtain ⟨k, v⟩ := e
    by_cases hk : k = key
    · subst hk
      simp [insert, beq_false_of_ne hne]
    · have hrest : key ∈ keys rest := by
        simpa [keys, Ne.symm hk] using h
      by_cases ho : k = other
      · subst ho
        simp [insert, beq_false_of_ne hk]
      · simp [insert, beq_false_of_ne hk, beq_false_of_ne ho, ih hrest]

/-- A key that is there, and that an update does not set, may be set before the update. -/
theorem insert_update (x : ν) (h : key ∈ keys m) (hn : key ∉ keys new) :
    insert key x (update m new) = update (insert key x m) new := by
  induction new generalizing m with
  | nil => rfl
  | cons e rest ih =>
    obtain ⟨k, v⟩ := e
    simp only [keys, map_cons, mem_cons, not_or] at hn
    change insert key x (update (insert k v m) rest) = update (insert k v (insert key x m)) rest
    rw [ih (mem_keys_insert.mpr (.inr h)) hn.2, insert_comm hn.1 x v h]

/-- Setting a key of a map before an update with that map is setting it after. -/
theorem update_insert (key : κ) (x : ν) (m : List (κ × ν)) (hn : (keys new).Nodup) :
    update m (insert key x new) = insert key x (update m new) := by
  induction new generalizing m with
  | nil => rfl
  | cons e rest ih =>
    obtain ⟨k, v⟩ := e
    simp only [keys, map_cons, nodup_cons] at hn
    by_cases hk : k = key
    · subst hk
      have hi : insert k x ((k, v) :: rest) = (k, x) :: rest := by simp [insert]
      rw [hi]
      change update (insert k x m) rest = insert k x (update (insert k v m) rest)
      rw [insert_update x (mem_keys_insert.mpr (.inl rfl)) hn.1, insert_insert_self]
    · have hi : insert key x ((k, v) :: rest) = (k, v) :: insert key x rest := by
        simp [insert, beq_false_of_ne hk]
      rw [hi]
      exact ih (insert k v m) hn.2

/-- Updating with the map that entries write is updating with the entries. -/
theorem nodup_keys_ofList (m : List (κ × ν)) : (keys (ofList m)).Nodup :=
  nodup_keys_update m (by simp [keys])

theorem mem_of_mem_ofList (h : e ∈ ofList m) : e ∈ m := by
  rcases mem_update h with h | h
  · exact h
  · cases h

theorem update_ofList (m entries : List (κ × ν)) :
    update m (ofList entries) = update m entries := by
  induction entries using List.reverseRecOn with
  | nil => rfl
  | append_singleton entries e ih =>
    have hnodup := nodup_keys_ofList entries
    rw [ofList, update_append, update_append]
    change update m (insert e.1 e.2 (ofList entries)) = insert e.1 e.2 (update m entries)
    rw [update_insert e.1 e.2 m hnodup, ih]

/-- A map with distinct keys is the one that its entries write. -/
theorem ofList_of_nodup (h : (keys m).Nodup) : ofList m = m := by
  induction m using List.reverseRecOn with
  | nil => rfl
  | append_singleton entries e ih =>
    rw [keys, map_append, map_singleton] at h
    obtain ⟨hfront, -, hapart⟩ := nodup_append.mp h
    have hnew : e.1 ∉ keys entries := fun he => hapart _ he _ (by simp) rfl
    rw [ofList, update_append]
    change insert e.1 e.2 (ofList entries) = _
    rw [ih hfront, insert_of_notMem hnew]

end RoutePlugins.Assoc
