/-!
# Insertion-ordered maps

A map as the list of its entries in the order in which their keys first came. Writing to a key that
is present replaces its value and keeps its place.
-/

namespace RoutePlugins.Assoc

variable {κ ν : Type} [BEq κ]

/-- The value of a key. -/
def get? (key : κ) : List (κ × ν) → Option ν
  | [] => none
  | (k, v) :: rest => if k == key then some v else get? key rest

/-- Whether a key is present. -/
def contains (key : κ) (m : List (κ × ν)) : Bool := (get? key m).isSome

/-- Set the value of a key. -/
def insert (key : κ) (value : ν) : List (κ × ν) → List (κ × ν)
  | [] => [(key, value)]
  | (k, v) :: rest => if k == key then (k, value) :: rest else (k, v) :: insert key value rest

/-- Set every entry of `new` in turn. -/
def update (m new : List (κ × ν)) : List (κ × ν) :=
  new.foldl (fun m e => insert e.1 e.2 m) m

/-- The map that a list of entries writes: the first place of a key, its last value. -/
def ofList (entries : List (κ × ν)) : List (κ × ν) := update [] entries

/-- The keys in their order. -/
def keys (m : List (κ × ν)) : List κ := m.map Prod.fst

variable [LawfulBEq κ]

/-- A key that was just set has the new value. -/
@[simp] theorem get?_insert_self (key : κ) (value : ν) (m : List (κ × ν)) :
    get? key (insert key value m) = some value := by
  induction m with
  | nil => simp [insert, get?]
  | cons e rest ih =>
    obtain ⟨k, v⟩ := e
    by_cases h : (k == key) = true
    · simp [insert, get?, h]
    · simp [insert, get?, h, ih]

/-- Setting a key leaves the other keys alone. -/
theorem get?_insert_of_ne {key other : κ} (h : other ≠ key) (value : ν) (m : List (κ × ν)) :
    get? other (insert key value m) = get? other m := by
  induction m with
  | nil => simp [insert, get?, Ne.symm h]
  | cons e rest ih =>
    obtain ⟨k, v⟩ := e
    by_cases hk : k = key
    · subst hk
      simp [insert, get?, Ne.symm h]
    · have hb : (k == key) = false := beq_false_of_ne hk
      by_cases ho : k = other
      · subst ho
        simp [insert, get?, hb]
      · simp [insert, get?, hb, beq_false_of_ne ho, ih]

end RoutePlugins.Assoc
