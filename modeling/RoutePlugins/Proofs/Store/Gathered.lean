import Mathlib.Data.List.Pairwise
import RoutePlugins.Proofs.Store.Steps
import RoutePlugins.Proofs.Text.Order

/-!
# Values gathered from paths

A value is grafted into nested objects at the end of a path. What is then found at a path depends
only on how it lies to the grafted one: behind it is the value, above it are objects, and apart from
it nothing has changed. So from paths that lie apart, grafting one after the other builds the object
whose leaves are their values, and no order of the paths matters.
-/

namespace RoutePlugins

namespace Json

/-- The value at the end of a chain of keys in nested objects. -/
def at? : Json → List Text → Option Json
  | v, [] => some v
  | .obj fields, key :: rest => (Assoc.get? key fields).bind (·.at? rest)
  | _, _ :: _ => none

@[simp] theorem at?_nil (v : Json) : v.at? [] = some v := by
  cases v <;> rfl

theorem at?_obj_cons (fields : List (Text × Json)) (key : Text) (rest : List Text) :
    (obj fields).at? (key :: rest) = (Assoc.get? key fields).bind (·.at? rest) := rfl

/-- A chain of keys is followed by a descent. -/
theorem descend_of_at? {v found : Json} {keys : List Text} (h : v.at? keys = some found) :
    v.descend keys = .ok found := by
  induction keys generalizing v with
  | nil =>
    rw [at?_nil] at h
    cases h
    rw [descend]
  | cons key rest ih =>
    cases v with
    | obj fields =>
      obtain ⟨inner, hinner, hrest⟩ := Option.bind_eq_some_iff.mp h
      rw [descend, hinner, Option.getD_some]
      exact ih hrest
    | _ => cases h

end Json

namespace AccessPath

theorem Apart.symm {p q : AccessPath} (h : p.Apart q) : q.Apart p := ⟨h.2, h.1⟩

instance : Std.Symm Apart := ⟨fun _ _ => Apart.symm⟩

theorem Apart.ne_nil {p q : AccessPath} (h : p.Apart q) : p ≠ [] := by
  rintro rfl
  exact h.1 List.nil_prefix

/-- Paths with a common front lie apart exactly if what follows it does. -/
theorem apart_append_iff {front p q : AccessPath} :
    Apart (front ++ p) (front ++ q) ↔ p.Apart q := by
  simp only [Apart, List.prefix_append_right_inj]

end AccessPath

namespace Arena

open AccessPath Json

/-! ### Grafting -/

/-- The fields of the object under a key; none if there is no object. -/
def innerOf (key : Text) (fields : List (Text × Json)) : List (Text × Json) :=
  match Assoc.get? key fields with
  | some (.obj inner) => inner
  | _ => []

theorem graft_cons (key : Text) {rest : List Text} (h : rest ≠ []) (v : Json)
    (fields : List (Text × Json)) :
    graft (key :: rest) v fields =
      Assoc.insert key (.obj (graft rest v (innerOf key fields))) fields := by
  cases rest with
  | nil => exact absurd rfl h
  | cons key' rest => rfl

variable {path : List Text} {entries : List (AccessPath × Json)}

/-- Behind the end of the path is the grafted value. -/
theorem at?_graft_append (h : path ≠ []) (v : Json) (fields : List (Text × Json)) (rest : List Text)
     :
    (Json.obj (graft path v fields)).at? (path ++ rest) = v.at? rest := by
  induction path generalizing fields with
  | nil => exact absurd rfl h
  | cons key path ih =>
    rw [List.cons_append, at?_obj_cons]
    by_cases hp : path = []
    · rw [hp, graft, Assoc.get?_insert_self]
      rfl
    · rw [graft_cons key hp, Assoc.get?_insert_self]
      exact ih hp _

variable {q : List Text} {fields : List (Text × Json)} {v : Json} {a : Arena}

/-- Above the end of the path are objects. -/
theorem at?_graft_above (hq : q <+: path) (hne : q ≠ path) (v : Json) (fields : List (Text × Json))
     :
    ∃ inner, (Json.obj (graft path v fields)).at? q = some (.obj inner) := by
  induction path generalizing q fields with
  | nil => exact absurd (List.prefix_nil.mp hq) hne
  | cons key path ih =>
    cases q with
    | nil => exact ⟨_, rfl⟩
    | cons k q =>
      obtain ⟨rfl, hrest⟩ := List.cons_prefix_cons.mp hq
      have hne : q ≠ path := fun h => hne (congrArg _ h)
      have hp : path ≠ [] := by
        rintro rfl
        exact hne (List.prefix_nil.mp hrest)
      obtain ⟨inner, hinner⟩ := ih hrest hne (innerOf k fields)
      refine ⟨inner, ?_⟩
      rw [graft_cons k hp, at?_obj_cons, Assoc.get?_insert_self]
      exact hinner

/-- Where there is no object under a key, nothing is found behind it, as in an empty object. -/
theorem at?_innerOf (key : Text) (fields : List (Text × Json)) (hq : q ≠ []) :
    (Json.obj (innerOf key fields)).at? q = (Json.obj fields).at? (key :: q) := by
  obtain ⟨k, rest, rfl⟩ := List.exists_cons_of_ne_nil hq
  rw [at?_obj_cons fields key, innerOf]
  cases Assoc.get? key fields with
  | none => rfl
  | some v =>
    cases v with
    | obj inner => rfl
    | _ => rfl

/-- Apart from the path nothing changes. -/
theorem at?_graft_apart (h : Apart q path) (v : Json) (fields : List (Text × Json)) :
    (Json.obj (graft path v fields)).at? q = (Json.obj fields).at? q := by
  induction path generalizing q fields with
  | nil => exact absurd List.nil_prefix h.2
  | cons key path ih =>
    obtain ⟨k, q, rfl⟩ := List.exists_cons_of_ne_nil h.ne_nil
    by_cases hk : k = key
    · subst hk
      have hrest : Apart q path := by
        simpa only [Apart, List.cons_prefix_cons, true_and] using h
      rw [graft_cons k hrest.symm.ne_nil, at?_obj_cons, Assoc.get?_insert_self]
      exact (ih hrest _).trans (at?_innerOf k fields hrest.ne_nil)
    · have hget (w : Json) : Assoc.get? k (Assoc.insert key w fields) = Assoc.get? k fields :=
        Assoc.get?_insert_of_ne hk w fields
      by_cases hp : path = []
      · rw [hp, graft, at?_obj_cons, hget, at?_obj_cons]
      · rw [graft_cons key hp, at?_obj_cons, hget, at?_obj_cons]

theorem kept_innerOf (key : Text) (h : (Json.obj fields).Kept) :
    (Json.obj (innerOf key fields)).Kept := by
  rw [innerOf]
  split
  · next inner hinner => exact (kept_obj.mp h).2 _ (Assoc.mem_of_get? hinner)
  · exact ⟨rfl, rfl⟩

theorem kept_insert {key : Text} (h : (Json.obj fields).Kept) (hv : v.Kept) :
    (Json.obj (Assoc.insert key v fields)).Kept := by
  rw [kept_obj] at h ⊢
  refine ⟨Assoc.nodup_keys_insert h.1, fun e he => ?_⟩
  obtain rfl | he := Assoc.mem_insert he
  · exact hv
  · exact h.2 e he

/-- Grafting a value that can be kept gives an object that can be kept. -/
theorem kept_graft (path : List Text) (h : (Json.obj fields).Kept) (hv : v.Kept) :
    (Json.obj (graft path v fields)).Kept := by
  induction path generalizing fields with
  | nil => exact h
  | cons key path ih =>
    by_cases hp : path = []
    · rw [hp]
      exact kept_insert h hv
    · rw [graft_cons key hp]
      exact kept_insert h (ih (kept_innerOf key h))

/-! ### Assembling -/

/-- An object made of entries: the value of an entry is found at its path, objects are found above
it, and nothing is found apart from all paths. -/
structure Assembles (entries : List (AccessPath × Json)) (d : Json) : Prop where
  leaf : ∀ e ∈ entries, d.at? e.1 = some e.2
  above : ∀ e ∈ entries, ∀ q, q <+: e.1 → q ≠ e.1 → ∃ fields, d.at? q = some (.obj fields)
  apart : ∀ q, q ≠ [] → (∀ e ∈ entries, Apart q e.1) → d.at? q = none
  kept : d.Kept

theorem assembles_nil : Assembles [] (.obj []) where
  leaf := by simp
  above := by simp
  apart := by
    intro q hq _
    obtain ⟨key, rest, rfl⟩ := List.exists_cons_of_ne_nil hq
    rfl
  kept := ⟨rfl, rfl⟩

/-- One more entry, apart from all others, is grafted. -/
theorem Assembles.graft (h : Assembles entries (.obj fields)) {path : AccessPath} (hp : path ≠ [])
    (ha : ∀ e ∈ entries, Apart e.1 path) (hv : v.Kept) :
    Assembles (entries ++ [(path, v)]) (.obj (Arena.graft path v fields)) where
  leaf e he := by
    rcases List.mem_append.mp he with he | he
    · rw [at?_graft_apart (ha e he)]
      exact h.leaf e he
    · cases List.mem_singleton.mp he
      have hbehind := at?_graft_append hp v fields []
      rwa [List.append_nil, at?_nil] at hbehind
  above e he q hq hne := by
    by_cases hqp : q <+: path
    · have hqne : q ≠ path := by
        rintro rfl
        rcases List.mem_append.mp he with he | he
        · exact (ha e he).2 hq
        · cases List.mem_singleton.mp he
          exact hne rfl
      exact at?_graft_above hqp hqne v fields
    · rcases List.mem_append.mp he with he | he
      · -- A path above another entry lies apart from this one, or that entry would be behind it.
        have hapart : Apart q path := ⟨hqp, fun hpq => (ha e he).2 (hpq.trans hq)⟩
        rw [at?_graft_apart hapart]
        exact h.above e he q hq hne
      · cases List.mem_singleton.mp he
        exact absurd hq hqp
  apart q hq hqa := by
    rw [at?_graft_apart (hqa (path, v) (by simp))]
    exact h.apart q hq fun e he => hqa e (by simp [he])
  kept := kept_graft path h.kept hv

/-- Grafting entries that lie apart, one after the other, assembles their object. -/
theorem assembles_foldl (ha : entries.Pairwise fun e f => Apart e.1 f.1)
    (hne : ∀ e ∈ entries, e.1 ≠ []) (hk : ∀ e ∈ entries, e.2.Kept) :
    Assembles entries (.obj (entries.foldl (fun fields e => Arena.graft e.1 e.2 fields) [])) := by
  induction entries using List.reverseRecOn with
  | nil => exact assembles_nil
  | append_singleton entries e ih =>
    obtain ⟨hfirst, -, hlast⟩ := List.pairwise_append.mp ha
    rw [List.foldl_append]
    exact (ih hfirst (fun f hf => hne f (by simp [hf])) fun f hf => hk f (by simp [hf])).graft
      (hne e (by simp)) (fun f hf => hlast f hf e (by simp)) (hk e (by simp))

/-! ### Gathering -/

/-- The slots below a path, in ascending order. -/
def below (a : Arena) (path : AccessPath) : List (AccessPath × Json) :=
  (a.slots.filter fun e => path.isFront e.1).mergeSort fun e f => textsLe e.1 f.1

theorem mem_below {path : AccessPath} {e : AccessPath × Json} :
    e ∈ a.below path ↔ e ∈ a.slots ∧ path <+: e.1 := by
  rw [below, List.mem_mergeSort, List.mem_filter, isFront_eq_true]

/-- The slots below a path, each with the rest of its path. -/
def rests (a : Arena) (path : AccessPath) : List (AccessPath × Json) :=
  (a.below path).map fun e => (e.1.drop path.length, e.2)

theorem gather_eq (a : Arena) (path : AccessPath) :
    a.gather path = (a.rests path).foldl (fun fields e => graft e.1 e.2 fields) [] := by
  rw [rests, List.foldl_map]
  rfl

theorem mem_rests {path rest : AccessPath} :
    (rest, v) ∈ a.rests path ↔ (path ++ rest, v) ∈ a.slots := by
  simp only [rests, List.mem_map, mem_below]
  constructor
  · rintro ⟨⟨p, w⟩, ⟨hmem, hfront⟩, heq⟩
    cases heq
    rwa [List.prefix_iff_eq_append.mp hfront]
  · intro hmem
    exact ⟨(path ++ rest, v), ⟨hmem, List.prefix_append path rest⟩, by simp⟩

/-- The order in which slots were registered does not matter to what is gathered from them. -/
theorem gather_congr {b : Arena} (ha : (Assoc.keys a.slots).Nodup) (hb : (Assoc.keys b.slots).Nodup)
    (h : ∀ e, e ∈ a.slots ↔ e ∈ b.slots) (path : AccessPath) : a.gather path = b.gather path := by
  have hperm : (a.below path).Perm (b.below path) := by
    have hslots : a.slots.Perm b.slots :=
      (List.perm_ext_iff_of_nodup ha.of_map hb.of_map).mpr h
    exact (List.mergeSort_perm _ _).trans ((hslots.filter _).trans (List.mergeSort_perm _ _).symm)
  have hsorted (c : Arena) :
      (c.below path).Pairwise fun e f => textsLe e.1 f.1 = true := by
    apply List.pairwise_mergeSort
    · exact fun _ _ _ => textsLe_trans
    · intro e f
      exact Bool.or_eq_true_iff.mpr (textsLe_total e.1 f.1)
  have hbelow : a.below path = b.below path := by
    refine hperm.eq_of_pairwise (fun e f he hf hef hfe => ?_) (hsorted a) (hsorted b)
    -- Slots with one path are one slot, since paths are distinct.
    have hkey : e.1 = f.1 := textsLe_antisymm hef hfe
    have hea := Assoc.get?_of_mem ha (mem_below.mp he).1
    have hfa := Assoc.get?_of_mem ha ((h f).mpr (mem_below.mp hf).1)
    rw [hkey, hfa] at hea
    exact Prod.ext hkey (Option.some.inj hea).symm
  rw [gather_eq, gather_eq, rests, rests, hbelow]

end Arena

end RoutePlugins
