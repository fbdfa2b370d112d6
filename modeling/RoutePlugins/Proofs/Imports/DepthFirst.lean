import Mathlib.Data.Set.Insert
import Mathlib.Logic.Relation
import Mathlib.Tactic.Tauto

/-!
# Depth-first search

The recursive search that visits a node, then what is below it, child by child, and skips what was
visited before. A node whose children cannot be told ends the search. A loop over a stack of nodes,
from which visited ones are left out when they are pushed and again when they are popped, makes the
same search: `DepthFirst.step` is one turn of it.
-/

namespace RoutePlugins

variable {α ε : Type}

/-- What a search gives that has seen some nodes and has others to do: the new nodes in the order of
their visits, or the fault of the first node whose children cannot be told. -/
inductive DepthFirst (next : α → Except ε (List α)) : Set α → List α → Except ε (List α) → Prop
  | done (seen : Set α) : DepthFirst next seen [] (.ok [])
  | skip {seen : Set α} {v : α} {rest : List α} {r : Except ε (List α)} :
      v ∈ seen → DepthFirst next seen rest r → DepthFirst next seen (v :: rest) r
  | fail {seen : Set α} {v : α} {rest : List α} {e : ε} :
      v ∉ seen → next v = .error e → DepthFirst next seen (v :: rest) (.error e)
  | failBelow {seen : Set α} {v : α} {rest children : List α} {e : ε} :
      v ∉ seen → next v = .ok children → DepthFirst next (insert v seen) children (.error e) →
      DepthFirst next seen (v :: rest) (.error e)
  | visit {seen : Set α} {v : α} {rest children below : List α} {r : Except ε (List α)} :
      v ∉ seen → next v = .ok children → DepthFirst next (insert v seen) children (.ok below) →
      DepthFirst next (insert v seen ∪ {u | u ∈ below}) rest r →
      DepthFirst next seen (v :: rest) (r.map (v :: below ++ ·))

/-- There is an edge from a node to each of its children. -/
def Follows (next : α → Except ε (List α)) (u v : α) : Prop :=
  ∃ children, next u = .ok children ∧ v ∈ children

/-- A node is reached from another along edges. -/
def Reaches (next : α → Except ε (List α)) : α → α → Prop := Relation.ReflTransGen (Follows next)

namespace DepthFirst

variable {next : α → Except ε (List α)} {seen : Set α} {todo rest files : List α}
  {r r' : Except ε (List α)}

theorem map_eq_ok_iff {f : List α → List α} :
    r.map f = .ok files ↔ ∃ l, r = .ok l ∧ f l = files := by
  cases r with
  | ok l => simp [Except.map]
  | error e => simp [Except.map]

theorem map_eq_error_iff {f : List α → List α} {e : ε} : r.map f = .error e ↔ r = .error e := by
  cases r with
  | ok l => simp [Except.map]
  | error e => simp [Except.map]

/-- A search has one outcome. -/
theorem unique (h : DepthFirst next seen todo r) (h' : DepthFirst next seen todo r') : r = r' := by
  induction h generalizing r' with
  | done seen =>
    cases h'
    rfl
  | skip hv _ ih =>
    cases h' with
    | skip _ h' => exact ih h'
    | fail hn => exact absurd hv hn
    | failBelow hn => exact absurd hv hn
    | visit hn => exact absurd hv hn
  | fail hn he =>
    cases h' with
    | skip hv => exact absurd hv hn
    | fail _ he' => exact congrArg _ (Except.error.inj (he.symm.trans he'))
    | failBelow _ hc => cases he.symm.trans hc
    | visit _ hc => cases he.symm.trans hc
  | failBelow hn hc _ ih =>
    cases h' with
    | skip hv => exact absurd hv hn
    | fail _ he => cases hc.symm.trans he
    | failBelow _ hc' h' =>
      cases hc.symm.trans hc'
      exact ih h'
    | visit _ hc' h' =>
      cases hc.symm.trans hc'
      cases ih h'
  | visit hn hc _ _ ih ih' =>
    cases h' with
    | skip hv => exact absurd hv hn
    | fail _ he => cases hc.symm.trans he
    | failBelow _ hc' h' =>
      cases hc.symm.trans hc'
      cases ih h'
    | visit _ hc' h1 h2 =>
      cases hc.symm.trans hc'
      cases ih h1
      rw [ih' h2]

/-! ### The nodes that are found -/

/-- Every node is visited once, and no node that was seen before. -/
theorem nodup (h : DepthFirst next seen todo (.ok files)) :
    files.Nodup ∧ ∀ v ∈ files, v ∉ seen := by
  generalize hr : Except.ok files = r at h
  induction h generalizing files with
  | done seen =>
    cases hr
    simp
  | skip _ _ ih => exact ih hr
  | fail => cases hr
  | failBelow => cases hr
  | @visit seen v rest children below r hn _ _ _ ih ih' =>
    obtain ⟨after, rfl, rfl⟩ := map_eq_ok_iff.mp hr.symm
    obtain ⟨hb, hbseen⟩ := ih rfl
    obtain ⟨ha, haseen⟩ := ih' rfl
    have hv : v ∉ below := fun hm => hbseen v hm (Set.mem_insert v seen)
    have hv' : v ∉ after := fun hm => haseen v hm (.inl (Set.mem_insert v seen))
    have hd : ∀ u ∈ below, ∀ w ∈ after, u ≠ w := by
      rintro u hu _ hw rfl
      exact haseen u hw (.inr hu)
    constructor
    · rw [List.cons_append, List.nodup_cons, List.nodup_append, List.mem_append, not_or]
      exact ⟨⟨hv, hv'⟩, hb, ha, hd⟩
    · intro u hu
      rw [List.cons_append, List.mem_cons, List.mem_append] at hu
      rcases hu with rfl | hu | hu
      · exact hn
      · exact fun hs => hbseen u hu (.inr hs)
      · exact fun hs => haseen u hu (.inl (.inr hs))

/-- Every node to do is found, if it was not seen before. -/
theorem covers (h : DepthFirst next seen todo (.ok files)) :
    ∀ v ∈ todo, v ∈ seen ∨ v ∈ files := by
  generalize hr : Except.ok files = r at h
  induction h generalizing files with
  | done seen => simp
  | skip hv _ ih =>
    intro u hu
    rcases List.mem_cons.mp hu with rfl | hu
    · exact .inl hv
    · exact ih hr u hu
  | fail => cases hr
  | failBelow => cases hr
  | @visit seen v rest children below r _ _ _ _ _ ih' =>
    obtain ⟨after, rfl, rfl⟩ := map_eq_ok_iff.mp hr.symm
    intro u hu
    rw [List.cons_append, List.mem_cons, List.mem_append]
    rcases List.mem_cons.mp hu with rfl | hu
    · exact .inr (.inl rfl)
    · rcases ih' rfl u hu with ((rfl | hs) | hs) | hs
      · exact .inr (.inl rfl)
      · exact .inl hs
      · exact .inr (.inr (.inl hs))
      · exact .inr (.inr (.inr hs))

/-- The children of a node that is found are found, if they were not seen before. -/
theorem closed (h : DepthFirst next seen todo (.ok files)) :
    ∀ u ∈ files, ∃ children, next u = .ok children ∧ ∀ v ∈ children, v ∈ seen ∨ v ∈ files := by
  generalize hr : Except.ok files = r at h
  induction h generalizing files with
  | done seen =>
    cases hr
    simp
  | skip _ _ ih => exact ih hr
  | fail => cases hr
  | failBelow => cases hr
  | @visit seen v rest children below r _ hc hbelow _ ih ih' =>
    obtain ⟨after, rfl, rfl⟩ := map_eq_ok_iff.mp hr.symm
    have hlift : ∀ w, w ∈ insert v seen ∨ w ∈ below →
        w ∈ seen ∨ w ∈ v :: below ++ after := by
      rintro w ((rfl | hw) | hw)
      · simp
      · exact .inl hw
      · simp [hw]
    intro u hu
    rw [List.cons_append, List.mem_cons, List.mem_append] at hu
    rcases hu with rfl | hu | hu
    · exact ⟨children, hc, fun w hw => hlift w (hbelow.covers w hw)⟩
    · obtain ⟨children', hc', hw⟩ := ih rfl u hu
      exact ⟨children', hc', fun w hm => hlift w (hw w hm)⟩
    · obtain ⟨children', hc', hw⟩ := ih' rfl u hu
      refine ⟨children', hc', fun w hm => ?_⟩
      rcases hw w hm with hs | hs
      · exact hlift w hs
      · exact .inr (by simp [hs])

/-- Every node that is found is reached from one that was to do. -/
theorem reached (h : DepthFirst next seen todo (.ok files)) :
    ∀ v ∈ files, ∃ t ∈ todo, Reaches next t v := by
  generalize hr : Except.ok files = r at h
  induction h generalizing files with
  | done seen =>
    cases hr
    simp
  | skip _ _ ih =>
    intro v hv
    obtain ⟨t, ht, hp⟩ := ih hr v hv
    exact ⟨t, by simp [ht], hp⟩
  | fail => cases hr
  | failBelow => cases hr
  | @visit seen v rest children below r _ hc _ _ ih ih' =>
    obtain ⟨after, rfl, rfl⟩ := map_eq_ok_iff.mp hr.symm
    intro u hu
    rw [List.cons_append, List.mem_cons, List.mem_append] at hu
    rcases hu with rfl | hu | hu
    · exact ⟨u, by simp, .refl⟩
    · obtain ⟨t, ht, hp⟩ := ih rfl u hu
      exact ⟨v, by simp, .head ⟨children, hc, ht⟩ hp⟩
    · obtain ⟨t, ht, hp⟩ := ih' rfl u hu
      exact ⟨t, by simp [ht], hp⟩

/-- A search fails at a node that is reached. -/
theorem exists_error {e : ε} (h : DepthFirst next seen todo (.error e)) :
    ∃ t ∈ todo, ∃ u, Reaches next t u ∧ next u = .error e := by
  generalize hr : Except.error e = r at h
  induction h with
  | done seen => cases hr
  | skip _ _ ih =>
    obtain ⟨t, ht, hu⟩ := ih hr
    exact ⟨t, by simp [ht], hu⟩
  | @fail seen v rest _ _ he =>
    cases hr
    exact ⟨v, by simp, v, .refl, he⟩
  | @failBelow seen v rest children _ _ hc _ ih =>
    obtain ⟨t, ht, u, hp, hu⟩ := ih hr
    exact ⟨v, by simp, u, .head ⟨children, hc, ht⟩ hp, hu⟩
  | visit _ _ _ _ _ ih' =>
    obtain rfl := map_eq_error_iff.mp hr.symm
    obtain ⟨t, ht, hu⟩ := ih' rfl
    exact ⟨t, by simp [ht], hu⟩

/-! ### A search from one node -/

section

variable {entry : α}

/-- A search from one node finds the nodes that are reached from it. -/
theorem mem_iff (h : DepthFirst next ∅ [entry] (.ok files)) (v : α) :
    v ∈ files ↔ Reaches next entry v := by
  constructor
  · intro hv
    obtain ⟨t, ht, hp⟩ := h.reached v hv
    rwa [List.mem_singleton.mp ht] at hp
  · intro hp
    induction hp with
    | refl => exact (h.covers entry (by simp)).resolve_left (Set.notMem_empty entry)
    | @tail u v _ huv ih =>
      obtain ⟨children, hc, hw⟩ := h.closed u ih
      obtain ⟨children', hc', hv⟩ := huv
      cases hc.symm.trans hc'
      exact (hw v hv).resolve_left (Set.notMem_empty v)

/-- A search from one node begins with it. -/
theorem head? (h : DepthFirst next ∅ [entry] (.ok files)) : files.head? = some entry := by
  generalize hr : Except.ok files = r at h
  cases h with
  | skip hv => exact absurd hv (Set.notMem_empty entry)
  | fail => cases hr
  | failBelow => cases hr
  | visit =>
    obtain ⟨after, -, rfl⟩ := map_eq_ok_iff.mp hr.symm
    rfl

/-- A search succeeds exactly if the children of every node that is reached can be told. -/
theorem isOk_iff (h : DepthFirst next ∅ [entry] r) :
    (∃ files, r = .ok files) ↔ ∀ u, Reaches next entry u → ∃ children, next u = .ok children := by
  constructor
  · rintro ⟨files, rfl⟩ u hu
    obtain ⟨children, hc, -⟩ := h.closed u ((h.mem_iff u).mpr hu)
    exact ⟨children, hc⟩
  · intro hall
    cases r with
    | ok files => exact ⟨files, rfl⟩
    | error e =>
      obtain ⟨t, ht, u, hp, hu⟩ := h.exists_error
      rw [List.mem_singleton.mp ht] at hp
      obtain ⟨children, hc⟩ := hall u hp
      cases hu.symm.trans hc

end

/-! ### The loop over a stack -/

/-- A search over one list after another: over the first, and, if that succeeds, over the second. -/
def InTurn (next : α → Except ε (List α)) (seen : Set α) (a b : List α)
    (r : Except ε (List α)) : Prop :=
  (∃ e, r = .error e ∧ DepthFirst next seen a (.error e)) ∨
  ∃ below r', DepthFirst next seen a (.ok below) ∧
    DepthFirst next (seen ∪ {u | u ∈ below}) b r' ∧ r = r'.map (below ++ ·)

private theorem inTurn_nil {b : List α} (h : DepthFirst next seen b r) :
    InTurn next seen [] b r := by
  refine .inr ⟨[], r, .done seen, ?_, ?_⟩
  · have hseen : seen ∪ {u | u ∈ ([] : List α)} = seen := by simp
    rwa [hseen]
  · cases r with
    | ok l => rfl
    | error e => rfl

theorem map_map {f g : List α → List α} : (r.map f).map g = r.map (g ∘ f) := by
  cases r with
  | ok l => rfl
  | error e => rfl

theorem inTurn_of_append {a b : List α} (h : DepthFirst next seen (a ++ b) r) :
    InTurn next seen a b r := by
  induction a generalizing seen r with
  | nil => exact inTurn_nil h
  | cons v a ih =>
    cases h with
    | skip hv h =>
      rcases ih h with ⟨e, rfl, ha⟩ | ⟨below, r', ha, hb, rfl⟩
      · exact .inl ⟨e, rfl, .skip hv ha⟩
      · exact .inr ⟨below, r', .skip hv ha, hb, rfl⟩
    | fail hn he => exact .inl ⟨_, rfl, .fail hn he⟩
    | failBelow hn hc h => exact .inl ⟨_, rfl, .failBelow hn hc h⟩
    | @visit _ _ _ _ below _ hn hc h h' =>
      rcases ih h' with ⟨e, rfl, ha⟩ | ⟨after, r', ha, hb, rfl⟩
      · exact .inl ⟨e, rfl, .visit hn hc h ha⟩
      · refine .inr ⟨v :: below ++ after, r', .visit hn hc h ha, ?_, ?_⟩
        · have hseen : seen ∪ {u | u ∈ v :: below ++ after} =
              insert v seen ∪ {u | u ∈ below} ∪ {u | u ∈ after} := by
            ext u
            change u ∈ seen ∨ u ∈ v :: below ++ after ↔ ((u = v ∨ u ∈ seen) ∨ u ∈ below) ∨ u ∈ after
            rw [List.cons_append, List.mem_cons, List.mem_append]
            tauto
          rwa [hseen]
        · rw [map_map]
          congr 1
          funext l
          simp

/-- Nodes that were seen before may be left out. -/
theorem of_filter {p : α → Bool} {a b : List α} (hp : ∀ v ∈ a, p v = false → v ∈ seen)
    (h : DepthFirst next seen (a.filter p ++ b) r) : DepthFirst next seen (a ++ b) r := by
  induction a generalizing seen r with
  | nil => exact h
  | cons v a ih =>
    have hrest : ∀ u ∈ a, p u = false → u ∈ seen := fun u hu => hp u (by simp [hu])
    by_cases hv : p v = true
    · rw [List.filter_cons_of_pos hv, List.cons_append] at h
      cases h with
      | skip hs h => exact .skip hs (ih hrest h)
      | fail hn he => exact .fail hn he
      | failBelow hn hc h => exact .failBelow hn hc h
      | visit hn hc h h' =>
        exact .visit hn hc h (ih (fun u hu hu' => .inl (.inr (hrest u hu hu'))) h')
    · rw [List.filter_cons_of_neg hv] at h
      exact .skip (hp v (by simp) (by simpa using hv)) (ih hrest h)

/-- Nodes in front that were seen before may be left out. -/
theorem of_dropWhile {p : α → Bool} (hp : ∀ v, p v = true → v ∈ seen)
    (h : DepthFirst next seen (todo.dropWhile p) r) : DepthFirst next seen todo r := by
  induction todo with
  | nil => exact h
  | cons v todo ih =>
    by_cases hv : p v = true
    · rw [List.dropWhile_cons_of_pos hv] at h
      exact .skip (hp v hv) (ih h)
    · rwa [List.dropWhile_cons_of_neg hv] at h

/-- One turn of the loop: a new node is visited, and its children are put in front of the rest,
apart from some that were seen before. -/
theorem step {v : α} {children : List α} {p : α → Bool} (hn : v ∉ seen)
    (hc : next v = .ok children) (hp : ∀ u ∈ children, p u = false → u ∈ insert v seen)
    (h : DepthFirst next (insert v seen) (children.filter p ++ rest) r) :
    DepthFirst next seen (v :: rest) (r.map (v :: ·)) := by
  rcases inTurn_of_append (of_filter hp h) with ⟨e, rfl, hbelow⟩ | ⟨below, r', hbelow, hrest, rfl⟩
  · exact .failBelow hn hc hbelow
  · rw [map_map]
    exact .visit hn hc hbelow hrest

/-- A search that never puts its first node among the children of another finds the same as one that
does, for it has seen that node. -/
theorem of_next_filter [DecidableEq α] {next' : α → Except ε (List α)} {entry : α}
    (hnext : ∀ u children, next u = .ok children →
      ∃ children', next' u = .ok children' ∧ children = children'.filter fun v => v ≠ entry)
    (h : DepthFirst next seen todo (.ok files)) (hentry : entry ∈ seen ∨ todo = [entry]) :
    DepthFirst next' seen todo (.ok files) := by
  generalize hr : Except.ok files = r at h
  induction h generalizing files with
  | done seen =>
    cases hr
    exact .done seen
  | skip hv _ ih =>
    refine .skip hv (ih ?_ hr)
    rcases hentry with hentry | htodo
    · exact .inl hentry
    · cases htodo
      exact .inl hv
  | fail => cases hr
  | failBelow => cases hr
  | @visit seen v rest children below r hn hc _ _ ih ih' =>
    obtain ⟨after, rfl, rfl⟩ := map_eq_ok_iff.mp hr.symm
    have hseen : entry ∈ insert v seen := by
      rcases hentry with hentry | htodo
      · exact .inr hentry
      · cases htodo
        exact .inl rfl
    obtain ⟨children', hc', rfl⟩ := hnext v children hc
    have hbelow := ih (.inl hseen) rfl
    rw [← List.append_nil (List.filter _ _)] at hbelow
    have hbelow' := of_filter (fun u _ hu => by
      rw [show u = entry by simpa using hu]
      exact hseen) hbelow
    rw [List.append_nil] at hbelow'
    exact .visit hn hc' hbelow' (ih' (.inl (.inl hseen)) rfl)

end DepthFirst

end RoutePlugins
