import RoutePlugins.Proofs.Store.Invariant

/-!
# Failures and frames of store operations

An operation on a store that fails leaves everything as it was: the store with its name, its
registered paths and their values and its parsed files, and the shared history. The one exception is
a start with parsed files that cannot be made into a map. An operation that writes at a path leaves
what is read at every path that does not overlap it, be it inside the value of a registered path, at
one, or above several.

The frame rests on one fact about arenas: what is read at a path depends only on the slots whose
paths overlap it, so the slot of a path apart from it may be taken away.
-/

namespace RoutePlugins

namespace Arena

/-- The arena without the slot of a path. -/
def without (a : Arena) (key : AccessPath) : Arena :=
  { a with slots := a.slots.filter (·.1 != key) }

/-- What is read at a path does not depend on the slot of a path apart from it. -/
theorem read_without (a : Arena) {key path : AccessPath} (h : key.Apart path) :
    (a.without key).read path = a.read path := by
  have hfront : (fun e : AccessPath × Json => e.1 != key && e.1.isFront path) =
      fun e => e.1.isFront path := by
    funext e
    refine Bool.and_eq_right_iff_imp.mpr fun he => bne_iff_ne.mpr ?_
    rintro rfl
    exact h.1 (AccessPath.isFront_eq_true.mp he)
  have hbelow : (fun e : AccessPath × Json => e.1 != key && path.isFront e.1) =
      fun e => path.isFront e.1 := by
    funext e
    refine Bool.and_eq_right_iff_imp.mpr fun he => bne_iff_ne.mpr ?_
    rintro rfl
    exact h.2 (AccessPath.isFront_eq_true.mp he)
  have hget : Assoc.get? path (a.without key).slots = Assoc.get? path a.slots :=
    (Assoc.get?_filter_ne path key a.slots).trans (if_neg h.ne.symm)
  have hfind : ((a.without key).slots.find? fun e => e.1.isFront path) =
      a.slots.find? fun e => e.1.isFront path := by
    simp only [without, List.find?_filter, Bool.decide_and, Bool.decide_eq_true, hfront]
  have hany : ((a.without key).slots.any fun e => path.isFront e.1) =
      a.slots.any fun e => path.isFront e.1 := by
    rw [without, List.any_filter, hbelow]
  have hgather : (a.without key).gather path = a.gather path := by
    simp only [gather, without, List.filter_filter, Bool.and_comm (path.isFront _), hbelow]
  simp only [read, readSlots, hget, hfind, hany, hgather]
  rfl

end Arena

namespace Store

/-- Two open stores of one name that differ only in the slot of a path. -/
def SameApart (key : AccessPath) (s t : Store) : Prop :=
  ∃ name a b, s = .active name a ∧ t = .active name b ∧ b.without key = a.without key

variable {key : AccessPath} {s t : Store} {path : Value}

theorem SameApart.get (h : SameApart key s t)
    (hp : ∀ k, AccessPath.ofValue path = .ok k → key.Apart k) : t.get path = s.get path := by
  obtain ⟨name, a, b, rfl, rfl, hab⟩ := h
  change (AccessPath.ofValue path >>= b.read) = (AccessPath.ofValue path >>= a.read)
  cases hk : AccessPath.ofValue path with
  | error e => rfl
  | ok k =>
    change b.read k = a.read k
    rw [← Arena.read_without b (hp k hk), hab, Arena.read_without a (hp k hk)]

theorem Changed.sameApart {old new : Json} (h : s.Changed t path old new) :
    ∃ key, AccessPath.ofValue path = .ok key ∧ SameApart key s t := by
  obtain ⟨name, a, key, rfl, hk, -, -, rfl⟩ := h
  refine ⟨key, hk, name, a, _, rfl, rfl, ?_⟩
  simp only [Arena.without, Assoc.filter_ne_insert]

theorem sameApart_of_register {initial : Value} (h : s.register path initial = .ok (key, t)) :
    AccessPath.ofValue path = .ok key ∧ SameApart key s t := by
  obtain ⟨name, a, v, rfl, hk, -, -, rfl⟩ := register_eq_ok.mp h
  refine ⟨hk, name, a, _, rfl, rfl, ?_⟩
  simp [Arena.without, List.filter_append]

end Store

namespace StoreCall

/-- A call that writes changes nothing but the slot of its path. -/
theorem sameApart_of_run {src : Sources} {call : StoreCall} {path v : Value} {s t : StoreState}
    (hp : call.target? = some path) (h : call.run src s = .ok v t) :
    ∃ key, AccessPath.ofValue path = .ok key ∧ Store.SameApart key s.store t.store := by
  obtain ⟨e, he⟩ | ⟨t', halters, ⟨v', ht⟩ | ⟨e, ht, -⟩⟩ := run_cases src call s
  · cases he.symm.trans h
  rotate_left
  · cases ht.symm.trans h
  cases ht.symm.trans h
  cases halters with
  | same hnone => cases hnone.symm.trans hp
  | register hr =>
    cases hp
    exact ⟨_, Store.sameApart_of_register hr⟩
  | write hp' hw =>
    cases hp'.symm.trans hp
    obtain ⟨_, _, hc, -⟩ := hw
    exact hc.sameApart
  | _ => cases hp

theorem outcome_get (src : Sources) (path : Value) (s : StoreState) :
    outcome ((StoreCall.get path).run src s) = s.store.get path := by
  change outcome (read (·.get path) s) = _
  unfold read onStore
  rw [StoreM.read_apply]
  cases s.store.get path with
  | ok v => rfl
  | error e => rfl

end StoreCall

namespace StoreStep

/-- For every store with its history, and every operation with any paths and values: if it fails,
and is no start with parsed files that cannot be made into a map, the store and the history are
exactly what they were. If it writes at a path and succeeds, then reading any path that does not
overlap that one gives, or fails with, exactly what it did before. -/
theorem store_atomicity (s : StoreState) :
    (∀ (step : StoreStep) e t, step.operation.Maps → step.run s = .error e t → t = s) ∧
    ∀ (src : Sources) (call : StoreCall) v t p, call.target? = some p → call.run src s = .ok v t →
      ∀ q, (∀ key other, AccessPath.ofValue p = .ok key → AccessPath.ofValue q = .ok other →
          key.overlaps other = false) →
        outcome ((StoreCall.get q).run src t) = outcome ((StoreCall.get q).run src s) := by
  refine ⟨fun step e t hmaps h => ?_, fun src call v t p hp h q hq => ?_⟩
  · obtain ⟨e', he⟩ | ⟨u, -, ⟨v, hu⟩ | ⟨e', -, hno⟩⟩ :=
      StoreCall.run_cases step.src step.operation s
    · cases he.symm.trans h
      rfl
    · cases hu.symm.trans h
    · exact absurd hmaps hno
  · obtain ⟨key, hkey, hsame⟩ := StoreCall.sameApart_of_run hp h
    rw [StoreCall.outcome_get, StoreCall.outcome_get]
    exact hsame.get fun other hother => AccessPath.overlaps_eq_false.mp (hq key other hkey hother)

namespace Sample

/-- A store with two paths below `a` and, beside them, a list at `b`. -/
def branching (items : List Json) : StoreState :=
  ⟨.active "s" ⟨some [], [(["a", "x"], .int 1), (["b"], .arr items), (["a", "y"], .int 2)]⟩, []⟩

/-- No files. -/
def nowhere : Sources := ⟨⟨[], []⟩, fun _ _ => default⟩

end Sample

open Sample

/-- An item is added to the list at `b`: what is gathered at `a` stays. An item cannot be added at
`a`, where nothing is registered: everything stays. -/
theorem store_atomicity_branching :
    (StoreCall.push (.str "b") .null).run nowhere (branching []) = .ok .null (branching [.null]) ∧
    outcome ((StoreCall.get (.str "a")).run nowhere (branching [.null])) =
      outcome ((StoreCall.get (.str "a")).run nowhere (branching [])) ∧
    ∃ e, (StoreCall.push (.str "a") .null).run nowhere (branching []) =
      .error e (branching []) := by
  have hpush : (StoreCall.push (.str "b") .null).run nowhere (branching []) =
      .ok .null (branching [.null]) := rfl
  refine ⟨hpush, ?_, ?_⟩
  · refine (store_atomicity (branching [])).2 nowhere _ _ _ (.str "b") rfl hpush (.str "a") ?_
    rintro key other ⟨⟩ ⟨⟩
    decide
  · cases h : (StoreCall.push (.str "a") .null).run nowhere (branching []) with
    | ok v t => cases h
    | error e t =>
      have ht := (store_atomicity (branching [])).1 (.call nowhere (.push (.str "a") .null)) e t
        trivial h
      exact ⟨e, by rw [ht]⟩

/-- A start with a number for the parsed files fails, and the values of the store are gone. -/
theorem failed_start_clears_store : ∃ e t,
    (StoreCall.start (.str "n") (.int 5)).run nowhere (branching []) = .error e t ∧
      (branching []).store.values ≠ [] ∧ t.store.values = [] ∧ t.store.name? = some "n" :=
  ⟨_, _, rfl, List.cons_ne_nil _ _, rfl, rfl⟩

end StoreStep

end RoutePlugins
