import RoutePlugins.Proofs.Store.KeptValues
import RoutePlugins.Store.Call

/-!
# What the operations of a store do

For every operation that changes a store, when it succeeds and what it changes. Writing to a path
changes the value of one slot and nothing else; `Store.Changed` says so, and the four operations
that write differ only in how the new value comes from the old one.
-/

namespace RoutePlugins

namespace AccessPath

/-- A path that can be registered: it has segments, and none of them is empty. -/
def Proper (p : AccessPath) : Prop := p ≠ [] ∧ ∀ segment ∈ p, segment.isEmpty = false

instance (p : AccessPath) : Decidable p.Proper := inferInstanceAs (Decidable (_ ∧ _))

/-- Neither path begins with the other. -/
def Apart (p q : AccessPath) : Prop := ¬ p <+: q ∧ ¬ q <+: p

instance (p q : AccessPath) : Decidable (p.Apart q) := inferInstanceAs (Decidable (_ ∧ _))

variable {p q : AccessPath}

theorem isFront_eq_true : p.isFront q = true ↔ p <+: q :=
  List.isPrefixOf_iff_prefix

/-- Paths overlap exactly if one begins with the other. -/
theorem overlaps_eq_false : p.overlaps q = false ↔ Apart p q := by
  rw [overlaps, Bool.or_eq_false_iff, ← Bool.not_eq_true, ← Bool.not_eq_true, isFront_eq_true,
    isFront_eq_true, Apart]

theorem Apart.ne (h : Apart p q) : p ≠ q := by
  rintro rfl
  exact h.1 (List.prefix_refl p)

private theorem checkSegments_nonempty {all rest : List Value} {p : AccessPath}
    (h : checkSegments all rest = .ok p) :
    p.length = rest.length ∧ ∀ segment ∈ p, segment.isEmpty = false := by
  induction rest generalizing p with
  | nil =>
    cases h
    simp
  | cons v rest ih =>
    unfold checkSegments at h
    cases hs : segment? v with
    | none => simp [hs] at h
    | some s =>
      simp only [hs] at h
      cases hr : checkSegments all rest with
      | error e => simp [hr, Except.map] at h
      | ok q =>
        simp only [hr, Except.map, Except.ok.injEq] at h
        subst h
        obtain ⟨hl, hq⟩ := ih hr
        have he : s.isEmpty = false := by
          unfold segment? at hs
          split at hs
          · split at hs
            · cases hs
            · next he =>
              cases hs
              simpa using he
          · cases hs
        exact ⟨by simp [hl], by simpa [he] using hq⟩

/-- Whatever value a path is read from, it is a proper one. -/
theorem proper_of_ofValue {v : Value} (h : ofValue v = .ok p) : p.Proper := by
  unfold ofValue at h
  obtain ⟨segments, hs, h⟩ := bind_ok_iff.mp h
  by_cases he : segments.isEmpty = true
  · simp [he, throw, throwThe, MonadExceptOf.throw, bind, Except.bind] at h
  · simp only [he, Bool.false_eq_true, if_false] at h
    obtain ⟨hl, hp⟩ := checkSegments_nonempty h
    refine ⟨?_, hp⟩
    rintro rfl
    apply he
    simpa using hl.symm

private theorem checkSegments_str (all : List Value) (p : AccessPath)
    (hp : ∀ segment ∈ p, segment.isEmpty = false) :
    checkSegments all (p.map .str) = .ok p := by
  induction p with
  | nil => rfl
  | cons s rest ih =>
    have hs : segment? (.str s) = some s := by simp [segment?, hp s (by simp)]
    rw [List.map_cons, checkSegments, hs]
    simp [ih fun t ht => hp t (by simp [ht]), Except.map]

/-- A proper path is read back from the value that writes it. -/
theorem ofValue_toValue (hp : p.Proper) : ofValue p.toValue = .ok p := by
  have he : (p.map Value.str).isEmpty = false := by simpa using hp.1
  have hc := checkSegments_str (p.map .str) p hp.2
  simpa [ofValue, toValue, segmentsOf, Value.elements, bind, Except.bind, he] using hc

private theorem eq_of_checkSegments_str {all : List Value}
    (h : checkSegments all (p.map .str) = .ok q) : q = p := by
  induction p generalizing q with
  | nil =>
    cases h
    rfl
  | cons s rest ih =>
    rw [List.map_cons, checkSegments] at h
    by_cases hs : s.isEmpty = true
    · simp [segment?, hs] at h
    · simp only [segment?, hs, Bool.false_eq_true, if_false] at h
      cases hr : checkSegments all (rest.map .str) with
      | error e => simp [hr, Except.map] at h
      | ok r =>
        simp only [hr, Except.map, Except.ok.injEq] at h
        rw [← h, ih hr]

/-- What is read from the value that writes a path, if anything, is that path. -/
theorem eq_of_ofValue_toValue (h : ofValue p.toValue = .ok q) : q = p := by
  unfold ofValue toValue at h
  obtain ⟨segments, hs, h⟩ := bind_ok_iff.mp h
  cases hs
  by_cases he : (p.map Value.str).isEmpty = true
  · simp [he, throw, throwThe, MonadExceptOf.throw, bind, Except.bind] at h
  · simp only [he, Bool.false_eq_true, if_false] at h
    exact eq_of_checkSegments_str h

end AccessPath

namespace StoreM

variable {α : Type} {R : Store → Store → Prop}

theorem lift_of_ok {x : Except Fault α} {a : α} (h : x = .ok a) (s : Store) :
    StoreM.lift x s = .ok a s := by
  rw [h]
  rfl

theorem lift_of_error {x : Except Fault α} {e : Fault} (h : x = .error e) (s : Store) :
    StoreM.lift x s = .error e s := by
  rw [h]
  rfl

/-- Reading leaves the store alone. -/
@[simp] theorem read_apply (f : Store → Except Fault α) (s : Store) :
    StoreM.read f s = Files.lift (f s) s := rfl

/-- A change that fails leaves the store alone. -/
theorem change_apply (f : Store → Except Fault Store) (s : Store) :
    StoreM.change f s = match f s with
      | .ok t => .ok () t
      | .error e => .error e s := by
  change (StoreM.lift (f s) >>= StoreM.put) s = _
  cases f s with
  | ok t => rfl
  | error e => rfl

theorem moves_read [IsPreorder Store R] (f : Store → Except Fault α) : Moves R (StoreM.read f) :=
  Moves.get_bind fun s => Moves.lift (f s) s

/-- A change moves the store along a relation if it does so wherever it succeeds. -/
theorem moves_change [IsPreorder Store R] {f : Store → Except Fault Store}
    (h : ∀ s t, f s = .ok t → R s t) : Moves R (StoreM.change f) := by
  intro s
  rw [change_apply]
  cases hf : f s with
  | ok t => exact h s t hf
  | error e => exact refl_of R s

end StoreM

/-- A path that does not begin with that of registered parsed files is read among the slots. -/
theorem Arena.read_eq_readSlots {a : Arena} {path : AccessPath}
    (h : ∀ cache, a.cache = some cache → parsedPath.isFront path = false) :
    a.read path = a.readSlots path := by
  unfold Arena.read
  cases hc : a.cache with
  | none => rfl
  | some cache => rw [h cache hc]

namespace Store

variable {s t : Store} {v : Value} {verb : Text} {put : Json → List Json → List Json}
  {key : AccessPath}

theorem require_eq_ok {name : Text} {a : Arena} :
    s.require = .ok (name, a) ↔ s = .active name a := by
  cases s with
  | fresh => simp [require]
  | active n b => simp [require]
  | ended n => simp [require]

theorem checked_eq_ok {path : AccessPath} {j : Json} : checked path v = .ok j ↔ v.keep = .ok j := by
  unfold checked
  cases v.keep with
  | ok k => simp [Except.mapError]
  | error e => simp [Except.mapError]

/-- The store `t` is `s` with the value at a registered path changed from `old` to `new`. -/
def Changed (s t : Store) (path : Value) (old new : Json) : Prop :=
  ∃ name a key, s = .active name a ∧ AccessPath.ofValue path = .ok key ∧ key ≠ parsedPath ∧
    Assoc.get? key a.slots = some old ∧
    t = .active name { a with slots := Assoc.insert key new a.slots }

variable {path : Value} {old new : Json}

theorem slot_eq_ok {slot : Slot} :
    s.slot path = .ok slot ↔ s = .active slot.name slot.arena ∧
      AccessPath.ofValue path = .ok slot.key ∧ slot.key ≠ parsedPath ∧
      Assoc.get? slot.key slot.arena.slots = some slot.value := by
  unfold Store.slot
  rw [bind_ok_iff]
  constructor
  · rintro ⟨⟨name, a⟩, hs, h⟩
    rw [require_eq_ok] at hs
    obtain ⟨key, hk, h⟩ := bind_ok_iff.mp h
    cases hv : Assoc.get? key a.slots with
    | none => simp [hv, throw, throwThe, MonadExceptOf.throw] at h
    | some v =>
      by_cases hp : key = parsedPath
      · simp only [hv, beq_iff_eq.mpr hp, if_true] at h
        cases h
      · simp only [hv, beq_false_of_ne hp, Bool.false_eq_true, if_false, pure, Except.pure,
          Except.ok.injEq] at h
        subst h
        exact ⟨hs, hk, hp, hv⟩
  · rintro ⟨hs, hk, hp, hv⟩
    refine ⟨_, require_eq_ok.mpr hs, ?_⟩
    rw [bind_ok_iff]
    refine ⟨_, hk, ?_⟩
    simp only [hv, beq_false_of_ne hp, Bool.false_eq_true, if_false]
    rfl

/-! ### Writes -/

/-- Write to a slot what `f` gives for its path and its value. -/
def revise (s : Store) (path : Value) (f : AccessPath → Json → Except Fault Json) :
    Except Fault Store := do
  let slot ← s.slot path
  return slot.write (← f slot.key slot.value)

theorem set_eq_revise (s : Store) (path v : Value) :
    s.set path v = s.revise path fun key _ => checked key v := rfl

/-- What is added to a list in a slot, given how the list takes a new item. -/
def extended (verb : Text) (v : Value) (put : Json → List Json → List Json) (key : AccessPath) :
    Json → Except Fault Json
  | .arr items => (checked key v).map fun new => .arr (put new items)
  | _ => .error (.store (.notArray verb key))

private theorem revise_extended :
    (do
      let slot ← s.slot path
      let items ← slot.items verb
      return slot.write (.arr (put (← checked slot.key v) items))) =
        s.revise path (extended verb v put) := by
  unfold revise
  cases s.slot path with
  | error e => rfl
  | ok slot =>
    obtain ⟨name, a, key, value⟩ := slot
    change (Slot.items ⟨name, a, key, value⟩ verb >>= _) = (extended verb v put key value >>= _)
    cases value with
    | arr items =>
      change (checked key v >>= _) = ((checked key v).map _ >>= _)
      cases checked key v with
      | ok new => rfl
      | error e => rfl
    | _ => rfl

theorem push_eq_revise (s : Store) (path v : Value) :
    s.push path v = s.revise path (extended "push" v fun new items => items ++ [new]) :=
  revise_extended

theorem unshift_eq_revise (s : Store) (path v : Value) :
    s.unshift path v = s.revise path (extended "unshift" v List.cons) :=
  revise_extended

/-- The object in a slot with fields set. -/
def overlaid (v : Value) (key : AccessPath) (old : Json) : Except Fault Json :=
  match old, v with
  | .obj fields, .map entries => (checked key (.map entries)).map fun new =>
    match new with
    | .obj new => .obj (Assoc.update fields new)
    | _ => old
  | .obj _, v => .error (.store (.notMergeable v.kindName key))
  | _, _ => .error (.store (.notMap key))

theorem merge_eq_revise (s : Store) (path v : Value) :
    s.merge path v = s.revise path (overlaid v) := by
  unfold revise merge
  cases s.slot path with
  | error e => rfl
  | ok slot =>
    obtain ⟨name, a, key, value⟩ := slot
    cases value with
    | obj fields =>
      cases v with
      | map entries =>
        change (checked key (.map entries) >>= _) = ((checked key (.map entries)).map _ >>= _)
        cases hc : checked key (.map entries) with
        | error e => rfl
        | ok new =>
          obtain ⟨fields', rfl⟩ := Value.keep_map (checked_eq_ok.mp hc)
          rfl
      | _ => rfl
    | _ => rfl

/-- What a write does, in terms of the slot it goes to. -/
theorem revise_eq_ok {f : AccessPath → Json → Except Fault Json} :
    s.revise path f = .ok t ↔ ∃ key old new, AccessPath.ofValue path = .ok key ∧
      s.Changed t path old new ∧ f key old = .ok new := by
  unfold revise
  rw [bind_ok_iff]
  constructor
  · rintro ⟨slot, hs, h⟩
    obtain ⟨new, hn, h⟩ := bind_ok_iff.mp h
    cases h
    obtain ⟨hs, hk, hp, hv⟩ := slot_eq_ok.mp hs
    exact ⟨slot.key, slot.value, new, hk,
      ⟨slot.name, slot.arena, slot.key, hs, hk, hp, hv, rfl⟩, hn⟩
  · rintro ⟨key, old, new, hkey, ⟨name, a, key', hs, hk, hp, hv, rfl⟩, hn⟩
    cases hkey.symm.trans hk
    refine ⟨⟨name, a, key, old⟩, slot_eq_ok.mpr ⟨hs, hk, hp, hv⟩, ?_⟩
    exact bind_ok_iff.mpr ⟨new, hn, rfl⟩

/-- Replacing a value succeeds at a registered path, with a value that can be kept. -/
theorem set_eq_ok :
    s.set path v = .ok t ↔ ∃ old new, s.Changed t path old new ∧ v.keep = .ok new := by
  rw [set_eq_revise, revise_eq_ok]
  constructor
  · rintro ⟨key, old, new, -, hc, hn⟩
    exact ⟨old, new, hc, checked_eq_ok.mp hn⟩
  · rintro ⟨old, new, hc, hn⟩
    obtain ⟨name, a, key, -, hk, -⟩ := id hc
    exact ⟨key, old, new, hk, hc, checked_eq_ok.mpr hn⟩

theorem extended_of_error {items : List Json} {cause : NotJson} (h : v.keep = .error cause) :
    extended verb v put key (.arr items) = .error (refusal key cause) := by
  rw [extended, checked, h]
  rfl

theorem extended_eq_ok :
    extended verb v put key old = .ok new ↔ ∃ items n, old = .arr items ∧
      new = .arr (put n items) ∧ v.keep = .ok n := by
  cases old with
  | arr items =>
    unfold extended checked
    cases v.keep with
    | ok n => simp [Except.map, Except.mapError, eq_comm]
    | error e => simp [Except.map, Except.mapError]
  | _ => simp [extended]

private theorem extend_eq_ok :
    s.revise path (extended verb v put) = .ok t ↔ ∃ items new,
      s.Changed t path (.arr items) (.arr (put new items)) ∧ v.keep = .ok new := by
  rw [revise_eq_ok]
  constructor
  · rintro ⟨key, old, new, -, hc, hn⟩
    obtain ⟨items, n, rfl, rfl, hv⟩ := extended_eq_ok.mp hn
    exact ⟨items, n, hc, hv⟩
  · rintro ⟨items, new, hc, hv⟩
    obtain ⟨name, a, key, -, hk, -⟩ := id hc
    exact ⟨key, _, _, hk, hc, extended_eq_ok.mpr ⟨items, new, rfl, rfl, hv⟩⟩

/-- Adding at the end succeeds at a registered list, with a value that can be kept. -/
theorem push_eq_ok :
    s.push path v = .ok t ↔ ∃ items new,
      s.Changed t path (.arr items) (.arr (items ++ [new])) ∧ v.keep = .ok new := by
  rw [push_eq_revise]
  exact extend_eq_ok

/-- Adding at the front succeeds at a registered list, with a value that can be kept. -/
theorem unshift_eq_ok :
    s.unshift path v = .ok t ↔ ∃ items new,
      s.Changed t path (.arr items) (.arr (new :: items)) ∧ v.keep = .ok new := by
  rw [unshift_eq_revise]
  exact extend_eq_ok

theorem overlaid_eq_ok :
    overlaid v key old = .ok new ↔ ∃ entries fields n, v = .map entries ∧ old = .obj fields ∧
      new = .obj (Assoc.update fields n) ∧ v.keep = .ok (.obj n) := by
  cases old with
  | obj fields =>
    cases v with
    | map entries =>
      unfold overlaid checked
      cases hk : (Value.map entries).keep with
      | ok j =>
        obtain ⟨n, rfl⟩ := Value.keep_map hk
        simp [hk, Except.map, Except.mapError, eq_comm]
      | error e => simp [hk, Except.map, Except.mapError]
    | _ => simp [overlaid]
  | _ => simp [overlaid]

/-- Setting fields succeeds at a registered object, with a map that can be kept. -/
theorem merge_eq_ok :
    s.merge path v = .ok t ↔ ∃ entries fields new, v = .map entries ∧
      s.Changed t path (.obj fields) (.obj (Assoc.update fields new)) ∧
      v.keep = .ok (.obj new) := by
  rw [merge_eq_revise, revise_eq_ok]
  constructor
  · rintro ⟨key, old, new, -, hc, hn⟩
    obtain ⟨entries, fields, n, hv, rfl, rfl, hk⟩ := overlaid_eq_ok.mp hn
    exact ⟨entries, fields, n, hv, hc, hk⟩
  · rintro ⟨entries, fields, new, hv, hc, hn⟩
    obtain ⟨name, a, key, -, hk, -⟩ := id hc
    exact ⟨key, _, _, hk, hc, overlaid_eq_ok.mpr ⟨entries, fields, new, hv, rfl, rfl, hn⟩⟩

/-- What a write makes of the value of a slot. -/
inductive Revises : Json → Json → Prop
  | set {w : Value} {old new} (h : w.keep = .ok new) : Revises old new
  | push {w : Value} {items new} (h : w.keep = .ok new) :
    Revises (.arr items) (.arr (items ++ [new]))
  | unshift {w : Value} {items new} (h : w.keep = .ok new) :
    Revises (.arr items) (.arr (new :: items))
  | merge {w : Value} {fields new} (h : w.keep = .ok (.obj new)) :
    Revises (.obj fields) (.obj (Assoc.update fields new))

/-- A store in which something was written to a path. -/
def Written (s t : Store) (path : Value) : Prop :=
  ∃ old new, s.Changed t path old new ∧ Revises old new

theorem written_of_set (h : s.set path v = .ok t) : s.Written t path := by
  obtain ⟨old, new, hc, hn⟩ := set_eq_ok.mp h
  exact ⟨old, new, hc, .set hn⟩

theorem written_of_push (h : s.push path v = .ok t) : s.Written t path := by
  obtain ⟨items, new, hc, hn⟩ := push_eq_ok.mp h
  exact ⟨_, _, hc, .push hn⟩

theorem written_of_unshift (h : s.unshift path v = .ok t) : s.Written t path := by
  obtain ⟨items, new, hc, hn⟩ := unshift_eq_ok.mp h
  exact ⟨_, _, hc, .unshift hn⟩

theorem written_of_merge (h : s.merge path v = .ok t) : s.Written t path := by
  obtain ⟨entries, fields, new, -, hc, hn⟩ := merge_eq_ok.mp h
  exact ⟨_, _, hc, .merge hn⟩

/-! ### Registrations and parses -/

/-- Registering succeeds in an open store, at a path apart from all registered ones, with a value
that can be kept. -/
theorem register_eq_ok {initial : Value} :
    s.register path initial = .ok (key, t) ↔ ∃ name a v, s = .active name a ∧
      AccessPath.ofValue path = .ok key ∧ (∀ p ∈ a.paths, AccessPath.Apart p key) ∧
      initial.keep = .ok v ∧ t = .active name { a with slots := a.slots ++ [(key, v)] } := by
  have hfind (a : Arena) (key : AccessPath) :
      (a.paths.find? fun p => p.overlaps key) = none ↔ ∀ p ∈ a.paths, AccessPath.Apart p key := by
    rw [List.find?_eq_none]
    simp only [Bool.not_eq_true, AccessPath.overlaps_eq_false]
  unfold register
  rw [bind_ok_iff]
  constructor
  · rintro ⟨⟨name, a⟩, hs, h⟩
    rw [require_eq_ok] at hs
    obtain ⟨key', hk, h⟩ := bind_ok_iff.mp h
    cases hf : a.paths.find? fun p => p.overlaps key' with
    | some p => simp [hf, throw, throwThe, MonadExceptOf.throw, bind, Except.bind] at h
    | none =>
      simp only [hf] at h
      obtain ⟨v, hv, h⟩ := bind_ok_iff.mp h
      cases h
      exact ⟨name, a, v, hs, hk, (hfind a _).mp hf, checked_eq_ok.mp hv, rfl⟩
  · rintro ⟨name, a, v, hs, hk, hp, hv, rfl⟩
    refine ⟨_, require_eq_ok.mpr hs, bind_ok_iff.mpr ⟨key, hk, ?_⟩⟩
    simp only [(hfind a key).mpr hp]
    exact bind_ok_iff.mpr ⟨v, checked_eq_ok.mpr hv, rfl⟩

section

variable (src : Sources) (file name : Text) (slots : List (AccessPath × Json))

/-- What a parse through an open store gives and leaves. -/
theorem parse_active (cache : ParseCache) :
    Store.parse src file (.active name ⟨cache, slots⟩) =
      match src.files.resolve (Path.parse file) with
      | .error e => .error e (.active name ⟨cache, slots⟩)
      | .ok p =>
        match Assoc.get? p.text cache with
        | some parsed => .ok parsed (.active name ⟨cache, slots⟩)
        | none =>
          match src.parseFile p with
          | .error e => .error e (.active name ⟨cache, slots⟩)
          | .ok parsed =>
            .ok parsed (.active name ⟨some (Assoc.insert p.text parsed cache), slots⟩) := by
  change (StoreM.lift (src.files.resolve (Path.parse file)) >>= _) _ = _
  cases src.files.resolve (Path.parse file) with
  | error e => rfl
  | ok p =>
    change (match Assoc.get? p.text cache with
      | some parsed => (pure parsed : StoreM ParsedFile)
      | none => _) _ = match Assoc.get? p.text cache with
      | some parsed => .ok parsed (.active name ⟨cache, slots⟩)
      | none => _
    cases Assoc.get? p.text cache with
    | some parsed => rfl
    | none =>
      change (StoreM.lift (src.parseFile p) >>= _) _ = match src.parseFile p with
        | .error e => .error e (.active name ⟨cache, slots⟩)
        | .ok parsed => _
      cases src.parseFile p with
      | error e => rfl
      | ok parsed => rfl

/-- Nothing is parsed through a store without parsed files. -/
theorem parse_uncached :
    ∃ e, Store.parse src file (.active name ⟨none, slots⟩) =
      .error e (.active name ⟨none, slots⟩) := by
  change ∃ e, (StoreM.lift (src.files.resolve (Path.parse file)) >>= _) _ = _
  cases src.files.resolve (Path.parse file) with
  | error e => exact ⟨e, rfl⟩
  | ok p => exact ⟨_, rfl⟩

end

/-- A parse leaves the store alone, or adds to the parsed files what the parser gives for the file
at a resolved path. -/
theorem endState_parse (src : Sources) (file : Text) (s : Store) :
    endState (Store.parse src file s) = s ∨ ∃ name cache slots p parsed,
      s = .active name ⟨some cache, slots⟩ ∧ src.files.resolve (Path.parse file) = .ok p ∧
      src.parseFile p = .ok parsed ∧ endState (Store.parse src file s) =
        .active name ⟨some (Assoc.insert p.text parsed cache), slots⟩ := by
  cases s with
  | fresh => exact .inl rfl
  | ended name => exact .inl rfl
  | active name a =>
    obtain ⟨cache, slots⟩ := a
    cases cache with
    | none =>
      obtain ⟨e, he⟩ := parse_uncached src file name slots
      exact .inl (by rw [he]; rfl)
    | some cache =>
      rw [parse_active]
      cases hp : src.files.resolve (Path.parse file) with
      | error e => exact .inl rfl
      | ok p =>
        cases hc : Assoc.get? p.text cache with
        | some parsed => exact .inl (by simp [hc])
        | none =>
          cases hf : src.parseFile p with
          | error e => exact .inl (by simp [hc, hf])
          | ok parsed => exact .inr ⟨name, cache, slots, p, parsed, rfl, rfl, hf, by simp [hc, hf]⟩

end Store

end RoutePlugins
