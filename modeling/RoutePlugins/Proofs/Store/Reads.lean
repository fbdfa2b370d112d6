import RoutePlugins.Proofs.Store.Frame
import RoutePlugins.Proofs.Store.Gathered

/-!
# What a store reads

A path lies at or inside a registered path, above some of them, or apart from all of them. Since
registered paths lie apart from each other, no path does two of these, and each has its own law:
inside a registered path is what a descent into its value gives, above registered paths is the
object whose leaves are their values, and apart from them there is nothing to read. So what is read
depends on what is registered, and not on the order of the registrations.
-/

namespace RoutePlugins

open List

/-! ### Descents into values -/

namespace Value

/-- Follow segments into a value: by the keys of a map and by the places of a list, as in JSON. -/
def descend : Value → List Text → Except Fault Value
  | v, [] => .ok v
  | .map entries, s :: rest => entry? s entries |>.getD .null |>.descend rest
  | .list items, s :: rest =>
    if !s.isEmpty && s.points.all Text.isDigit then
      match segmentNumber s with
      | .error e => .error e
      | .ok n =>
        match items[n]? with
        | some v => v.descend rest
        | none => .ok .null
    else .ok .null
  | _, _ :: _ => .ok .null

@[simp] theorem descend_nil (v : Value) : v.descend [] = .ok v := by
  cases v <;> rfl

theorem entry?_ofJsonFields (key : Text) (fields : List (Text × Json)) :
    Value.entry? key (ofJsonFields fields) = (Assoc.get? key fields).map ofJson := by
  induction fields with
  | nil => rfl
  | cons e rest ih =>
    obtain ⟨k, v⟩ := e
    simp only [ofJsonFields, Value.entry?, Assoc.get?, ih]
    split
    · rfl
    · rfl

/-- Descending into JSON gives JSON. -/
theorem descend_ofJson (j : Json) (segments : List Text) :
    (ofJson j).descend segments = (j.descend segments).map ofJson := by
  induction segments generalizing j with
  | nil =>
    rw [descend_nil, Json.descend]
    rfl
  | cons s rest ih =>
    cases j with
    | obj fields =>
      rw [ofJson, descend, Json.descend, entry?_ofJsonFields, ← ih]
      cases Assoc.get? s fields with
      | none => rfl
      | some v => rfl
    | arr items =>
      rw [ofJson, descend, Json.descend]
      split
      · cases segmentNumber s with
        | error e => rfl
        | ok n =>
          dsimp only
          rw [ofJsonItems_eq_map, List.getElem?_map]
          cases items[n]? with
          | none => rfl
          | some v => exact ih v
      · rfl
    | _ => rfl

theorem segmentNumber_error {s : Text} {e : Fault} (h : segmentNumber s = .error e) :
    e.label = "ValueError" := by
  unfold segmentNumber at h
  dsimp only at h
  split at h
  · cases h
    rfl
  · split at h
    · cases h
      rfl
    · cases h

/-- A descent fails only at a segment whose digits write no number. -/
theorem descend_error {v : Value} {segments : List Text} {e : Fault}
    (h : v.descend segments = .error e) : e.label = "ValueError" := by
  induction segments generalizing v with
  | nil =>
    rw [descend_nil] at h
    cases h
  | cons s rest ih =>
    cases v with
    | map entries => exact ih h
    | list items =>
      rw [descend] at h
      split at h
      · split at h
        · next hn =>
          cases h
          exact segmentNumber_error hn
        · split at h
          · exact ih h
          · cases h
      · cases h
    | _ => cases h

end Value

/-- Reading inside the parsed files is descending into them. -/
theorem readParsed_eq_descend (cache : ParseCache) (segments : List Text) :
    .ok (Arena.readParsed cache segments) = cache.toValue.descend segments := by
  have hentry (key : Text) : Value.entry? key
      (cache.map fun e => (.str e.1, .parsed e.2)) = (Assoc.get? key cache).map .parsed := by
    induction cache with
    | nil => rfl
    | cons e rest ih =>
      simp only [map_cons, Value.entry?, Assoc.get?, ih]
      split
      · rfl
      · rfl
  cases segments with
  | nil => rfl
  | cons key rest =>
    rw [ParseCache.toValue, Value.descend, hentry]
    cases rest with
    | nil =>
      rw [Value.descend_nil, Arena.readParsed]
      cases Assoc.get? key cache with
      | none => rfl
      | some file => rfl
    | cons s rest =>
      cases Assoc.get? key cache with
      | none => rfl
      | some file => rfl

/-! ### Reads by where the path lies -/

namespace Arena

open AccessPath

variable {a : Arena}

variable {p q r : AccessPath}

/-- Registered paths that differ lie apart. -/
theorem WellFormed.apart_of_ne (h : a.WellFormed) (hp : p ∈ a.paths) (hq : q ∈ a.paths)
    (hne : p ≠ q) : p.Apart q :=
  h.apart.forall hp hq hne

/-- Only one registered path begins a path. -/
theorem WellFormed.eq_of_front (h : a.WellFormed) {path : AccessPath} (hp : p ∈ a.paths)
    (hq : q ∈ a.paths) (hpf : p <+: path) (hqf : q <+: path) : p = q := by
  by_contra hne
  have hapart := h.apart_of_ne hp hq hne
  rcases prefix_or_prefix_of_prefix hpf hqf with hpq | hqp
  · exact hapart.1 hpq
  · exact hapart.2 hqp

theorem WellFormed.nodup_keys (h : a.WellFormed) : (Assoc.keys a.slots).Nodup :=
  (nodup_append.mp (h.apart.imp Apart.ne)).2.1

theorem mem_paths_of_mem_slots {e : AccessPath × Json} (h : e ∈ a.slots) : e.1 ∈ a.paths :=
  mem_append_right _ (mem_map_of_mem h)

/-- What is registered at a path: the parsed files or the value of a slot. -/
theorem mem_paths_iff :
    p ∈ a.paths ↔ (∃ cache, a.cache = some cache ∧ p = parsedPath) ∨ ∃ v, (p, v) ∈ a.slots := by
  simp [paths, eq_comm]

theorem read_parsed {cache : ParseCache} (h : a.cache = some cache) (rest : AccessPath) :
    a.read (parsedPath ++ rest) = cache.toValue.descend rest := by
  have hfront : parsedPath.isFront (parsedPath ++ rest) = true :=
    isFront_eq_true.mpr (prefix_append _ _)
  rw [read, h, hfront]
  dsimp only
  rw [drop_left, readParsed_eq_descend]

theorem read_slot (h : a.WellFormed) {v : Json} (hp : (p, v) ∈ a.slots) (rest : AccessPath) :
    a.read (p ++ rest) = (Value.ofJson v).descend rest := by
  have hget : Assoc.get? p a.slots = some v := Assoc.get?_of_mem h.nodup_keys hp
  have hfront {q : AccessPath} (hq : q ∈ a.paths) : q.isFront (p ++ rest) = true ↔ q = p := by
    rw [isFront_eq_true]
    constructor
    · intro hprefix
      exact h.eq_of_front hq (mem_paths_of_mem_slots hp) hprefix (prefix_append _ _)
    · rintro rfl
      exact prefix_append _ _
  have hparsed (cache : ParseCache) (hc : a.cache = some cache) :
      parsedPath.isFront (p ++ rest) = false := by
    rw [← Bool.not_eq_true, hfront (mem_paths_iff.mpr (.inl ⟨cache, hc, rfl⟩))]
    intro heq
    have hpairs := (pairwise_append.mp h.apart).2.2
    exact (hpairs parsedPath (by simp [hc]) p (mem_map_of_mem hp)).ne heq
  rw [read_eq_readSlots hparsed, readSlots]
  cases hexact : Assoc.get? (p ++ rest) a.slots with
  | some w =>
    have hmem := Assoc.mem_of_get? hexact
    have heq := (hfront (mem_paths_of_mem_slots hmem)).mp (isFront_eq_true.mpr (prefix_refl _))
    obtain rfl : rest = [] := by simpa using heq
    rw [append_nil, hget] at hexact
    cases hexact
    exact (Value.descend_nil _).symm
  | none =>
    have hfind := Assoc.find?_of_get? (P := fun k : AccessPath => k.isFront (p ++ rest)) hget
      fun k hk => hfront (mem_append_right _ hk)
    dsimp only
    rw [hfind]
    simp only [drop_left, Value.descend_ofJson]

/-- Inside a registered path is what a descent into what is read there gives. -/
theorem exists_read (h : a.WellFormed) (hp : p ∈ a.paths) :
    ∃ v, a.read p = .ok v ∧ ∀ rest, a.read (p ++ rest) = v.descend rest := by
  rcases mem_paths_iff.mp hp with ⟨cache, hc, rfl⟩ | ⟨v, hv⟩
  · refine ⟨cache.toValue, ?_, read_parsed hc⟩
    simpa using read_parsed hc []
  · refine ⟨.ofJson v, ?_, read_slot h hv⟩
    simpa using read_slot h hv []

/-- A path that is above registered paths, or apart from all of them, has none at its front. -/
theorem read_outside (h : ∀ p ∈ a.paths, ¬ p <+: q) :
    a.read q = if a.slots.any fun e => q.isFront e.1 then .ok (.ofJson (.obj (a.gather q)))
      else .error (.store (.unregistered q)) := by
  have hget : Assoc.get? q a.slots = none := by
    rw [Assoc.get?_eq_none_iff]
    exact fun hm => h q (mem_append_right _ hm) (prefix_refl q)
  have hfind : (a.slots.find? fun e => e.1.isFront q) = none := by
    rw [List.find?_eq_none]
    exact fun e he hf => h e.1 (mem_paths_of_mem_slots he) (isFront_eq_true.mp hf)
  have hparsed (cache : ParseCache) (hc : a.cache = some cache) :
      parsedPath.isFront q = false := by
    rw [← Bool.not_eq_true, isFront_eq_true]
    exact h parsedPath (mem_paths_iff.mpr (.inl ⟨cache, hc, rfl⟩))
  rw [read_eq_readSlots hparsed, readSlots, hget]
  dsimp only
  rw [hfind]

/-- A path above a registered one has none at its front. -/
theorem WellFormed.not_front_of_above (h : a.WellFormed) (hr : r ∈ a.paths) (hqr : q <+: r)
    (hne : q ≠ r) : ∀ p ∈ a.paths, ¬ p <+: q := by
  intro p hp hpq
  obtain rfl := h.eq_of_front hp hr (hpq.trans hqr) (prefix_refl r)
  exact hne (hqr.eq_of_length (Nat.le_antisymm hqr.length_le hpq.length_le))

/-- The parsed files have a path of one segment, so only slots have paths above them. -/
theorem mem_slots_of_above (hq : q ≠ []) (hr : r ∈ a.paths) (hqr : q <+: r) (hne : q ≠ r) :
    ∃ v, (r, v) ∈ a.slots := by
  rcases mem_paths_iff.mp hr with ⟨-, -, rfl⟩ | hv
  · obtain ⟨key, rest, rfl⟩ := exists_cons_of_ne_nil hq
    obtain ⟨rfl, hrest⟩ := cons_prefix_cons.mp hqr
    rw [prefix_nil.mp hrest] at hne
    exact absurd rfl hne
  · exact hv

/-- Above registered paths is what is gathered from them. -/
theorem read_above (h : a.WellFormed) {q r : AccessPath} (hq : q ≠ []) (hr : r ∈ a.paths)
    (hqr : q <+: r) (hne : q ≠ r) : a.read q = .ok (.ofJson (.obj (a.gather q))) := by
  obtain ⟨v, hv⟩ := mem_slots_of_above hq hr hqr hne
  rw [read_outside (h.not_front_of_above hr hqr hne), if_pos]
  exact any_eq_true.mpr ⟨(r, v), hv, isFront_eq_true.mpr hqr⟩

/-- Apart from all registered paths there is nothing to read. -/
theorem read_apart (h : ∀ p ∈ a.paths, p.Apart q) :
    a.read q = .error (.store (.unregistered q)) := by
  rw [read_outside fun p hp => (h p hp).1, if_neg]
  rw [any_eq_true]
  rintro ⟨e, he, hf⟩
  exact (h e.1 (mem_paths_of_mem_slots he)).2 (isFront_eq_true.mp hf)

/-- Where a path lies: at or inside a registered one, above one, or apart from all. -/
theorem lies (a : Arena) (q : AccessPath) :
    (∃ p ∈ a.paths, ∃ rest, q = p ++ rest) ∨ (∃ r ∈ a.paths, q <+: r ∧ q ≠ r) ∨
      ∀ p ∈ a.paths, p.Apart q := by
  by_cases hfront : ∃ p ∈ a.paths, p <+: q
  · obtain ⟨p, hp, rest, rfl⟩ := hfront
    exact .inl ⟨p, hp, rest, rfl⟩
  by_cases habove : ∃ r ∈ a.paths, q <+: r
  · obtain ⟨r, hr, hqr⟩ := habove
    refine .inr (.inl ⟨r, hr, hqr, ?_⟩)
    rintro rfl
    exact hfront ⟨q, hr, prefix_refl q⟩
  · exact .inr (.inr fun p hp => ⟨fun hpq => hfront ⟨p, hp, hpq⟩, fun hqp => habove ⟨p, hp, hqp⟩⟩)

/-- What is gathered at a path is assembled from the slots below it. -/
theorem WellFormed.assembles_gather (h : a.WellFormed) (hq : ∀ p ∈ a.paths, ¬ p <+: q) :
    Assembles (a.rests q) (.obj (a.gather q)) := by
  have hmem {e : AccessPath × Json} (he : e ∈ a.rests q) : (q ++ e.1, e.2) ∈ a.slots :=
    mem_rests.mp he
  have hnodup : ((a.rests q).map Prod.fst).Nodup := by
    have hkeys : ((a.below q).map Prod.fst).Nodup :=
      ((mergeSort_perm _ _).map Prod.fst).nodup_iff.mpr
        (h.nodup_keys.sublist (filter_sublist.map Prod.fst))
    have hmap : ((a.rests q).map Prod.fst).map (q ++ ·) = (a.below q).map Prod.fst := by
      rw [rests, map_map, map_map]
      refine map_congr_left fun e he => ?_
      exact prefix_iff_eq_append.mp (mem_below.mp he).2
    exact (hmap ▸ hkeys).of_map
  rw [gather_eq]
  refine assembles_foldl ?_ (fun e he hnil => ?_) fun e he => ?_
  · refine (pairwise_map.mp hnodup).imp_of_mem fun {e f} he hf hne => ?_
    refine apart_append_iff.mp (h.apart_of_ne (mem_paths_of_mem_slots (hmem he))
      (mem_paths_of_mem_slots (hmem hf)) fun heq => hne (append_cancel_left heq))
  · have hslot := hmem he
    rw [hnil, append_nil] at hslot
    exact hq q (mem_paths_of_mem_slots hslot) (prefix_refl q)
  · exact (h.kept (q ++ e.1, e.2) (hmem he)).1

/-- The order of registrations does not matter to what is read. -/
theorem read_congr {b : Arena} (ha : a.WellFormed) (hb : b.WellFormed) (hcache : a.cache = b.cache)
    (hslots : ∀ e, e ∈ a.slots ↔ e ∈ b.slots) (hq : q ≠ []) : a.read q = b.read q := by
  have hpaths (p : AccessPath) : p ∈ a.paths ↔ p ∈ b.paths := by
    simp only [mem_paths_iff, hcache, hslots]
  rcases a.lies q with ⟨p, hp, rest, rfl⟩ | ⟨r, hr, hqr, hne⟩ | hapart
  · rcases mem_paths_iff.mp hp with ⟨cache, hc, rfl⟩ | ⟨v, hv⟩
    · rw [read_parsed hc, read_parsed (hcache ▸ hc)]
    · rw [read_slot ha hv, read_slot hb ((hslots _).mp hv)]
  · rw [read_above ha hq hr hqr hne, read_above hb hq ((hpaths r).mp hr) hqr hne,
      gather_congr ha.nodup_keys hb.nodup_keys hslots]
  · rw [read_apart hapart, read_apart fun p hp => hapart p ((hpaths p).mpr hp)]

end Arena

/-! ### Stores -/

namespace Store

open AccessPath

/-- A store that is reached from one that was never started. -/
def Reachable (s : Store) : Prop :=
  ∃ steps history, (StoreStep.runAll steps ⟨.fresh, history⟩).store = s

theorem Reachable.wellFormed {s : Store} (h : s.Reachable) : s.WellFormed := by
  obtain ⟨steps, history, rfl⟩ := h
  exact StoreStep.wellFormed_runAll steps ⟨.fresh, history⟩ trivial

theorem exists_active {s : Store} (h : s.state = "open") : ∃ name a, s = .active name a := by
  cases s with
  | fresh => exact absurd h (by decide)
  | active name a => exact ⟨name, a, rfl⟩
  | ended name => exact absurd h (by simp only [state]; decide)

theorem cache_eq_of_parseCache {name name' : Text} {a b : Arena}
    (h : (Store.active name a).parseCache = (Store.active name' b).parseCache) :
    a.cache = b.cache := by
  obtain ⟨cache, slots⟩ := a
  obtain ⟨cache', slots'⟩ := b
  cases cache with
  | none =>
    cases cache' with
    | none => rfl
    | some c' => cases h
  | some c =>
    cases cache' with
    | none => cases h
    | some c' => exact congrArg some (Except.ok.inj h)

theorem get_active {name : Text} {a : Arena} {q : AccessPath} (hq : q.Proper) :
    (Store.active name a).get q.toValue = a.read q := by
  change (AccessPath.ofValue q.toValue >>= a.read) = _
  rw [AccessPath.ofValue_toValue hq]
  rfl

/-- An object whose leaves are the values at the registered paths that begin with `q`: the value of
such a path is found at the rest of the path, objects are found above it, and nothing is found at
paths apart from all registered ones. -/
structure Gathers (s : Store) (q : AccessPath) (d : Json) : Prop where
  leaf : ∀ rest v, (q ++ rest, v) ∈ s.values → d.at? rest = some v
  above : ∀ rest, ∀ r ∈ s.registered, q ++ rest <+: r → q ++ rest ≠ r →
    ∃ fields, d.at? rest = some (.obj fields)
  apart : ∀ rest, (∀ r ∈ s.registered, r.overlaps (q ++ rest) = false) → d.at? rest = none
  kept : d.Kept

end Store

namespace Arena

open AccessPath

/-- Above a registered path the leaves of what is gathered are the values below. -/
theorem WellFormed.gathers {a : Arena} (h : a.WellFormed) {q r : AccessPath} (hq : q ≠ [])
    (hr : r ∈ a.paths) (hqr : q <+: r) (hne : q ≠ r) (name : Text) :
    (Store.active name a).Gathers q (.obj (a.gather q)) := by
  have hassembles := h.assembles_gather (h.not_front_of_above hr hqr hne)
  refine ⟨fun rest v hv => ?_, fun rest p hp hfront hp' => ?_, fun rest ha => ?_, hassembles.kept⟩
  · exact hassembles.leaf (rest, v) (mem_rests.mpr hv)
  · obtain ⟨v, hv⟩ := mem_slots_of_above (by simp [hq]) hp hfront hp'
    obtain ⟨tail, rfl⟩ := (prefix_append q rest).trans hfront
    refine hassembles.above (tail, v) (mem_rests.mpr hv) rest ?_ fun heq => hp' (by rw [heq])
    exact (prefix_append_right_inj q).mp hfront
  · have hapart (p : AccessPath) (hp : p ∈ a.paths) : p.Apart (q ++ rest) :=
      overlaps_eq_false.mp (ha p hp)
    refine hassembles.apart rest ?_ fun e he => ?_
    · rintro rfl
      rw [append_nil] at hapart
      exact (hapart r hr).2 hqr
    · have hslot : (q ++ e.1, e.2) ∈ a.slots := mem_rests.mp he
      exact apart_append_iff.mp (hapart _ (mem_paths_of_mem_slots hslot)).symm

/-- A registered path below is read by descending into what is gathered above it. -/
theorem WellFormed.descend_gather {a : Arena} (h : a.WellFormed) {q rest : AccessPath}
    (hq : q ≠ []) (hr : q ++ rest ∈ a.paths) (hne : q ≠ q ++ rest) :
    (Value.ofJson (.obj (a.gather q))).descend rest = a.read (q ++ rest) := by
  obtain ⟨v, hv⟩ := mem_slots_of_above hq hr (prefix_append q rest) hne
  have hgathers := h.gathers hq hr (prefix_append q rest) hne ""
  have hread := read_slot h hv []
  rw [append_nil, Value.descend_nil] at hread
  rw [Value.descend_ofJson, Json.descend_of_at? (hgathers.leaf rest v hv), hread]
  rfl

end Arena

namespace Store

open AccessPath

/-- In every open store that was reached, and at every path: reading fails with the fault of a
store exactly if the path overlaps no registered one. Above registered paths it gives the object
whose leaves are the values below, and descending into it to a registered path gives what is read
there. At a registered path it gives the value, and inside of it what descending into the value
gives, or fails as the descent does. Stores that hold the same values at the same paths answer
every read alike. -/
theorem reads_cohere {s : Store} (hs : s.Reachable) (hopen : s.state = "open") :
    (∀ q : AccessPath, q.Proper →
      ((∃ e, s.get q.toValue = .error e ∧ e.label = "StoreAccessError") ↔
        ∀ r ∈ s.registered, r.overlaps q = false)) ∧
    (∀ q : AccessPath, q.Proper → (∃ r ∈ s.registered, q <+: r ∧ q ≠ r) →
      ∃ d, s.get q.toValue = .ok (.ofJson d) ∧ s.Gathers q d ∧
        ∀ rest, q ++ rest ∈ s.registered →
          (Value.ofJson d).descend rest = s.get (q ++ rest : AccessPath).toValue) ∧
    (∀ e ∈ s.values, s.get e.1.toValue = .ok (.ofJson e.2)) ∧
    (∀ p ∈ s.registered, ∃ v, s.get p.toValue = .ok v ∧ ∀ rest, AccessPath.Proper (p ++ rest) →
      s.get (p ++ rest : AccessPath).toValue = v.descend rest) ∧
    ∀ t : Store, t.Reachable → t.state = "open" → s.parseCache = t.parseCache →
      (∀ e, e ∈ s.values ↔ e ∈ t.values) → ∀ path, s.get path = t.get path := by
  obtain ⟨name, a, rfl⟩ := exists_active hopen
  have hw : a.WellFormed := hs.wellFormed
  refine ⟨fun q hq => ?_, fun q hq habove => ?_, fun e he => ?_, fun p hp => ?_, ?_⟩
  · rw [get_active hq]
    simp only [overlaps_eq_false]
    constructor
    · rintro ⟨e, he, hlabel⟩
      rcases a.lies q with ⟨p, hp, rest, rfl⟩ | ⟨r, hr, hqr, hne⟩ | hapart
      · obtain ⟨v, -, hread⟩ := Arena.exists_read hw hp
        rw [Value.descend_error ((hread rest).symm.trans he)] at hlabel
        exact absurd hlabel (by decide)
      · rw [Arena.read_above hw hq.1 hr hqr hne] at he
        cases he
      · exact hapart
    · intro hapart
      exact ⟨_, Arena.read_apart hapart, rfl⟩
  · obtain ⟨r, hr, hqr, hne⟩ := habove
    refine ⟨.obj (a.gather q), ?_, hw.gathers hq.1 hr hqr hne name, fun rest hrest => ?_⟩
    · rw [get_active hq]
      exact Arena.read_above hw hq.1 hr hqr hne
    · rw [get_active (hw.proper _ hrest)]
      refine hw.descend_gather hq.1 hrest fun heq => ?_
      rw [← heq] at hrest
      exact hw.not_front_of_above hr hqr hne q hrest (prefix_refl q)
  · rw [get_active (hw.proper _ (Arena.mem_paths_of_mem_slots he))]
    simpa using Arena.read_slot hw (p := e.1) (v := e.2) he []
  · obtain ⟨v, hv, hrest⟩ := Arena.exists_read hw hp
    refine ⟨v, (get_active (hw.proper p hp)).trans hv, fun rest hproper => ?_⟩
    exact (get_active hproper).trans (hrest rest)
  · intro t ht htopen hcache hvalues path
    obtain ⟨name', b, rfl⟩ := exists_active htopen
    have hcache := cache_eq_of_parseCache hcache
    change (AccessPath.ofValue path >>= a.read) = (AccessPath.ofValue path >>= b.read)
    cases hp : AccessPath.ofValue path with
    | error e => rfl
    | ok q => exact Arena.read_congr hw ht.wellFormed hcache hvalues (proper_of_ofValue hp).1

namespace Sample

/-- A store in which numbers are registered below `a`. -/
def numbered (entries : List (Text × Int)) : Store :=
  (StoreStep.runAll (.call StoreStep.Sample.nowhere (.start (.str "s") .null) :: entries.map
    fun e => .call StoreStep.Sample.nowhere (.register (toValue ["a", e.1]) (.int e.2)))
    ⟨.fresh, []⟩).store

theorem reachable_numbered (entries : List (Text × Int)) : (numbered entries).Reachable :=
  ⟨_, _, rfl⟩

end Sample

open Sample

/-- Two numbers registered below `a`, in either order, are read there as one object. Nothing is read
at `b`, and nothing is found inside a number. -/
theorem reads_cohere_numbered :
    (∃ d, (numbered [("x", 1), ("y", 2)]).get (toValue ["a"]) = .ok (.ofJson d) ∧
      d.at? ["x"] = some (.int 1) ∧ d.at? ["y"] = some (.int 2) ∧ d.at? ["z"] = none) ∧
    (numbered [("x", 1), ("y", 2)]).get (toValue ["a"]) =
      (numbered [("y", 2), ("x", 1)]).get (toValue ["a"]) ∧
    (∃ e, (numbered [("x", 1), ("y", 2)]).get (toValue ["b"]) = .error e ∧
      e.label = "StoreAccessError") ∧
    (numbered [("x", 1), ("y", 2)]).get (toValue ["a", "x", "0"]) = .ok .null := by
  obtain ⟨hfault, habove, hvalue, hinside, hsame⟩ :=
    reads_cohere (reachable_numbered [("x", 1), ("y", 2)]) rfl
  obtain ⟨d, hd, hgathers, -⟩ := habove ["a"] (by decide) ⟨["a", "x"], by decide, by decide⟩
  refine ⟨⟨d, hd, ?_, ?_, ?_⟩, ?_, ?_, ?_⟩
  · exact hgathers.leaf ["x"] (.int 1) mem_cons_self
  · exact hgathers.leaf ["y"] (.int 2) (mem_cons_of_mem _ mem_cons_self)
  · exact hgathers.apart ["z"] (by decide)
  · have hperm : (numbered [("x", 1), ("y", 2)]).values.Perm
        (numbered [("y", 2), ("x", 1)]).values := List.Perm.swap _ _ []
    exact hsame (numbered [("y", 2), ("x", 1)]) (reachable_numbered _) rfl rfl
      (fun e => hperm.mem_iff) _
  · exact (hfault ["b"] (by decide)).mpr (by decide)
  · obtain ⟨v, hv, hrest⟩ := hinside ["a", "x"] (by decide)
    rw [hvalue (["a", "x"], .int 1) mem_cons_self] at hv
    cases hv
    exact hrest ["0"] (by decide)

end Store

end RoutePlugins
