import RoutePlugins.Proofs.Imports.Found
import RoutePlugins.Proofs.Plugin.StagingTables
import RoutePlugins.Proofs.Store.Reads

/-!
# What a graph remembers

A graph remembers the imports of a file in a table of its store, and the store remembers the files
that were parsed. Whatever is in the two at first, following imports adds to them only what would be
found without it. So the imports of a file are the same however many were asked for before.
-/

namespace RoutePlugins

variable {t : Store} {fs : Files} {found : List ResolvedImport}

/-! ### Tables -/

/-- What a table holds for a key; nothing if the key is missing. -/
def look (key : Text) (fields : List (Text × Json)) : Json := (Assoc.get? key fields).getD .null

theorem look_insert (key other : Text) (v : Json) (fields : List (Text × Json)) :
    look other (Assoc.insert key v fields) = if other = key then v else look other fields := by
  rw [look, Assoc.get?_insert]
  split
  · rfl
  · rfl

namespace Store

variable {s : Store} {path : AccessPath} {fields : List (Text × Json)}

/-- A key of an object in a slot is read below the path of the slot. -/
theorem get_below (hw : s.WellFormed) (hs : s.slotAt? path = some (.obj fields)) {key : Text}
    (hkey : key.isEmpty = false) :
    s.get (path ++ [key] : AccessPath).toValue = .ok (.ofJson (look key fields)) := by
  cases s with
  | fresh => cases hs
  | ended name => cases hs
  | active name a =>
    have hslot : (path, .obj fields) ∈ a.slots := Assoc.mem_of_get? hs
    have hproper := hw.proper path (Arena.mem_paths_of_mem_slots hslot)
    have hbelow : (path ++ [key] : AccessPath).Proper :=
      ⟨by simp, forall_mem_concat.mpr ⟨hproper.2, hkey⟩⟩
    rw [get_active hbelow, Arena.read_slot hw hslot, Value.descend_ofJson, Json.descend,
      Json.descend]
    rfl

/-- The parsed file of an open store under a key. -/
def parsed? (s : Store) (key : Text) : Option ParsedFile :=
  match s with
  | .active _ a => a.cache.bind (Assoc.get? key)
  | _ => none

theorem Changed.parsed {v : Value} {old new : Json} (h : s.Changed t v old new) (key : Text) :
    t.parsed? key = s.parsed? key := by
  obtain ⟨name, a, _, rfl, -, -, -, rfl⟩ := h
  rfl

end Store

theorem Value.keepWithin_single {key : Text} (hkey : key.joined = key) {v : Value} {j : Json}
    {depth : Nat} (h : v.keepWithin depth = .ok j) :
    (Value.map [(.str key, v)]).keepWithin (depth + 1) = .ok (.obj [(key, j)]) := by
  obtain ⟨j', rfl, hw, rfl⟩ := Value.keepWithin_eq_ok.mp h
  refine Value.keepWithin_eq_ok.mpr ⟨.obj [(key, j')], rfl, ⟨?_, ?_⟩, ?_⟩
  · exact Option.or_eq_none_iff.mpr ⟨hw.1, rfl⟩
  · exact ⟨Nat.succ_pos depth, hw.2, trivial⟩
  · change _ = Json.obj [(key.joined, j'.joined)]
    rw [hkey]

namespace ImportGraph

open Store

/-- An open store with parsed files in which both tables of a graph hold objects. -/
structure Ready (s : Store) : Prop where
  wellFormed : s.WellFormed
  cached : s.isCached = true
  imports : ∃ fields, s.slotAt? importsPath = some (.obj fields)
  reached : ∃ fields, s.slotAt? reachedPath = some (.obj fields)

/-- An open store with parsed files in which both tables of a graph are empty. -/
structure Blank (s : Store) : Prop where
  wellFormed : s.WellFormed
  cached : s.isCached = true
  imports : s.slotAt? importsPath = some (.obj [])
  reached : s.slotAt? reachedPath = some (.obj [])

theorem Blank.ready {s : Store} (h : Blank s) : Ready s :=
  ⟨h.wellFormed, h.cached, ⟨_, h.imports⟩, ⟨_, h.reached⟩⟩

/-- A table that is not registered yet is registered with its first value, and nothing else
changes. -/
theorem ensureRegistered_new {s : Store} {path : AccessPath} {initial : Value} {v : Json}
    (hp : path.Proper) (hv : initial.keep = .ok v) (hnew : path ∉ s.registered)
    (h : ensureRegistered path initial s = .ok () t) :
    (s.WellFormed → t.WellFormed) ∧ t.isCached = s.isCached ∧
      t.registered = s.registered ++ [path] ∧
      (∀ other, t.slotAt? other = if other = path then some v else s.slotAt? other) ∧
      ∀ key, t.parsed? key = s.parsed? key := by
  obtain ⟨known, u, hread, h⟩ := bind_eq_ok.mp h
  rw [StoreM.read_apply] at hread
  obtain ⟨hknown, rfl⟩ := lift_eq_ok.mp hread
  unfold isRegistered at hknown
  rw [AccessPath.ofValue_toValue hp] at hknown
  cases s with
  | fresh => cases hknown
  | ended name => cases hknown
  | active name a =>
    cases hknown
    have hnew : path ∉ a.paths := hnew
    rw [if_pos (by simpa using hnew), StoreM.change_apply] at h
    cases hr : (Store.active name a).register path.toValue initial with
    | error e =>
      rw [hr] at h
      cases h
    | ok r =>
      rw [hr] at h
      cases h
      obtain ⟨key, t⟩ := r
      have hw (hw : (Store.active name a).WellFormed) := hw.register hr
      obtain ⟨name', a', v', hs, hkey, -, hv', rfl⟩ := register_eq_ok.mp hr
      cases hs
      cases (AccessPath.ofValue_toValue hp).symm.trans hkey
      cases hv.symm.trans hv'
      have hslots : a.slots ++ [(path, v)] = Assoc.insert path v a.slots :=
        (Assoc.insert_of_notMem (fun hm => hnew (List.mem_append_right _ hm)) _).symm
      refine ⟨hw, rfl, ?_, fun other => ?_, fun _ => rfl⟩
      · change _ ++ (a.slots ++ [(path, v)]).map Prod.fst = _
        rw [List.map_append, ← List.append_assoc]
        rfl
      · change Assoc.get? other (a.slots ++ [(path, v)]) = _
        rw [hslots, Assoc.get?_insert]
        rfl

/-- A graph over a store in which neither of its tables is registered starts with empty ones. -/
theorem blank_of_attach {root : Path} {aliases : Option Aliases} {g : ImportGraph} {s : Store}
    (hw : s.WellFormed) (hcached : s.isCached = true) (himports : importsPath ∉ s.registered)
    (hreached : reachedPath ∉ s.registered) (h : attach fs root aliases s = .ok g t) :
    Blank t ∧ fs.resolve root = .ok g.root ∧ g.aliases = aliases ∧
      ∀ key, t.parsed? key = s.parsed? key := by
  obtain ⟨q, hresolve, h⟩ := lift_bind_eq_ok.mp h
  obtain ⟨⟨⟩, u, h1, h⟩ := bind_eq_ok.mp h
  obtain ⟨⟨⟩, t', h2, h⟩ := bind_eq_ok.mp h
  cases h
  have hempty : (Value.map []).keep = .ok (.obj []) := rfl
  obtain ⟨hw1, hc1, hpaths, hslots1, hparsed1⟩ :=
    ensureRegistered_new (by decide) hempty himports h1
  obtain ⟨hw2, hc2, -, hslots2, hparsed2⟩ := ensureRegistered_new (by decide) hempty
    (by rw [hpaths]; simpa [hreached] using (by decide : reachedPath ≠ importsPath)) h2
  refine ⟨⟨hw2 (hw1 hw), (hc2.trans hc1).trans hcached, ?_, ?_⟩, hresolve, rfl,
    fun key => (hparsed2 key).trans (hparsed1 key)⟩
  · rw [hslots2, if_neg (by decide), hslots1, if_pos rfl]
  · rw [hslots2, if_pos rfl]

section

variable {s : Store} {path : AccessPath} {fields : List (Text × Json)} {key : Text}

/-- What is remembered for a key is looked up in its table. -/
theorem remembered_apply (hw : s.WellFormed) (hs : s.slotAt? path = some (.obj fields))
    (hkey : key.isEmpty = false) :
    remembered path key s = .ok (.ofJson (look key fields)) s := by
  unfold remembered
  rw [StoreM.read_apply, get_below hw hs hkey]
  rfl

/-- A list that can be kept is remembered in its table, and nothing else changes. -/
theorem remember_apply (hw : s.WellFormed) (hs : s.slotAt? path = some (.obj fields))
    (hproper : path.Proper) (hparsed : path ≠ parsedPath) (hkey : key.joined = key)
    {items : List Value} {j : Json} {depth : Nat} (hdepth : depth < Value.maxDepth)
    (hitems : (Value.list items).keepWithin depth = .ok j) :
    ∃ t, remember path key items s = .ok () t ∧ t.WellFormed ∧ t.isCached = s.isCached ∧
      (∀ other, t.slotAt? other =
        if other = path then some (.obj (Assoc.insert key j fields)) else s.slotAt? other) ∧
      ∀ other, t.parsed? other = s.parsed? other := by
  obtain ⟨t, ht⟩ := exists_changed hproper hparsed hs (.obj (Assoc.insert key j fields))
  have hmerge : s.merge path.toValue (.map [(.str key, .list items)]) = .ok t :=
    merge_eq_ok.mpr ⟨_, fields, [(key, j)], rfl, ht,
      Value.keepWithin_mono (Value.keepWithin_single hkey hitems) hdepth⟩
  have hwritten := written_of_merge hmerge
  refine ⟨t, ?_, hw.write hwritten, hwritten.isCached, (ht.slotAt hproper).2, ht.parsed⟩
  unfold remember
  rw [StoreM.change_apply, hmerge]

end

/-! ### Imports that are remembered -/

/-- The imports that are read from a record of them. -/
def recollect (v : Json) : Except Fault (List ResolvedImport) := do
  (← (Value.ofJson v).elements).mapM ResolvedImport.ofValue

/-- Imports are read back as they were found. -/
theorem recollect_imports (h : ∀ i ∈ found, i.LookedAt fs) :
    recollect (.arr (found.map ResolvedImport.toJson)) = .ok found := by
  change (Value.ofJsonItems (found.map ResolvedImport.toJson)).mapM ResolvedImport.ofValue = _
  induction found with
  | nil => rfl
  | cons i rest ih =>
    rw [List.map_cons, Value.ofJsonItems, List.mapM_cons, (h i (by simp)).keep.2,
      ih fun j hm => h j (by simp [hm])]
    rfl

/-- The imports of a file that is not remembered, as they are found from a store. -/
def findImports (g : ImportGraph) (src : Sources) (s : Store) (key : Text) :
    Except Fault (List ResolvedImport) := do
  ResolvedImport.all src.files g.root g.aliases (← outcome (Store.parse src key s))

/-- The store `s` remembers all that `s0` does. What it remembers beyond that is what would be found
from `s0`. -/
structure Ahead (g : ImportGraph) (src : Sources) (s0 s : Store) : Prop where
  ready : Ready s
  parsed : ∀ key, s.parsed? key = s0.parsed? key ∨ s0.parsed? key = none ∧
    ∃ parsed, src.parseFile (Path.parse key) = .ok parsed ∧ s.parsed? key = some parsed
  imports : ∀ fields0 fields, s0.slotAt? importsPath = some (.obj fields0) →
    s.slotAt? importsPath = some (.obj fields) → ∀ key, look key fields = look key fields0 ∨
      look key fields0 = .null ∧ ∃ found, g.findImports src s0 key = .ok found ∧
        look key fields = .arr (found.map ResolvedImport.toJson)

section

variable {g : ImportGraph} {src : Sources} {s0 s : Store}

theorem Ahead.refl (h : Ready s0) : Ahead g src s0 s0 where
  ready := h
  parsed _ := .inl rfl
  imports fields0 fields h0 h key := by
    cases h0.symm.trans h
    exact .inl rfl

/-- An open store is active. -/
theorem Ready.exists_active (h : Ready s) :
    ∃ name cache slots, s = .active name ⟨some cache, slots⟩ := by
  obtain ⟨fields, hs⟩ := h.imports
  cases s with
  | fresh => cases hs
  | ended name => cases hs
  | active name a =>
    obtain ⟨cache, slots⟩ := a
    obtain ⟨cache, rfl⟩ := Option.isSome_iff_exists.mp h.cached
    exact ⟨name, cache, slots, rfl⟩

/-- What was parsed may be added to the parsed files. -/
theorem Ahead.insert_parsed {name : Text} {cache : ParseCache} {slots : List (AccessPath × Json)}
    (h : Ahead g src s0 (.active name ⟨cache, slots⟩)) {key : Text} {parsed : ParsedFile}
    (hkey : Assoc.get? key cache = none)
    (hparsed : src.parseFile (Path.parse key) = .ok parsed) :
    Ahead g src s0 (.active name ⟨some (Assoc.insert key parsed cache), slots⟩) where
  ready := ⟨⟨h.ready.wellFormed.proper, h.ready.wellFormed.apart, h.ready.wellFormed.kept⟩, rfl,
    h.ready.imports, h.ready.reached⟩
  parsed other := by
    change Assoc.get? other (Assoc.insert key parsed cache) = _ ∨ _ ∧
      ∃ _, _ ∧ Assoc.get? other (Assoc.insert key parsed cache) = _
    rw [Assoc.get?_insert]
    by_cases ho : other = key
    · subst ho
      rw [if_pos rfl]
      have hnone : s0.parsed? other = none := by
        rcases h.parsed other with he | ⟨hnone, -⟩
        · rw [← he]
          exact hkey
        · exact hnone
      exact .inr ⟨hnone, parsed, hparsed, rfl⟩
    · rw [if_neg ho]
      exact h.parsed other
  imports := h.imports

/-- Parsing gives the same from every store that is ahead. -/
theorem gives_parse (hn : src.files.StartsProper) (h0 : Ready s0) (file : Text) :
    Gives (Ahead g src s0) (Store.parse src file) (outcome (Store.parse src file s0)) := by
  intro s hs
  obtain ⟨name0, cache0, slots0, rfl⟩ := h0.exists_active
  obtain ⟨name, cache, slots, rfl⟩ := hs.ready.exists_active
  rw [parse_active, parse_active]
  cases hp : src.files.resolve (Path.parse file) with
  | error e => exact ⟨rfl, hs⟩
  | ok p =>
    dsimp only
    have hread := Files.parse_text_of_resolve hn hp
    rcases hs.parsed p.text with he | ⟨hnone, parsed, hparsed, he⟩
    · change Assoc.get? p.text cache = Assoc.get? p.text cache0 at he
      rw [← he]
      cases hc : Assoc.get? p.text cache with
      | some parsed => exact ⟨rfl, hs⟩
      | none =>
        dsimp only
        cases hf : src.parseFile p with
        | error e => exact ⟨rfl, hs⟩
        | ok parsed => exact ⟨rfl, hs.insert_parsed hc (by rw [hread]; exact hf)⟩
    · change Assoc.get? p.text cache = some parsed at he
      change Assoc.get? p.text cache0 = none at hnone
      rw [hread] at hparsed
      rw [he, hnone, hparsed]
      exact ⟨rfl, hs⟩

variable {p : Path} {file : Text}

/-- The text of a resolved path is a key. -/
theorem isKey_of_resolve (hn : fs.StartsProper) {q : Path} (h : fs.resolve p = .ok q) :
    q.text.isEmpty = false := by
  have habs := (Files.proper_of_resolve hn h).1
  obtain ⟨anchor, names⟩ := q
  cases anchor with
  | relative => exact absurd habs (by simp [Path.isAbsolute])
  | root => rfl
  | doubleRoot => rfl

/-- What was found may be remembered. -/
theorem Ahead.remember (h0 : Ready s0) (h : Ahead g src s0 s) {key : Text}
    (hkey : key.joined = key) (hfound : g.findImports src s0 key = .ok found)
    (hlooked : ∀ i ∈ found, i.LookedAt src.files)
    (hnew : ∀ fields, s.slotAt? importsPath = some (.obj fields) → look key fields = .null) :
    ∃ t, remember importsPath key (found.map ResolvedImport.toValue) s = .ok () t ∧
      Ahead g src s0 t := by
  obtain ⟨fields0, hs0⟩ := h0.imports
  obtain ⟨fields, hs⟩ := h.ready.imports
  obtain ⟨t, ht, hw, hc, hslots, hparsed⟩ := remember_apply h.ready.wellFormed hs (by decide)
    (by decide) hkey (by decide) (Value.keepWithin_list fun i hi => (hlooked i hi).keep.1)
  have himports : t.slotAt? importsPath =
      some (.obj (Assoc.insert key (.arr (found.map ResolvedImport.toJson)) fields)) := by
    rw [hslots, if_pos rfl]
  refine ⟨t, ht, ⟨hw, hc.trans h.ready.cached, ⟨_, himports⟩, ?_⟩, ?_, ?_⟩
  · rw [hslots, if_neg (by decide)]
    exact h.ready.reached
  · intro other
    rw [hparsed]
    exact h.parsed other
  · intro fields1 fields2 h1 h2 other
    cases hs0.symm.trans h1
    cases himports.symm.trans h2
    rw [look_insert]
    have hold := h.imports fields0 fields hs0 hs
    by_cases ho : other = key
    · subst ho
      rw [if_pos rfl]
      have hnull : look other fields0 = .null := by
        rcases hold other with he | ⟨he, -⟩
        · rw [← he, hnew fields hs]
        · exact he
      exact .inr ⟨hnull, found, hfound, rfl⟩
    · rw [if_neg ho]
      exact hold other

theorem imports_of_error {e : Fault} (hp : src.files.resolve (Path.parse file) = .error e) :
    g.imports src file s = .error e s := by
  unfold imports
  rw [bind_of_error (StoreM.lift_of_error hp s)]

theorem reached_of_error {e : Fault} (hp : src.files.resolve (Path.parse file) = .error e) :
    g.reached src file s = .error e s := by
  unfold reached
  rw [bind_of_error (StoreM.lift_of_error hp s)]

/-- The imports of a file that is remembered are read from their record. -/
theorem imports_of_remembered {v : Json} (hp : src.files.resolve (Path.parse file) = .ok p)
    (hr : remembered importsPath p.text s = .ok (.ofJson v) s) (hv : v ≠ .null) :
    g.imports src file s = StoreM.lift (recollect v) s := by
  unfold imports
  rw [bind_of_ok (StoreM.lift_of_ok hp s), bind_of_ok hr]
  cases v with
  | null => exact absurd rfl hv
  | _ => rfl

theorem lookedAt_of_findImports (hroot : Imports.IsRoot g.root)
    (h : g.findImports src s0 file = .ok found) : ∀ i ∈ found, i.LookedAt src.files := by
  obtain ⟨parsed, -, hall⟩ := bind_ok_iff.mp h
  exact ResolvedImport.lookedAt_of_all hroot hall

/-- Where nothing is remembered of a file yet, it is parsed, and its imports are remembered. -/
theorem imports_of_unremembered (hn : src.files.StartsProper) (hroot : Imports.IsRoot g.root)
    (h0 : Ready s0) (hp : src.files.resolve (Path.parse file) = .ok p) (hs : Ahead g src s0 s)
    {fields : List (Text × Json)} (hf : s.slotAt? importsPath = some (.obj fields))
    (hv : look p.text fields = .null) :
    outcome (g.imports src file s) = g.findImports src s0 p.text ∧
      Ahead g src s0 (endState (g.imports src file s)) := by
  have hr := remembered_apply hs.ready.wellFormed hf (isKey_of_resolve hn hp)
  rw [hv] at hr
  unfold imports
  rw [bind_of_ok (StoreM.lift_of_ok hp s), bind_of_ok hr]
  dsimp only [Value.ofJson]
  have hparse := gives_parse (g := g) hn h0 p.text
  unfold findImports
  cases ho : outcome (Store.parse src p.text s0) with
  | error e =>
    rw [ho] at hparse
    obtain ⟨t, ht, hahead⟩ := hparse.of_error hs
    rw [bind_of_error ht]
    exact ⟨rfl, hahead⟩
  | ok parsed =>
    rw [ho] at hparse
    obtain ⟨t, ht, hahead⟩ := hparse.of_ok hs
    rw [bind_of_ok ht]
    cases hall : ResolvedImport.all src.files g.root g.aliases parsed with
    | error e =>
      rw [bind_of_error (StoreM.lift_of_error rfl t)]
      exact ⟨hall.symm, hahead⟩
    | ok found =>
      have hfound : g.findImports src s0 p.text = .ok found := by
        unfold findImports
        rw [ho]
        exact hall
      have htable : ∀ fields', t.slotAt? importsPath = some (.obj fields') →
          look p.text fields' = .null := by
        intro fields' hf'
        have hkeep := (KeepsSlots.parse (K := fun _ => True) src p.text).of_ok ht
        rw [hkeep importsPath trivial, hf] at hf'
        cases hf'
        exact hv
      obtain ⟨u, hu, hahead'⟩ := hahead.remember h0 (Files.joined_of_resolve hp) hfound
        (lookedAt_of_findImports hroot hfound) htable
      rw [bind_of_ok (StoreM.lift_of_ok rfl t), bind_of_ok hu]
      exact ⟨hall.symm, hahead'⟩

/-- The imports of a file are the same from every store that is ahead: those that `s0` remembers
or else those that are found. -/
theorem imports_of_ahead (hn : src.files.StartsProper) (hroot : Imports.IsRoot g.root)
    (h0 : Ready s0) {fields0 : List (Text × Json)}
    (hs0 : s0.slotAt? importsPath = some (.obj fields0))
    (hp : src.files.resolve (Path.parse file) = .ok p) :
    (look p.text fields0 = .null →
      Gives (Ahead g src s0) (g.imports src file) (g.findImports src s0 p.text)) ∧
    (look p.text fields0 ≠ .null →
      Gives (Ahead g src s0) (g.imports src file) (recollect (look p.text fields0))) := by
  have hkey := isKey_of_resolve hn hp
  constructor
  · intro hnull s hs
    obtain ⟨fields, hf⟩ := hs.ready.imports
    by_cases hv : look p.text fields = .null
    · exact imports_of_unremembered hn hroot h0 hp hs hf hv
    · -- It was remembered on the way, so it is read back.
      have hr := remembered_apply hs.ready.wellFormed hf hkey
      rw [imports_of_remembered hp hr hv]
      rcases hs.imports fields0 fields hs0 hf p.text with he | ⟨-, found, hfound, he⟩
      · exact absurd (he.trans hnull) hv
      · rw [he, hfound,
          StoreM.lift_of_ok (recollect_imports (lookedAt_of_findImports hroot hfound)) s]
        exact ⟨rfl, hs⟩
  · intro hne s hs
    obtain ⟨fields, hf⟩ := hs.ready.imports
    have hr := remembered_apply hs.ready.wellFormed hf hkey
    have he : look p.text fields = look p.text fields0 := by
      rcases hs.imports fields0 fields hs0 hf p.text with he | ⟨he, -⟩
      · exact he
      · exact absurd he hne
    rw [he] at hr
    rw [imports_of_remembered hp hr hne]
    exact Gives.lift _ s hs

/-- The imports of a file are the same from every store that is ahead. -/
theorem gives_imports (hn : src.files.StartsProper) (hroot : Imports.IsRoot g.root) (h0 : Ready s0)
    (file : Text) :
    Gives (Ahead g src s0) (g.imports src file) (outcome (g.imports src file s0)) := by
  cases hp : src.files.resolve (Path.parse file) with
  | error e =>
    intro s hs
    rw [imports_of_error hp, imports_of_error hp]
    exact ⟨rfl, hs⟩
  | ok p =>
    obtain ⟨fields0, hs0⟩ := h0.imports
    obtain ⟨hfind, hrecall⟩ := imports_of_ahead (g := g) hn hroot h0 hs0 hp
    by_cases hnull : look p.text fields0 = .null
    · rw [(hfind hnull s0 (.refl h0)).1]
      exact hfind hnull
    · rw [(hrecall hnull s0 (.refl h0)).1]
      exact hrecall hnull

end

end ImportGraph

end RoutePlugins
