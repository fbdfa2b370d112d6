import RoutePlugins.Proofs.Imports.Closure
import RoutePlugins.Proofs.Store.ParseCaches

/-!
# Asking a graph again

A graph remembers the imports of files and the files that are reached from others, and its store
remembers what was parsed. None of this shows: over the same files, every question is answered as a
new graph over a new store would answer it, whatever was asked before and whether or not that could
be answered.
-/

namespace RoutePlugins

variable {file entry : Text}

/-! ### Settled texts -/

namespace Text

/-- A text is settled if what stands between its slashes is. -/
theorem settled_of_parse {t : Text} (h : ∀ name ∈ (Path.parse t).names, name.Settled) :
    t.Settled := by
  intro p hm q
  by_cases hp : p = .char '/'
  · rw [hp]
    rfl
  obtain ⟨piece, hpiece, hin⟩ := mem_piece_iff.mpr ⟨hm, hp⟩
  by_cases hdot : (Text.mk piece).isEmpty || Text.mk piece == "."
  · -- What reading a path leaves out is nothing or a dot.
    rcases Bool.or_eq_true_iff.mp hdot with he | he
    · have hpoints : piece = [] := List.isEmpty_iff.mp he
      rw [hpoints] at hin
      cases hin
    · have hpoints : piece = [.char '.'] := congrArg Text.points (beq_iff_eq.mp he)
      rw [hpoints, List.mem_singleton] at hin
      rw [hin]
      rfl
  · refine h ⟨piece⟩ (List.mem_filter.mpr ⟨List.mem_map_of_mem hpiece, ?_⟩) p hin q
    rw [Bool.not_eq_true] at hdot
    rw [hdot]
    rfl

end Text

namespace ImportGraph

open Store

/-- What a graph is asked for: the imports of a file, or the files reached from one. -/
inductive Question where
  | imports (file : Text)
  | reached (entry : Text)

/-- What a graph answers. -/
inductive Answer where
  | imports (found : List ResolvedImport)
  | reached (files : List Value)

/-- Ask a graph. -/
def ask (g : ImportGraph) (src : Sources) : Question → StoreM Answer
  | .imports file => do return .imports (← g.imports src file)
  | .reached entry => do return .reached (← g.reached src entry)

/-- What a graph answers, or fails with, as it is asked for one thing after another. -/
def answers (g : ImportGraph) (src : Sources) : List Question → Store → List (Except Fault Answer)
  | [], _ => []
  | q :: rest, s => outcome (g.ask src q s) :: g.answers src rest (endState (g.ask src q s))

/-- The store after a graph was asked for one thing after another. -/
def asked (g : ImportGraph) (src : Sources) (questions : List Question) (s : Store) : Store :=
  questions.foldl (fun s q => endState (g.ask src q s)) s

variable {g : ImportGraph} {src : Sources} {s0 s t : Store}

/-! ### What is remembered -/

theorem Blank.records (h : Blank s) : records s = [] := by
  have hget : s.get importsPath.toValue = .ok (.map []) :=
    Store.get_of_slotAt (by decide) (by decide) h.imports
  rw [ImportGraph.records, hget]
  rfl

/-- No import of a file is of a path from a root with double dots in it. -/
theorem Blank.flat (hn : src.files.StartsProper) (hroot : Imports.IsRoot g.root) (h0 : Blank s0)
    {found : List ResolvedImport} (h : outcome (g.imports src file s0) = .ok found) :
    ∀ i ∈ found, (Path.parse i.file).Flat := by
  rcases found_or_recorded hn hroot h0.ready h with ⟨_, hall⟩ | h
  · exact ResolvedImport.flat_of_all hroot hall
  · intro i hi
    obtain ⟨item, hm, -⟩ := h i hi
    rw [h0.records] at hm
    cases hm

/-- A file that is entered has a settled text. -/
theorem settled_of_isEntered {fs : Files} (h : g.isEntered fs (Path.parse file) = .ok true) :
    file.Settled := by
  have hfile : fs.isFile (Path.parse file) = .ok true := by
    unfold isEntered at h
    split at h
    · cases h
    · obtain ⟨b, hb, h⟩ := bind_ok_iff.mp h
      cases b with
      | true => exact hb
      | false => cases h
  exact Text.settled_of_parse (Path.settled_names (Files.settled_of_foundWith hfile))

/-- The files that a search finds are remembered as they are. -/
theorem joined_of_search (hentry : entry.joined = entry) {files : List Text}
    (h : DepthFirst (g.following src s entry) ∅ [entry] (.ok files)) :
    (files.map fun f => Json.str f.joined) = files.map .str := by
  refine List.map_congr_left fun f hf => congrArg Json.str ?_
  cases (h.mem_iff f).mp hf with
  | refl => exact hentry
  | tail _ hfollows =>
    obtain ⟨children, hc, hm⟩ := hfollows
    obtain ⟨found, -, hc⟩ := bind_ok_iff.mp hc
    obtain ⟨-, rfl⟩ := entered_eq_ok_iff.mp hc
    obtain ⟨hm, -⟩ := List.mem_filter.mp hm
    obtain ⟨-, he⟩ := List.mem_filter.mp hm
    exact (settled_of_isEntered (enters_iff.mp he)).joined

section

variable (hn : src.files.StartsProper)

include hn

/-- A store that is ahead of one that is ahead is ahead. -/
theorem Ahead.trans (h0 : Ready s0) (h : Ahead g src s0 s) (h' : Ahead g src s t) :
    Ahead g src s0 t where
  ready := h'.ready
  parsed key := by
    rcases h'.parsed key with he | ⟨hnone, parsed, hparsed, ht⟩
    · rw [he]
      exact h.parsed key
    · rcases h.parsed key with he | ⟨-, other, -, hs⟩
      · exact .inr ⟨he ▸ hnone, parsed, hparsed, ht⟩
      · rw [hs] at hnone
        cases hnone
  imports fields0 fields hs0 ht key := by
    obtain ⟨fields1, hs⟩ := h.ready.imports
    rcases h'.imports fields1 fields hs ht key with he | ⟨hnull, found, hfound, he⟩
    · rw [he]
      exact h.imports fields0 fields1 hs0 hs key
    · have hfound0 : g.findImports src s0 key = .ok found := by
        rw [← hfound, findImports, findImports, (gives_parse hn h0 key s h).1]
      rcases h.imports fields0 fields1 hs0 hs key with he' | ⟨-, other, -, he'⟩
      · exact .inr ⟨he' ▸ hnull, found, hfound0, he⟩
      · rw [he'] at hnull
        cases hnull

variable (hroot : Imports.IsRoot g.root) (h0 : Ready s0)

include hroot h0

theorem following_of_ahead (h : Ahead g src s0 s) (entry : Text) :
    g.following src s entry = g.following src s0 entry := by
  funext u
  rw [following, following, (gives_imports hn hroot h0 u s h).1]

end

/-- The store `s` is ahead of `s0`. The files that it remembers to be reached from a file are those
that `s0` remembers, or else those that would be found from `s0`. -/
structure Later (g : ImportGraph) (src : Sources) (s0 s : Store) : Prop extends
    Ahead g src s0 s where
  reached : ∀ fields0 fields, s0.slotAt? reachedPath = some (.obj fields0) →
    s.slotAt? reachedPath = some (.obj fields) → ∀ key, look key fields = look key fields0 ∨
      look key fields0 = .null ∧ ∃ files : List Text, look key fields = .arr (files.map .str) ∧
        DepthFirst (g.following src s0 key) ∅ [key] (.ok files)

theorem Later.refl (h : Ready s0) : Later g src s0 s0 where
  toAhead := .refl h
  reached fields0 fields hs0 hs key := by
    cases hs0.symm.trans hs
    exact .inl rfl

/-- What is remembered stays right while the files that are reached are not written to. -/
theorem Later.of_ahead (h : Later g src s0 s) (ht : Ahead g src s0 t)
    (hslot : t.slotAt? reachedPath = s.slotAt? reachedPath) : Later g src s0 t where
  toAhead := ht
  reached fields0 fields hs0 hs := h.reached fields0 fields hs0 (hslot ▸ hs)

/-- The files that are remembered for an entry are given as they are. -/
theorem reached_of_remembered {p : Path} {v : Json}
    (hp : src.files.resolve (Path.parse entry) = .ok p)
    (hr : remembered reachedPath p.text s = .ok (.ofJson v) s) (hv : v ≠ .null) :
    g.reached src entry s = StoreM.lift (Value.ofJson v).elements s := by
  unfold ImportGraph.reached
  rw [bind_of_ok (StoreM.lift_of_ok hp s), bind_of_ok hr]
  cases v with
  | null => exact absurd rfl hv
  | _ => rfl

section

variable (hn : src.files.StartsProper)
  (hroot : Imports.IsRoot g.root) (h0 : Ready s0)

include hn hroot h0

omit hroot in
/-- Parsing gives the same at any time. -/
theorem gives_parse_of_later (file : Text) :
    Gives (Later g src s0) (Store.parse src file) (outcome (Store.parse src file s0)) := by
  intro s hs
  obtain ⟨hout, hend⟩ := gives_parse hn h0 file s hs.toAhead
  have hslots := KeepsSlots.parse (K := fun _ => True) src file s
  exact ⟨hout, hs.of_ahead hend (hslots reachedPath trivial)⟩

/-- The imports of a file are the same at any time. -/
theorem gives_imports_of_later (file : Text) :
    Gives (Later g src s0) (g.imports src file) (outcome (g.imports src file s0)) := by
  intro s hs
  obtain ⟨hout, hend⟩ := gives_imports hn hroot h0 file s hs.toAhead
  have hslots := g.moves_imports (R := KeepsSlots (· = reachedPath))
    (KeepsSlots.parse src) (KeepsSlots.writesMove (by decide) (by decide)).merge file s
  exact ⟨hout, hs.of_ahead hend (hslots reachedPath rfl)⟩

/-- What is reached from an entry for which nothing is remembered is found by the same search at any
time, and is remembered from then on. -/
theorem reached_of_later_null (hs : Later g src s0 s) {fields : List (Text × Json)}
    (hfields : s.slotAt? reachedPath = some (.obj fields)) {p : Path}
    (hp : src.files.resolve (Path.parse entry) = .ok p) (hnull : look p.text fields = .null) :
    ∃ r, DepthFirst (g.following src s0 p.text) ∅ [p.text] r ∧
      outcome (g.reached src entry s) = r.map (List.map .str) ∧
      Later g src s0 (endState (g.reached src entry s)) := by
  obtain ⟨r, hsearch, herror, hok⟩ := reached_of_null hn hroot hs.ready (.refl hs.ready) le_rfl
    hfields hp hnull
  rw [following_of_ahead hn hroot h0 hs.toAhead] at hsearch
  refine ⟨r, hsearch, ?_⟩
  cases r with
  | error e =>
    obtain ⟨t, ht, hahead, hslot⟩ := herror e rfl
    rw [ht]
    exact ⟨rfl, hs.of_ahead (hs.toAhead.trans hn h0 hahead) (hslot.trans hfields.symm)⟩
  | ok files =>
    obtain ⟨t, ht, hahead, hslot⟩ := hok files rfl
    rw [ht]
    refine ⟨rfl, hs.toAhead.trans hn h0 hahead, fun fields0 fields' hs0 ht' key => ?_⟩
    cases hslot.symm.trans ht'
    rw [look_insert]
    by_cases hkey : key = p.text
    · subst hkey
      rw [if_pos rfl, joined_of_search (Files.joined_of_resolve hp) hsearch]
      have hnull0 : look p.text fields0 = .null := by
        rcases hs.reached fields0 fields hs0 hfields p.text with he | ⟨he, -⟩
        · rw [← he, hnull]
        · exact he
      exact .inr ⟨hnull0, files, rfl, hsearch⟩
    · rw [if_neg hkey]
      exact hs.reached fields0 fields hs0 hfields key

/-- What is reached from an entry is the same at any time. -/
theorem gives_reached_of_later (entry : Text) :
    Gives (Later g src s0) (g.reached src entry) (outcome (g.reached src entry s0)) := by
  intro s hs
  cases hp : src.files.resolve (Path.parse entry) with
  | error e =>
    rw [reached_of_error hp, reached_of_error hp]
    exact ⟨rfl, hs⟩
  | ok p =>
    have hkey := isKey_of_resolve hn hp
    obtain ⟨fields0, hs0⟩ := h0.reached
    obtain ⟨fields, hfields⟩ := hs.ready.reached
    have hr := remembered_apply hs.ready.wellFormed hfields hkey
    have hr0 := remembered_apply h0.wellFormed hs0 hkey
    by_cases hnull0 : look p.text fields0 = .null
    · obtain ⟨r0, hsearch0, hout0, -⟩ := reached_of_later_null hn hroot h0 (.refl h0) hs0 hp hnull0
      rw [hout0]
      by_cases hnull : look p.text fields = .null
      · obtain ⟨r, hsearch, hout, hend⟩ := reached_of_later_null hn hroot h0 hs hfields hp hnull
        rw [hout, hsearch.unique hsearch0]
        exact ⟨rfl, hend⟩
      · rcases hs.reached fields0 fields hs0 hfields p.text with he | ⟨-, files, he, hsearch⟩
        · exact absurd (he.trans hnull0) hnull
        · rw [reached_of_remembered hp hr hnull, he, hsearch0.unique hsearch]
          refine ⟨congrArg Except.ok ?_, hs⟩
          rw [Value.ofJsonItems_eq_map, List.map_map]
          rfl
    · have he : look p.text fields = look p.text fields0 := by
        rcases hs.reached fields0 fields hs0 hfields p.text with he | ⟨he, -⟩
        · exact he
        · exact absurd he hnull0
      rw [he] at hr
      rw [reached_of_remembered hp hr hnull0, reached_of_remembered hp hr0 hnull0]
      cases (Value.ofJson (look p.text fields0)).elements with
      | ok items => exact ⟨rfl, hs⟩
      | error e => exact ⟨rfl, hs⟩

/-- Every question is answered the same, whatever was asked before. -/
theorem gives_ask (q : Question) :
    Gives (Later g src s0) (g.ask src q) (outcome (g.ask src q s0)) := by
  cases q with
  | imports file =>
    have h := (gives_imports_of_later hn hroot h0 file).map Answer.imports
    rwa [← outcome_bind_pure] at h
  | reached entry =>
    have h := (gives_reached_of_later hn hroot h0 entry).map Answer.reached
    rwa [← outcome_bind_pure] at h

theorem Later.asked (questions : List Question) (hs : Later g src s0 s) :
    Later g src s0 (g.asked src questions s) := by
  induction questions generalizing s with
  | nil => exact hs
  | cons q rest ih => exact ih (gives_ask hn hroot h0 q s hs).2

/-- So are all questions in turn. -/
theorem answers_eq_map (questions : List Question) (hs : Later g src s0 s) :
    g.answers src questions s = questions.map fun q => outcome (g.ask src q s0) := by
  induction questions generalizing s with
  | nil => rfl
  | cons q rest ih =>
    obtain ⟨hout, hend⟩ := gives_ask hn hroot h0 q s hs
    rw [answers, hout, ih hend]
    rfl

end

/-! ### What is reached -/

/-- It is told of every import that a graph gives, if it was only asked, whether its file is
entered. -/
theorem Blank.told (hn : src.files.StartsProper) (hroot : Imports.IsRoot g.root) (h0 : Blank s0)
    (hs : Later g src s0 s) {found : List ResolvedImport}
    (h : outcome (g.imports src file s) = .ok found) :
    ∀ i ∈ found, ∃ b, g.isEntered src.files (Path.parse i.file) = .ok b := by
  rw [(gives_imports hn hroot h0.ready file s hs.toAhead).1] at h
  intro i hi
  rcases lookedAt_or_recorded hn hroot h0.ready h with hlooked | hrecord
  · exact (hlooked i hi).isEntered g
  · obtain ⟨item, hm, -⟩ := hrecord i hi
    rw [h0.records] at hm
    cases hm

theorem ofJson_eq_null {j : Json} (h : Value.ofJson j = .null) : j = .null := by
  cases j with
  | null => rfl
  | _ => cases h

namespace Sample

/-- The tree of a file that is a quoted specifier, read as an import from it. -/
def quotedImport (source : Bytes) : Node :=
  let stop := source.length
  let clause : Node := ⟨"import_clause", true, none, 0, 0, [⟨"identifier", true, none, 0, 0, []⟩]⟩
  let fragment : Node := ⟨"string_fragment", true, none, 1, stop - 1, []⟩
  let specifier : Node := ⟨"string", true, some "source", 0, stop, [fragment]⟩
  ⟨"program", true, none, 0, stop, [⟨"import_statement", true, none, 0, stop, [clause, specifier]⟩]⟩

/-- Two files that import each other: `'./b'` stands in the one and `'./a'` in the other. -/
def cycle : Sources where
  files := ⟨[(["proj"], .directory), (["proj", "a.ts"], .file [39, 46, 47, 98, 39]),
    (["proj", "b.ts"], .file [39, 46, 47, 97, 39])], ["proj"]⟩
  parser _ source := quotedImport source

/-- Both files, beginning with the second. -/
def cycleFiles : List Text := ["/proj/b.ts", "/proj/a.ts"]

def projectGraph : ImportGraph := ⟨⟨.root, ["proj"]⟩, none⟩

/-- A store with the empty tables of a graph. -/
def emptyTables : Store := .active "p" ⟨some [], [(importsPath, .obj []), (reachedPath, .obj [])]⟩

theorem blank_emptyTables : Blank emptyTables where
  wellFormed := by
    have hkept : (Json.obj []).Stored := Value.stored_of_keep (v := .map []) rfl
    have himports : Arena.WellFormed ⟨some [], [(importsPath, .obj [])]⟩ :=
      (Arena.wellFormed_empty _).append (by decide) (by decide) hkept
    exact himports.append (by decide) (by decide) hkept
  cached := rfl
  imports := rfl
  reached := rfl

/-- The imports of one of the files: one of a file with a name of 300 letters. -/
def longImport : Value :=
  .map [(.str "/proj/a.ts", .list [.map [
    (.str "file", .str ("/" ++ ⟨List.replicate 300 (.char 'a')⟩ ++ ".ts")),
    (.str "exportName", .str "default")]])]

/-- The texts among some values. -/
def textsOf (values : List Value) : List Text :=
  values.filterMap fun
    | .str t => some t
    | _ => none

end Sample

open Sample

section

variable (hn : src.files.StartsProper)

include hn

/-- What a store parses is what the parser gives. -/
theorem outcome_parse_of_sound (hs : Ready s) (hsound : s.Sound src) (file : Text) :
    outcome (Store.parse src file s) = src.files.resolve (Path.parse file) >>= src.parseFile := by
  obtain ⟨name, cache, slots, rfl⟩ := hs.exists_active
  obtain ⟨e, he, hparse⟩ | ⟨parsed, after, he, hparse, -⟩ :=
    parse_of_sound hn (sound_active.mp hsound) file
  · rw [hparse, he, outcome_error]
  · rw [hparse, he, outcome_ok]

variable (hroot : Imports.IsRoot g.root) (hs : Blank s) (ht : Blank t) (hsound : s.Sound src)
  (hsound' : t.Sound src)

include hroot hs ht hsound hsound'

theorem outcome_imports_eq (file : Text) :
    outcome (g.imports src file s) = outcome (g.imports src file t) := by
  cases hp : src.files.resolve (Path.parse file) with
  | error e =>
    rw [imports_of_error hp, imports_of_error hp]
    rfl
  | ok p =>
    have hfind {u : Store} (hu : Blank u) :
        outcome (g.imports src file u) = g.findImports src u p.text :=
      ((imports_of_ahead hn hroot hu.ready hu.imports hp).1 rfl u (.refl hu.ready)).1
    rw [hfind hs, hfind ht, findImports, findImports, outcome_parse_of_sound hn hs.ready hsound,
      outcome_parse_of_sound hn ht.ready hsound']

/-- A question is answered the same from two stores that have parsed different files. -/
theorem outcome_ask_eq (q : Question) : outcome (g.ask src q s) = outcome (g.ask src q t) := by
  have himports := outcome_imports_eq hn hroot hs ht hsound hsound'
  cases q with
  | imports file =>
    rw [ask, outcome_bind_pure, outcome_bind_pure, himports]
  | reached entry =>
    rw [ask, outcome_bind_pure, outcome_bind_pure]
    congr 1
    cases hp : src.files.resolve (Path.parse entry) with
    | error e =>
      rw [reached_of_error hp, reached_of_error hp]
      rfl
    | ok p =>
      obtain ⟨r, hsearch, hout, -⟩ := reached_of_later_null hn hroot hs.ready (.refl hs.ready)
        hs.reached hp rfl
      obtain ⟨r', hsearch', hout', -⟩ := reached_of_later_null hn hroot ht.ready (.refl ht.ready)
        ht.reached hp rfl
      have hfollowing : g.following src t p.text = g.following src s p.text := by
        funext u
        rw [following, following, himports]
      rw [hfollowing] at hsearch'
      rw [hout, hout', hsearch.unique hsearch']

end

/-- A graph is put over a store that was just started as soon as its root resolves. -/
theorem attach_started {fs : Files} {root q : Path} (hq : fs.resolve root = .ok q)
    (aliases : Option Aliases) (name : Text) (cache : ParseCache) :
    attach fs root aliases (.active name ⟨cache, []⟩) = .ok ⟨q, aliases⟩
      (.active name ⟨cache, [(importsPath, .obj []), (reachedPath, .obj [])]⟩) := by
  unfold attach
  rw [bind_of_ok (StoreM.lift_of_ok hq _),
    bind_of_ok (ensureRegistered_apply (by decide) (by decide) rfl),
    bind_of_ok (ensureRegistered_apply (by decide) (by decide) rfl)]
  rfl

/-- A graph answers whatever it is asked, one thing after another, as a new graph would over a store
that was just started: what is given and what fails is the same each time. The store may hold other
values, and its parsed files may be from before, or those of another store. -/
theorem answers_eq_fresh (src : Sources) (root : Path) (aliases : Option Aliases) (s s1 : Store)
    (g : ImportGraph) (hn : ∀ name ∈ src.files.workingDirectory, Files.ProperName name)
    (hs : s.WellFormed) (hsound : ∃ cache, s.parseCache = .ok cache ∧ src.Sound cache)
    (himports : importsPath ∉ s.registered) (hreached : reachedPath ∉ s.registered)
    (hattach : attach src.files root aliases s = .ok g s1)
    (questions : List Question) (title : Value) (started : Store)
    (hstarted : Store.start title [] = .ok started) :
    ∃ t, attach src.files root aliases started = .ok g t ∧
      g.answers src questions s1 = questions.map fun q => outcome (g.ask src q t) := by
  obtain ⟨cache, hcache, hsound⟩ := hsound
  obtain ⟨hblank, hresolve, rfl, -⟩ :=
    blank_of_attach hs (isCached_of_parseCache hcache) himports hreached hattach
  have hroot := Imports.isRoot_of_resolve hn hresolve
  have hsound1 := (sound_attach src.files root g.aliases).of_ok hattach
    fun _ h => Except.ok.inj (hcache.symm.trans h) ▸ hsound
  obtain ⟨name, -, rfl⟩ := clear_eq_ok.mp hstarted
  have ht := attach_started hresolve g.aliases name []
  obtain ⟨hblank', -⟩ := blank_of_attach (.clear hstarted) rfl
    (show importsPath ∉ [parsedPath] by decide) (show reachedPath ∉ [parsedPath] by decide) ht
  refine ⟨_, ht, ?_⟩
  rw [answers_eq_map hn hroot hblank.ready questions (.refl hblank.ready)]
  exact List.map_congr_left fun q _ =>
    outcome_ask_eq hn hroot hblank hblank' hsound1 (sound_active.mpr .nil) q

namespace Sample

/-- One of two files that import each other, parsed. -/
def parsedFiles : ParseCache :=
  [("/proj/a.ts", cycle.parser.parse "/proj/a.ts" [39, 46, 47, 98, 39])]

/-- Questions about both files, and about one that is missing. -/
def questions : List Question :=
  [.reached "b.ts", .imports "c.ts", .reached "b.ts", .imports "a.ts", .reached "c.ts"]

end Sample

open Sample

/-- Questions, two of which fail, are put to a graph that remembers one parsed file at first. -/
theorem answers_eq_fresh_cycle :
    ∃ s1 t, attach cycle.files ⟨.root, ["proj"]⟩ none (.active "p" ⟨parsedFiles, []⟩) =
        .ok projectGraph s1 ∧
      attach cycle.files ⟨.root, ["proj"]⟩ none (.active "q" ⟨some [], []⟩) = .ok projectGraph t ∧
      projectGraph.answers cycle questions s1 =
        questions.map (fun q => outcome (projectGraph.ask cycle q t)) ∧
      (projectGraph.answers cycle questions s1).map (·.isOk) =
        [true, false, true, true, false] := by
  have hn : ∀ name ∈ cycle.files.workingDirectory, Files.ProperName name := by decide +kernel
  have hroot : cycle.files.resolve ⟨.root, ["proj"]⟩ = .ok projectGraph.root := by rfl
  have hattach := attach_started hroot none "p" parsedFiles
  have hsound : cycle.Sound parsedFiles := by
    intro key parsed hget
    obtain ⟨rfl, rfl⟩ := Prod.mk.inj (List.mem_singleton.mp (Assoc.mem_of_get? hget))
    rfl
  obtain ⟨t, ht, hanswers⟩ := answers_eq_fresh cycle _ none
    (.active "p" ⟨parsedFiles, []⟩) _ projectGraph hn (Arena.wellFormed_empty _)
    ⟨parsedFiles, rfl, hsound⟩ (show importsPath ∉ [parsedPath] by decide)
    (show reachedPath ∉ [parsedPath] by decide) hattach questions (.str "q") _ rfl
  exact ⟨_, t, hattach, ht, hanswers, by decide +kernel⟩

end ImportGraph

end RoutePlugins
