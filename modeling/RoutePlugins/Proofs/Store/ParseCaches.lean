import RoutePlugins.Proofs.Plugin.StagingTables

/-!
# Parsed files

A store hands on the files that were parsed through it. As long as every parsed file is what the
parser gives for the file at its path, it makes no difference which files were parsed before: a
parse gives the same. Resolving the routes, which parses the first files of a run, keeps to this.
-/

namespace RoutePlugins

open Files

/-- Every parsed file is what the parser gives for the file at its path. -/
def Sources.Sound (src : Sources) (cache : ParseCache) : Prop :=
  ∀ key parsed, Assoc.get? key cache = some parsed → src.parseFile (Path.parse key) = .ok parsed

/-- The parsed files of a store, if it is open, are sound. -/
def Store.Sound (src : Sources) (s : Store) : Prop :=
  ∀ cache, s.parseCache = .ok cache → src.Sound cache

variable {src : Sources}

theorem Sources.Sound.nil : src.Sound [] := by
  intro key parsed h
  cases h

/-- A file that has just been parsed may be added. -/
theorem Sources.Sound.insert (hn : src.files.StartsProper) {cache : ParseCache}
    (h : src.Sound cache) {p q : Path} {parsed : ParsedFile} (hq : src.files.resolve p = .ok q)
    (hparsed : src.parseFile q = .ok parsed) : src.Sound (Assoc.insert q.text parsed cache) := by
  intro key file hget
  rw [Assoc.get?_insert] at hget
  split at hget
  · next hk =>
    cases hget
    rw [hk, Files.parse_text_of_resolve hn hq]
    exact hparsed
  · exact h key file hget

namespace Store

variable {name : Text} {cache : ParseCache} {slots : List (AccessPath × Json)}

theorem sound_active : (active name ⟨cache, slots⟩).Sound src ↔ src.Sound cache := by
  constructor
  · intro h
    exact h _ rfl
  · rintro h cache ⟨⟩
    exact h

/-- What a parse gives with sound parsed files does not depend on them. -/
theorem parse_of_sound (hn : src.files.StartsProper) (h : src.Sound cache) (file : Text) :
    (∃ e, src.files.resolve (Path.parse file) >>= src.parseFile = .error e ∧
      Store.parse src file (.active name ⟨cache, slots⟩) = .error e (.active name ⟨cache, slots⟩)) ∨
    ∃ parsed after, src.files.resolve (Path.parse file) >>= src.parseFile = .ok parsed ∧
      Store.parse src file (.active name ⟨cache, slots⟩) =
        .ok parsed (.active name ⟨some after, slots⟩) ∧
      src.Sound after := by
  rw [parse_active]
  cases hq : src.files.resolve (Path.parse file) with
  | error e => exact .inl ⟨e, rfl, rfl⟩
  | ok q =>
    change (∃ e, src.parseFile q = .error e ∧ _) ∨ ∃ parsed after, src.parseFile q = .ok parsed ∧ _
    dsimp only
    cases hc : Assoc.get? q.text cache with
    | some parsed =>
      have hparsed := h q.text parsed hc
      rw [Files.parse_text_of_resolve hn hq] at hparsed
      exact .inr ⟨parsed, cache, hparsed, rfl, h⟩
    | none =>
      dsimp only
      cases hparsed : src.parseFile q with
      | error e => exact .inl ⟨e, rfl, rfl⟩
      | ok parsed => exact .inr ⟨parsed, _, rfl, rfl, h.insert hn hq hparsed⟩

theorem Sound.parse (hn : src.files.StartsProper) (file : Text) :
    Moves (Keeps (Sound src)) (Store.parse src file) := by
  intro s hs
  cases s with
  | fresh => exact hs
  | ended name => exact hs
  | active name a =>
    obtain ⟨⟨⟩ | cache, slots⟩ := a
    · obtain ⟨e, he⟩ := parse_uncached src file name slots
      rw [he]
      exact hs
    · obtain ⟨e, -, he⟩ | ⟨parsed, after, -, he, hc⟩ := parse_of_sound hn (sound_active.mp hs) file
      · rw [he]
        exact hs
      · rw [he]
        exact sound_active.mpr hc

theorem Changed.sound {s t : Store} {path : Value} {old new : Json} (h : s.Changed t path old new)
    (hs : s.Sound src) : t.Sound src := by
  obtain ⟨name, a, key, rfl, -, -, -, rfl⟩ := h
  exact fun cache hc => hs cache hc

theorem Sound.merge (path v : Value) :
    Moves (Keeps (Sound src)) (StoreM.change (·.merge path v)) :=
  StoreM.moves_change fun _ _ h => by
    obtain ⟨_, _, _, -, hc, -⟩ := merge_eq_ok.mp h
    exact hc.sound

theorem Sound.register (path initial : Value) :
    Moves (Keeps (Sound src))
      (StoreM.change fun s => (s.register path initial).map Prod.snd) :=
  StoreM.moves_change fun s t h hs => by
    cases hr : s.register path initial with
    | error e => simp [hr, Except.map] at h
    | ok r =>
      simp only [hr, Except.map, Except.ok.injEq] at h
      obtain ⟨name, a, v, rfl, -, -, -, ht⟩ := register_eq_ok.mp hr
      rw [← h, ht]
      exact fun cache hc => hs cache hc

end Store

/-! ### Resolving routes -/

section

open Store

variable (hn : src.files.StartsProper)

include hn

theorem Routes.sound_filesOf (g : ImportGraph) (entries files : List Text) :
    Moves (Keeps (Sound src)) (filesOf g src entries files) := by
  induction entries generalizing files with
  | nil => exact .pure _
  | cons entry rest ih =>
    have hreached := g.moves_reached (Sound.parse hn) (Sound.merge _) (Sound.merge _) entry
    exact hreached.bind fun _ => (Moves.lift _).bind fun _ => ih _

theorem Routes.sound_classify (files : List Text) (known : ClientCache) :
    Moves (Keeps (Sound src)) (classify src files known) := by
  induction files generalizing known with
  | nil => exact .pure _
  | cons f rest ih =>
    exact Moves.ite (ih _) ((Sound.parse hn f).bind fun _ => ih _)

theorem Routes.sound_build (g : ImportGraph) (groups : List Value) (known : ClientCache) :
    Moves (Keeps (Sound src)) (Routes.build g src groups known) := by
  induction groups generalizing known with
  | nil => exact .pure _
  | cons group rest ih =>
    refine (Moves.lift _).bind fun entries => (sound_filesOf hn g entries []).bind fun files => ?_
    refine (sound_classify hn files known).bind fun known => (Moves.lift _).bind fun name => ?_
    exact (ih known).bind fun _ => .pure _

end

theorem ImportGraph.sound_attach (fs : Files) (root : Path) (aliases : Option Aliases) :
    Moves (Keeps (Store.Sound src)) (attach fs root aliases) := by
  have hensure (path : AccessPath) (initial : Value) :
      Moves (Keeps (Store.Sound src)) (ensureRegistered path initial) :=
    (StoreM.moves_read _).bind fun _ => Moves.ite (Store.Sound.register _ _) (.pure _)
  exact (Moves.lift _).bind fun _ => (hensure _ _).bind fun _ => (hensure _ _).bind fun _ => .pure _

namespace Pipeline

variable {project : Project} {convention : Routes.Convention} {table : RouteTable}
  {cache : ParseCache}

/-- The routes depend on the files, the parser and the project alone. -/
theorem prepare_eq_ok {w w' : World} (h : prepare project convention w = .ok (table, cache) w') :
    ∃ snapshot s, resolveRoutes project convention w.sources .fresh =
      .ok (table, cache, snapshot) s := by
  unfold prepare at h
  obtain ⟨t, u, ⟨⟩, h⟩ := bind_eq_ok.mp h
  cases hr : resolveRoutes project convention w.sources .fresh with
  | error e s =>
    rw [hr] at h
    cases h
  | ok found s =>
    rw [hr] at h
    obtain ⟨⟨⟩, u', -, h⟩ := bind_eq_ok.mp h
    cases h
    exact ⟨found.2.2, s, rfl⟩

/-- The files that were parsed for the routes are sound. -/
theorem sound_of_resolveRoutes (hn : src.files.StartsProper) {snapshot : Snapshot} {s : Store}
    (h : resolveRoutes project convention src .fresh = .ok (table, cache, snapshot) s) :
    src.Sound cache := by
  obtain ⟨⟨⟩, s1, h1, h⟩ := bind_eq_ok.mp h
  obtain ⟨graph, s2, h2, h⟩ := bind_eq_ok.mp h
  obtain ⟨table', s3, h3, h⟩ := bind_eq_ok.mp h
  obtain ⟨⟨⟩, s4, h4, h⟩ := bind_eq_ok.mp h
  obtain ⟨cache', s5, h5, h⟩ := bind_eq_ok.mp h
  obtain ⟨⟨snapshot', s'⟩, s6, h6, h⟩ := bind_eq_ok.mp h
  cases h
  have hs1 : s1.Sound src := by
    rw [StoreM.change_apply] at h1
    cases h1
    exact Store.sound_active.mpr .nil
  have hs2 := (ImportGraph.sound_attach _ _ _).of_ok h2 hs1
  have hbuild : Moves (Keeps (Store.Sound src)) (RouteTable.build project convention src graph) :=
    (Moves.lift _).bind fun groups => (Routes.sound_build hn graph groups []).bind fun _ => .pure _
  have hs4 := (Store.Sound.register _ _).of_ok h4 (hbuild.of_ok h3 hs2)
  obtain ⟨hcache, -⟩ := lift_eq_ok.mp h5
  exact hs4 cache hcache

end Pipeline

end RoutePlugins
