import RoutePlugins.Proofs.Files.Straight

/-!
# What writing adds

Writing through a path makes the directories that are missing on its way, and a file at its end. So
an entry that is new or has changed is one that the way of such a path passes: a place that no way
passes holds what it held, or still nothing.
-/

namespace RoutePlugins.Files

/-- The way of a path leads through a place, or to it. -/
def Passes (fs : Files) (p : Path) (l : Location) : Prop :=
  ∃ front, front <+: p.names ∧ fs.Leads ⟨p.anchor, front⟩ l

variable {fs gs : Files} {p : Path} {l : Location} {P : Path → Prop}

theorem Leads.passes (h : fs.Leads p l) : fs.Passes p l :=
  ⟨p.names, List.prefix_refl _, h⟩

theorem Grows.passes (h : fs.Grows gs) (hw : fs.WellFormed) (hp : fs.Passes p l) :
    gs.Passes p l := by
  obtain ⟨front, hf, hl⟩ := hp
  exact ⟨front, hf, h.leads hw hl⟩

/-- The way of a straight path passes the places with its names. -/
theorem prefix_of_passes (hwf : fs.WellFormed) {names : List Text} (hn : ∀ n ∈ names, EntryName n)
    (hs : fs.Straight names) (hl : fs.Passes (absolute names) l) : l <+: names := by
  obtain ⟨front, hf, hlead⟩ := hl
  have hfront : ∀ n ∈ front, EntryName n := fun n hm => hn n (hf.subset hm)
  have hplace := placeOf_of_leads hwf (fun n hm => (hfront n hm).toPathName) (hs.front hf) hlead
  rw [hplace, placeOf_of_own hfront]
  exact hf

/-- A path on the way of one of the paths `P`. -/
def OnWay (P : Path → Prop) (q : Path) : Prop :=
  ∃ p, P p ∧ q.anchor = p.anchor ∧ q.names <+: p.names

theorem OnWay.passes {q : Path} (hq : OnWay P q) (h : fs.Leads q l) : ∃ p, P p ∧ fs.Passes p l := by
  obtain ⟨p, hp, ha, hf⟩ := hq
  refine ⟨p, hp, q.names, hf, ?_⟩
  rw [← ha]
  exact h

theorem onWay_parent (hp : P p) : OnWay P p.parent :=
  ⟨p, hp, rfl, List.dropLast_prefix _⟩

/-- What writing through the paths `P` adds to a well-formed file system: only the places that their
ways pass, and each place once. -/
structure Added (P : Path → Prop) (fs gs : Files) : Prop extends Written P fs gs where
  passed : ∀ l, gs.entry? l ≠ fs.entry? l → ∃ p, P p ∧ gs.Passes p l
  distinct : (Assoc.keys fs.entries).Nodup → (Assoc.keys gs.entries).Nodup

/-- Nothing is added to a well-formed file system but by writing through the paths `P`. -/
def Adds (P : Path → Prop) (fs gs : Files) : Prop := fs.WellFormed → Added P fs gs

/-- What is added through straight paths is on the way to their places. -/
theorem Added.on_straight_way (h : Added P fs gs)
    (hP : ∀ p, P p → ∃ names, p = absolute names ∧ (∀ n ∈ names, EntryName n) ∧ gs.Straight names)
    (hl : gs.entry? l ≠ fs.entry? l) :
    ∃ names, P (absolute names) ∧ (∀ n ∈ names, EntryName n) ∧ l <+: names := by
  obtain ⟨p, hp, hpass⟩ := h.passed l hl
  obtain ⟨names, rfl, hn, hs⟩ := hP p hp
  exact ⟨names, hp, hn, prefix_of_passes h.wellFormed hn hs hpass⟩

theorem Added.tidy (h : Added P fs gs) (ht : fs.Tidy)
    (hP : ∀ p, P p → ∃ names, p = absolute names ∧ (∀ n ∈ names, EntryName n) ∧
      gs.Straight names) : gs.Tidy := by
  refine ⟨h.wellFormed, h.distinct ht.distinct, fun l hl => ?_⟩
  by_cases heq : gs.entry? l = fs.entry? l
  · by_cases hnil : l = []
    · simp [hnil]
    · have hsome := (entry_isSome_iff hnil).mpr hl
      rw [heq] at hsome
      obtain ⟨e, he⟩ := Option.isSome_iff_exists.mp hsome
      exact ht.entryName he
  · obtain ⟨names, -, hn, hf⟩ := h.on_straight_way hP heq
    exact fun n hm => hn n (hf.subset hm)

instance (P : Path → Prop) : IsPreorder Files (Adds P) where
  refl fs hw := ⟨refl_of (Writes P) fs hw, fun _ h => absurd rfl h, id⟩
  trans fs gs ks h h' hw := by
    have h1 := h hw
    have h2 := h' h1.wellFormed
    refine ⟨trans_of (Writes P) (fun _ => h1.toWritten) (fun _ => h2.toWritten) hw, fun l hl => ?_,
      fun hd => h2.distinct (h1.distinct hd)⟩
    by_cases hlater : ks.entry? l = gs.entry? l
    · rw [hlater] at hl
      obtain ⟨p, hp, hpass⟩ := h1.passed l hl
      exact ⟨p, hp, h2.grows.passes h1.wellFormed hpass⟩
    · exact h2.passed l hlater

/-- An entry is put at a place that the way of a path passes. -/
theorem passed_of_put (hl : l ≠ []) {e : Entry} (h : ∃ p, P p ∧ Passes (fs.put l e) p l) :
    ∀ l', entry? (fs.put l e) l' ≠ fs.entry? l' → ∃ p, P p ∧ Passes (fs.put l e) p l' := by
  intro l' hne
  by_cases heq : l' = l
  · rw [heq]
    exact h
  · rw [entry_put hl, if_neg heq] at hne
    exact absurd rfl hne

theorem adds_of_writeBytes {content : Bytes} (hp : P p) (h : fs.writeBytes p content = .ok gs) :
    Adds P fs gs := by
  intro hw
  have hwritten := writes_of_writeBytes hp h hw
  obtain ⟨l, hv, -, rfl, hlead⟩ := locate_of_writeBytes hw h
  have hleads : Leads (fs.put l (.file content)) p l := ⟨_, hlead⟩
  exact ⟨hwritten, passed_of_put hv.ne_nil ⟨p, hp, hleads.passes⟩, Assoc.nodup_keys_insert⟩

theorem adds_of_makeDirectory (hp : OnWay P p) (h : fs.makeDirectory p = .ok gs) :
    Adds P fs gs := by
  intro hw
  have hwritten : Written P fs gs := writes_of_makeDirectory h hw
  obtain ⟨l, hv, -, rfl, -, hlead⟩ := locate_of_makeDirectory hw h
  exact ⟨hwritten, passed_of_put hv.ne_nil (hp.passes ⟨_, hlead⟩), Assoc.nodup_keys_insert⟩

theorem adds_ensureDirectories (hp : OnWay P p) : Moves (Adds P) (ensureDirectories p) := by
  obtain ⟨q, hq, ha, hf⟩ := hp
  exact moves_ensureDirectories_of fun front hfront _ _ =>
    adds_of_makeDirectory ⟨q, hq, ha, hfront.trans hf⟩

/-- Writing a text adds what its path passes. -/
theorem adds_writeText (root : Path) (hp : P p) (text : Text) :
    Moves (Adds P) (writeText root p text) :=
  moves_writeText_of root (adds_ensureDirectories (onWay_parent hp))
    (fun _ _ _ => adds_of_writeBytes hp) text

theorem adds_writeValue (root : Path) (hp : P p) (v : Value) :
    Moves (Adds P) (writeValue root p v) :=
  (Moves.lift _).bind fun j => adds_writeText root hp j.write

end RoutePlugins.Files
