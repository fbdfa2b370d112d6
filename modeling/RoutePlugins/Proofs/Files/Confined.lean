import RoutePlugins.Proofs.Files.LinkTraces

/-!
# Writing below a root

A file is written only after its path was resolved and found below the root. Where resolving sees
every link on the way, the file is then below the root, however links lead. A link whose path is
too long to be looked up is followed by the write and not by the check.
-/

namespace RoutePlugins

namespace Files

/-! ### Links in sight -/

/-- The links of `gs` are links of `fs`. -/
structure FewerLinks (fs gs : Files) : Prop where
  link : ∀ l t, gs.entry? l = some (.link t) → fs.entry? l = some (.link t)
  working : gs.workingDirectory = fs.workingDirectory

theorem FewerLinks.refl (fs : Files) : fs.FewerLinks fs := ⟨fun _ _ h => h, rfl⟩

variable {fs gs : Files} {p : Path}

theorem FewerLinks.trans {ks : Files} (h : fs.FewerLinks gs) (h' : gs.FewerLinks ks) :
    fs.FewerLinks ks :=
  ⟨fun l t hl => h.link l t (h'.link l t hl), h'.working.trans h.working⟩

theorem Grows.fewerLinks (h : fs.Grows gs) : fs.FewerLinks gs :=
  ⟨fun l t hl => (h.link l t).mpr hl, h.working⟩

/-- No link that a path runs through, whichever of the links are still there, has a path that is too
long to be looked up. -/
def InSight (fs : Files) (p : Path) : Prop :=
  ∀ gs, fs.FewerLinks gs → ∀ q links, Traces gs (startPath p) p.names q links →
    ∀ k ∈ links, k.text.nameSize < pathLimit

theorem InSight.fewer (h : fs.InSight p) (hl : fs.FewerLinks gs) :
    gs.InSight p := fun ks hk => h ks (hl.trans hk)

/-! ### Links that lie high -/

/-- A path from the root whose names each lead to something. -/
structure Rooted (p : Path) : Prop where
  root : p.anchor = .root
  enters : ∀ name ∈ p.names, Enters name

theorem Rooted.child (h : Rooted p) {name : Text} (hn : Enters name) : Rooted (p.child name) :=
  ⟨h.root, forall_mem_concat.mpr ⟨h.enters, hn⟩⟩

theorem Rooted.stepUp (h : Rooted p) : Rooted (stepUp p) := by
  have habs : p.isAbsolute = true := by
    rw [Path.isAbsolute, h.root]
    rfl
  unfold Files.stepUp
  split
  · rw [if_pos habs]
    exact h
  · next name hlast =>
    have hn := h.enters name (List.mem_of_getLast? hlast)
    rw [if_neg (by simpa using hn.notUp)]
    exact ⟨h.root, fun n hm => h.enters n (List.dropLast_subset _ hm)⟩

/-- From the root, every link that is followed is one by its path. -/
theorem Traces.rooted {here q : Path} {names : List Text} {links : List Path}
    (h : Traces fs here names q links) (hh : Rooted here) :
    Rooted q ∧ ∀ k ∈ links, Rooted k ∧ ∃ t, fs.entry? (fs.siteOf k) = some (.link t) := by
  induction h with
  | done here => exact ⟨hh, by simp⟩
  | idle _ _ ih => exact ih hh
  | up _ ih => exact ih hh.stepUp
  | enter hn _ _ ih => exact ih (hh.child hn)
  | @link here mid q name target rest inner outer hn he _ _ ihInner ihOuter =>
    have hstart : Rooted (linkStart here target) := by
      unfold linkStart
      split
      · exact ⟨rfl, by simp⟩
      · exact hh
    obtain ⟨hmid, hinner⟩ := ihInner hstart
    obtain ⟨hq, houter⟩ := ihOuter hmid
    refine ⟨hq, fun k hk => ?_⟩
    obtain rfl | hk := List.mem_cons.mp hk
    · exact ⟨hh.child hn, target, he⟩
    · exact (List.mem_append.mp hk).elim (hinner k) (houter k)

theorem Rooted.siteOf (fs : Files) (h : Rooted p) : fs.siteOf p = placeOf p.names := by
  obtain ⟨anchor, names⟩ := p
  obtain rfl : anchor = .root := h.root
  induction names using List.reverseRecOn with
  | nil => rfl
  | append_singleton front name ih =>
    have hn : name ≠ ".." := (h.enters name (by simp)).notUp
    have hsite := siteOf_child_of_ne fs ⟨.root, front⟩ hn
    have hfront := ih ⟨rfl, fun n hm => h.enters n (List.mem_append_left _ hm)⟩
    rw [Path.child] at hsite
    rw [hsite, hfront, placeOf_append]
    rfl

private theorem nameSize_joinWith {names : List Text} (h : ∀ n ∈ names, Enters n) :
    (Text.joinWith "/" names).nameSize ≤ (maxName + 1) * names.length := by
  induction names with
  | nil => exact le_rfl
  | cons name rest ih =>
    have hname := (h name (by simp)).short
    have hrest := ih fun n hm => h n (by simp [hm])
    by_cases hnil : rest = []
    · subst hnil
      change name.nameSize ≤ _
      rw [List.length_singleton]
      omega
    · have hslash : Text.nameSize ⟨("/" : Text).points⟩ = 1 := by decide
      have hsize : (Text.joinWith "/" (name :: rest)).nameSize =
          name.nameSize + (1 + (Text.joinWith "/" rest).nameSize) := by
        rw [← hslash, ← nameSize_append, ← nameSize_append, ← Text.points_joinWith hnil]
      rw [hsize, List.length_cons, Nat.mul_succ]
      omega

/-- The most names of a path that is never too long. -/
def highest : Nat := 15

/-- Where everything lies high, links are in sight of every path from the root. -/
theorem inSight_of_high (h : ∀ e ∈ fs.entries, e.1.length ≤ highest) (hp : p.isAbsolute = true) :
    fs.InSight p := by
  intro gs hg q links ht k hk
  have hstart : Rooted (startPath p) := by
    rw [startPath, if_pos hp]
    exact ⟨rfl, by simp⟩
  obtain ⟨hroot, t, he⟩ := (ht.rooted hstart).2 k hk
  have hlen : (gs.siteOf k).length ≤ highest := by
    cases hsite : gs.siteOf k with
    | nil => exact Nat.zero_le _
    | cons name rest =>
      have hentry := hg.link _ t he
      rw [hsite] at hentry
      exact h _ (Assoc.mem_of_get? (by simpa [ entry?] using hentry))
  rw [hroot.siteOf, placeOf, List.length_map] at hlen
  have hjoin := nameSize_joinWith hroot.enters
  have htext : k.text.nameSize = 1 + (Text.joinWith "/" k.names).nameSize := by
    obtain ⟨anchor, names⟩ := k
    obtain rfl : anchor = .root := hroot.root
    exact nameSize_append [.char '/'] _
  unfold highest at hlen
  unfold maxName at hjoin
  unfold pathLimit
  omega

/-! ### Writing below a root -/

/-- A file system in which the root is a directory. -/
structure Houses (root : Location) (fs : Files) : Prop where
  wellFormed : fs.WellFormed
  root : fs.entry? root = some .directory
  own : placeOf fs.workingDirectory = fs.workingDirectory

/-- What was done to a file system that houses the root: it still does, no link is new, and a file
that is new or has changed is below the root. -/
structure Confined (root : Location) (fs gs : Files) : Prop where
  houses : gs.Houses root
  links : fs.FewerLinks gs
  content : ∀ l b, gs.contentAt? l = some b → fs.contentAt? l = some b ∨ root <+: l

/-- What is done to a file system that houses the root is confined if the paths `P` are in sight. -/
def Confines (root : Location) (P : Path → Prop) (fs gs : Files) : Prop :=
  fs.Houses root → (∀ p, P p → fs.InSight p) → Confined root fs gs

instance (root : Location) (P : Path → Prop) : IsPreorder Files (Confines root P) where
  refl fs h _ := ⟨h, .refl fs, fun _ _ hb => .inl hb⟩
  trans fs gs ks h h' hh hp := by
    have h1 := h hh hp
    have h2 := h' h1.houses fun p hp' => (hp p hp').fewer h1.links
    refine ⟨h2.houses, h1.links.trans h2.links, fun l b hb => ?_⟩
    obtain hb | hl := h2.content l b hb
    · exact h1.content l b hb
    · exact .inr hl

/-- The names of the root are names under which it is found. -/
def OwnNames (root : Location) : Prop := ∀ n ∈ root, EntryName n

section

variable {root : Location} {P : Path → Prop}

variable {fs gs : Files} {p : Path}

theorem Houses.resolve (h : fs.Houses root) (hn : OwnNames root) :
    fs.resolve (absolute root) = .ok (absolute root) := by
  refine resolve_straight h.wellFormed (fun n hm => (hn n hm).toPathName) ?_
  intro front hne hf t ht
  rw [placeOf_of_own fun n hm => hn n (hf.subset hm)] at ht
  by_cases hfront : front = root
  · rw [hfront, h.root] at ht
    cases ht
  · rw [h.wellFormed.above h.root hf hfront] at ht
    cases ht

/-- A path that is found inside the root resolves to one with the names of the root first. -/
theorem Houses.resolve_of_isInside (h : fs.Houses root) (hn : OwnNames root)
    (hin : fs.isInside (absolute root) p = .ok true) :
    ∃ r, fs.resolve p = .ok r ∧ root <+: r.names := by
  unfold isInside at hin
  split at hin
  · next r root' hresolve =>
    obtain ⟨r', hr, hrest⟩ := bind_ok_iff.mp hresolve
    obtain ⟨root'', hroot, hpair⟩ := bind_ok_iff.mp hrest
    cases hpair
    cases hroot.symm.trans (h.resolve hn)
    refine ⟨r, hr, ?_⟩
    have hsome := Except.ok.inj hin
    unfold Path.relativeTo? at hsome
    split at hsome
    · next hcond =>
      rw [Bool.and_eq_true] at hcond
      exact List.isPrefixOf_iff_prefix.mp hcond.2
    · cases hsome
  · split at hin
    · cases hin
    · cases hin

/-- A path that is found below the root is written below it, if its links are in sight. -/
theorem below_of_isInside (h : fs.Houses root) (hn : OwnNames root) (hp : p.IsPlain)
    (hs : fs.InSight p) (hin : fs.isInside (absolute root) p = .ok true) (hg : fs.Grows gs)
    {l : Location} {o : Option Entry} (hl : gs.locate .create p = .ok (l, o)) : root <+: l := by
  -- The write follows a trace, which growth has not changed.
  have hwalk := (locate_eq_ok.mp hl).2
  rw [← siteOf_startPath, ← List.append_nil p.names] at hwalk
  obtain ⟨q, links, fewer, htrace, hend, hle⟩ := traces_of_walk (by simp) hwalk
  have hsite : gs.siteOf q = fs.siteOf q := by
    rw [siteOf, siteOf, startOf, startOf, hg.working]
  have hq : l = fs.siteOf q := by
    generalize hfound : (l, o) = found at hend
    cases hend
    rw [← hsite]
    exact congrArg Prod.fst hfound
  have htrace := htrace.grows hg
  -- The check went along the same trace.
  obtain ⟨r, hr, hbelow⟩ := h.resolve_of_isInside hn hin
  have hplace := (placeOf_resolve h.wellFormed hp htrace (hs fs (.refl fs) q links htrace)
    (by omega) hr h.own).2
  rw [hq, ← hplace, ← placeOf_of_own hn]
  exact hbelow.map Text.asName

/-- Writing that changes no file is confined. -/
theorem confines_of_writes (h : Writes (fun _ => False) fs gs) : Confines root P fs gs := by
  intro hh _
  have hw := h hh.wellFormed
  refine ⟨⟨hw.wellFormed, hw.grows.directory _ hh.root, ?_⟩, hw.grows.fewerLinks, fun l b hb => ?_⟩
  · rw [hw.grows.working]
    exact hh.own
  · rw [hw.kept l fun _ hp => hp.elim] at hb
    exact .inl hb

/-- Writing a file below the root is confined. -/
theorem confines_of_writeBytes {content : Bytes}
    (hbelow : ∀ l o, fs.locate .create p = .ok (l, o) → root <+: l)
    (h : fs.writeBytes p content = .ok gs) : Confines root P fs gs := by
  intro hh _
  unfold writeBytes at h
  obtain ⟨⟨l, o⟩, hl, h⟩ := bind_ok_iff.mp h
  split at h
  · cases h
  · next l' o' hne heq =>
    cases heq
    cases h
    obtain ⟨hv, hlink⟩ := vacant_of_locate_create hh.wellFormed hl hne
    have hg : fs.Grows (fs.put l (.file content)) := hv.grows_put (by simp) hlink (by simp)
    refine ⟨⟨hv.wellFormed_put hh.wellFormed _, hg.directory _ hh.root, hh.own⟩, hg.fewerLinks,
      fun l' b hb => ?_⟩
    by_cases heq : l' = l
    · subst heq
      exact .inr (hbelow _ _ hl)
    · have hsame : entry? (fs.put l (.file content)) l' = fs.entry? l' := by
        rw [entry_put hv.ne_nil, if_neg heq]
      rw [contentAt?_of_entry hsame] at hb
      exact .inl hb

end

section

variable {fs : Files} {root p : Path}

theorem ensureInside_of_inside (h : fs.isInside root p = .ok true) :
    fs.ensureInside root p = .ok () := by
  rw [ensureInside, h]
  rfl

theorem ensureInside_of_not_inside (h : fs.isInside root p ≠ .ok true) :
    ∃ e, fs.ensureInside root p = .error e := by
  rw [ensureInside]
  cases hin : fs.isInside root p with
  | error e => exact ⟨e, rfl⟩
  | ok inside =>
    cases inside with
    | false => exact ⟨_, rfl⟩
    | true => exact absurd hin h

/-- A write that is not inside fails, and nothing changes. -/
theorem writeText_of_not_inside (h : fs.isInside root p ≠ .ok true) (text : Text) :
    ∃ e, writeText root p text fs = .error e fs := by
  obtain ⟨e, he⟩ := ensureInside_of_not_inside h
  refine ⟨e, ?_⟩
  rw [writeText, bind_of_ok (show (get : EStateM Fault Files Files) fs = .ok fs fs from rfl), he]
  rfl

theorem writeValue_of_not_inside (h : fs.isInside root p ≠ .ok true) (v : Value) :
    ∃ e, writeValue root p v fs = .error e fs := by
  rw [writeValue]
  cases v.document with
  | error e => exact ⟨e, rfl⟩
  | ok j => exact writeText_of_not_inside h j.write

theorem writeText_of_inside (h : fs.isInside root p = .ok true) (text : Text) :
    writeText root p text fs = (do
      ensureDirectories p.parent
      writeEncoded p text) fs := by
  rw [writeText, bind_of_ok (show (get : EStateM Fault Files Files) fs = .ok fs fs from rfl),
    ensureInside_of_inside h]
  rfl

theorem endState_change (f : Files → Except Fault Files) (fs : Files) :
    endState (change f fs) = fs ∨ f fs = .ok (endState (change f fs)) := by
  change endState ((lift (f fs) >>= fun gs => set gs : EStateM Fault Files PUnit) fs) = fs ∨
    f fs = .ok (endState ((lift (f fs) >>= fun gs => set gs : EStateM Fault Files PUnit) fs))
  cases f fs with
  | ok gs => exact .inr rfl
  | error e => exact .inl rfl

/-- Writing a text leaves the files as they are, or writes some bytes. -/
theorem endState_writeEncoded (p : Path) (text : Text) (fs : Files) :
    endState (writeEncoded p text fs) = fs ∨
      ∃ content, fs.writeBytes p content = .ok (endState (writeEncoded p text fs)) := by
  have hchange (content : Bytes) := endState_change (·.writeBytes p content) fs
  cases henc : Utf8.encode text with
  | ok content =>
    have hwrite : writeEncoded p text fs = change (·.writeBytes p content) fs := by
      rw [writeEncoded, henc]
    rw [hwrite]
    exact (hchange content).imp_right fun h => ⟨content, h⟩
  | error e =>
    have hwrite : writeEncoded p text fs =
        (change (·.writeBytes p []) >>= fun _ => throw (.encoding e)) fs := by
      rw [writeEncoded, henc]
    rw [hwrite, endState_bind fun _ _ => rfl]
    exact (hchange []).imp_right fun h => ⟨[], h⟩

end

section

variable {root : Location} {P : Path → Prop}

theorem moves_ensureDirectories_confined (p : Path) :
    Moves (Confines root P) (ensureDirectories p) :=
  (moves_ensureDirectories (fun _ => False) p).mono fun _ _ h => confines_of_writes h

/-- A text is written below the root or not at all. -/
theorem moves_writeText_confined (hn : OwnNames root) {p : Path} (hp : p.IsPlain) (hP : P p)
    (text : Text) : Moves (Confines root P) (writeText (absolute root) p text) := by
  intro fs hh hs
  by_cases hin : fs.isInside (absolute root) p = .ok true
  · rw [writeText_of_inside hin]
    refine (moves_ensureDirectories_confined p.parent).bind_at (fun _ gs hdirs => ?_) hh hs
    have hgrows : fs.Grows gs :=
      ((moves_ensureDirectories (fun _ => False) p.parent).of_ok hdirs hh.wellFormed).grows
    obtain hsame | ⟨content, hwrite⟩ := endState_writeEncoded p text gs
    · rw [hsame]
      exact refl_of (Confines root P) gs
    · have hbelow : ∀ l o, gs.locate .create p = .ok (l, o) → root <+: l :=
        fun l o => below_of_isInside hh hn hp (hs p hP) hin hgrows
      exact confines_of_writeBytes hbelow hwrite
  · obtain ⟨e, he⟩ := writeText_of_not_inside hin text
    rw [he]
    exact refl_of (Confines root P) fs hh hs

theorem moves_writeValue_confined (hn : OwnNames root) {p : Path} (hp : p.IsPlain) (hP : P p)
    (v : Value) : Moves (Confines root P) (writeValue (absolute root) p v) :=
  (Moves.lift _).bind fun j => moves_writeText_confined hn hp hP j.write

/-- Removing a file or a link is confined. -/
theorem confines_of_removeFile {fs gs : Files} {p : Path} (h : fs.removeFile p = .ok gs) :
    Confines root P fs gs := by
  intro hh _
  unfold removeFile at h
  obtain ⟨⟨l, o⟩, hl, h⟩ := bind_ok_iff.mp h
  split at h
  · cases h
  · next l' e hne heq =>
    cases heq
    cases h
    have hentry : fs.entry? l = some e := (foundAt_of_locate hh.wellFormed hl).entry
    have hdir : e ≠ .directory := hne
    have hnil : l ≠ [] := by
      rintro rfl
      exact hdir (Option.some.inj hentry).symm
    have hkept {l' : Location} {e' : Entry} (he : entry? (fs.without l) l' = some e') :
        fs.entry? l' = some e' := by
      rw [entry_without hnil] at he
      split at he
      · cases he
      · exact he
    have hroot : entry? (fs.without l) root = some .directory := by
      rw [entry_without hnil, if_neg]
      · exact hh.root
      · rintro rfl
        exact hdir (Option.some.inj (hentry.symm.trans hh.root))
    refine ⟨⟨wellFormed_without_of_ne hh.wellFormed hentry hdir, hroot, hh.own⟩,
      ⟨fun l' t ht => hkept ht, rfl⟩, fun l' b hb => .inl ?_⟩
    rw [contentAt?_eq_some] at hb ⊢
    exact hkept hb
  · cases h

end

end Files

end RoutePlugins
