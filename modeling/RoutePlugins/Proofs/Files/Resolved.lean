import RoutePlugins.Proofs.Files.DataDirectory

/-!
# Resolved paths

A resolved path is absolute, and each of its names could be the name of an entry of a directory. So
reading its text gives the path again, and keeping its text changes nothing.
-/

namespace RoutePlugins

/-! ### Splitting and joining -/

theorem piecesBetween_ne_nil (sep : CodePoint) (ps : List CodePoint) :
    Text.piecesBetween sep ps ≠ [] := by
  cases ps with
  | nil => simp [Text.piecesBetween]
  | cons p ps =>
    rw [Text.piecesBetween]
    split
    · simp
    · split
      · simp
      · simp

theorem piecesBetween_append (sep : CodePoint) (front rest : List CodePoint) :
    Text.piecesBetween sep (front ++ sep :: rest) =
      Text.piecesBetween sep front ++ Text.piecesBetween sep rest := by
  induction front with
  | nil => simp [Text.piecesBetween]
  | cons p front ih =>
    rw [List.cons_append, Text.piecesBetween, Text.piecesBetween, ih]
    split
    · rfl
    · cases hpieces : Text.piecesBetween sep front with
      | nil => exact absurd hpieces (piecesBetween_ne_nil sep front)
      | cons piece pieces => rfl

theorem piecesBetween_first {sep : CodePoint} {front : List CodePoint} (rest : List CodePoint)
    (h : sep ∉ front) :
    Text.piecesBetween sep (front ++ sep :: rest) = front :: Text.piecesBetween sep rest := by
  rw [piecesBetween_append, piecesBetween_of_notMem h]
  rfl

/-- The pieces hold all but the separators. -/
theorem flatten_piecesBetween (sep : CodePoint) (ps : List CodePoint) :
    (Text.piecesBetween sep ps).flatten = ps.filter (· != sep) := by
  induction ps with
  | nil => rfl
  | cons p ps ih =>
    rw [Text.piecesBetween]
    by_cases hp : p = sep
    · rw [if_pos (by simpa using hp), List.filter_cons_of_neg (by simpa using hp)]
      exact ih
    · rw [if_neg (by simpa using hp), List.filter_cons_of_pos (by simpa using hp), ← ih]
      cases Text.piecesBetween sep ps with
      | nil => rfl
      | cons piece pieces => rfl

theorem mem_piece_iff {sep p : CodePoint} {ps : List CodePoint} :
    (∃ piece ∈ Text.piecesBetween sep ps, p ∈ piece) ↔ p ∈ ps ∧ p ≠ sep := by
  rw [← List.mem_flatten, flatten_piecesBetween, List.mem_filter, bne_iff_ne]

namespace Text

theorem contains_eq_false {t : Text} {p : CodePoint} : t.contains p = false ↔ p ∉ t.points := by
  simp [contains]

/-- What stands between separators holds none. -/
theorem contains_of_mem_split {t : Text} {sep : CodePoint} :
    ∀ piece ∈ t.split sep, piece.contains sep = false := by
  intro piece hm
  obtain ⟨ps, hps, rfl⟩ := List.mem_map.mp hm
  exact contains_eq_false.mpr fun hsep => (mem_piece_iff.mp ⟨ps, hps, hsep⟩).2 rfl

section

variable {sep t : Text} {ts : List Text} {p : CodePoint}

theorem points_joinWith (h : ts ≠ []) :
    (joinWith sep (t :: ts)).points = t.points ++ (sep.points ++ (joinWith sep ts).points) := by
  obtain ⟨next, others, rfl⟩ := List.exists_cons_of_ne_nil h
  exact List.append_assoc t.points sep.points _

theorem points_joinWith_append {front : List Text} (hf : front ≠ []) (h : ts ≠ []) :
    (joinWith sep (front ++ ts)).points =
      (joinWith sep front).points ++ (sep.points ++ (joinWith sep ts).points) := by
  induction front with
  | nil => exact absurd rfl hf
  | cons t front ih =>
    by_cases hnil : front = []
    · subst hnil
      exact points_joinWith h
    · rw [List.cons_append, points_joinWith (by simp [hnil]), points_joinWith hnil, ih hnil]
      simp only [List.append_assoc]

theorem mem_joinWith (h : p ∈ (joinWith sep ts).points) :
    p ∈ sep.points ∨ ∃ t ∈ ts, p ∈ t.points := by
  induction ts with
  | nil => cases h
  | cons t ts ih =>
    by_cases hts : ts = []
    · subst hts
      exact .inr ⟨t, by simp, h⟩
    · rw [points_joinWith hts, List.mem_append, List.mem_append] at h
      rcases h with h | h | h
      · exact .inr ⟨t, by simp, h⟩
      · exact .inl h
      · exact (ih h).imp_right fun ⟨u, hu, hp⟩ => ⟨u, by simp [hu], hp⟩

theorem mem_joinWith_of_mem (ht : t ∈ ts) (hp : p ∈ t.points) : p ∈ (joinWith sep ts).points := by
  induction ts with
  | nil => cases ht
  | cons u ts ih =>
    by_cases hts : ts = []
    · subst hts
      rwa [List.mem_singleton.mp ht] at hp
    · rw [points_joinWith hts, List.mem_append, List.mem_append]
      rcases List.mem_cons.mp ht with rfl | ht
      · exact .inl hp
      · exact .inr (.inr (ih ht))

end

/-- Names with slashes between them are cut at the slashes. -/
theorem split_joinWith {names : List Text} (hne : names ≠ [])
    (h : ∀ name ∈ names, name.contains '/' = false) :
    (joinWith "/" names).split '/' = names := by
  induction names with
  | nil => exact absurd rfl hne
  | cons name rest ih =>
    obtain ⟨hn, hrest⟩ := List.forall_mem_cons.mp h
    by_cases hnil : rest = []
    · subst hnil
      exact split_of_not_contains hn
    · rw [split, points_joinWith hnil]
      exact (congrArg (List.map Text.mk) (piecesBetween_first _ (contains_eq_false.mp hn))).trans
        (congrArg (List.cons name) (ih hnil hrest))

end Text

/-! ### Plain names -/

/-- A name that reading a path keeps. -/
structure PlainName (name : Text) : Prop where
  nonempty : name.isEmpty = false
  notDot : name ≠ "."
  noSlash : name.contains '/' = false

/-- Every name of a path is one that reading keeps. -/
def Path.IsPlain (p : Path) : Prop := ∀ name ∈ p.names, PlainName name

theorem Path.isPlain_namesOf (t : Text) : ∀ name ∈ namesOf t, PlainName name := by
  intro name hm
  obtain ⟨hs, hf⟩ := List.mem_filter.mp hm
  simp only [Bool.not_eq_true', Bool.or_eq_false_iff, beq_eq_false_iff_ne] at hf
  exact ⟨hf.1, hf.2, Text.contains_of_mem_split name hs⟩

private theorem filter_plain {names : List Text} (h : ∀ name ∈ names, PlainName name) :
    (names.filter fun (name : Text) => !(name.isEmpty || name == ".")) = names := by
  refine List.filter_eq_self.mpr fun name hm => ?_
  have hp := h name hm
  simp [hp.nonempty, beq_false_of_ne hp.notDot]

private theorem head_joinWith {names : List Text} (h : ∀ name ∈ names, PlainName name) :
    (Text.joinWith "/" names).points.head? ≠ some (.char '/') := by
  cases names with
  | nil => exact fun hc => by cases hc
  | cons name rest =>
    have hp := h name (by simp)
    obtain ⟨points⟩ := name
    cases points with
    | nil => exact absurd hp.nonempty (by decide)
    | cons p ps =>
      have hne : p ≠ CodePoint.char '/' := by
        rintro rfl
        have := Text.contains_eq_false.mp hp.noSlash
        simp at this
      cases rest with
      | nil => simpa [Text.joinWith] using hne
      | cons next others =>
        change some p ≠ some (CodePoint.char '/')
        simpa using hne

namespace Path

variable {names : List Text} {ps : List CodePoint} {p : Path}

theorem namesOf_joinWith (h : ∀ name ∈ names, PlainName name) :
    namesOf (Text.joinWith "/" names) = names := by
  cases names with
  | nil => decide
  | cons name rest =>
    rw [namesOf, Text.split_joinWith (by simp) fun n hm => (h n hm).noSlash]
    exact filter_plain h

theorem namesOf_append (ps qs : List CodePoint) :
    namesOf ⟨ps ++ .char '/' :: qs⟩ = namesOf ⟨ps⟩ ++ namesOf ⟨qs⟩ := by
  simp only [namesOf, Text.split, piecesBetween_append, List.map_append, List.filter_append]

private theorem namesOf_slash (ps : List CodePoint) :
    namesOf ⟨.char '/' :: ps⟩ = namesOf ⟨ps⟩ := namesOf_append [] ps

private theorem anchorOf_root (h : ps.head? ≠ some (.char '/')) :
    anchorOf (.char '/' :: ps) = .root := by
  unfold anchorOf
  split
  · rfl
  · next heq =>
    cases heq
    simp at h
  · rfl
  · next hne => exact absurd rfl (hne ps)

private theorem anchorOf_doubleRoot (h : ps.head? ≠ some (.char '/')) :
    anchorOf (.char '/' :: .char '/' :: ps) = .doubleRoot := by
  unfold anchorOf
  split
  · next heq =>
    cases heq
    simp at h
  · rfl
  · next hne heq =>
    cases heq
    exact absurd rfl (hne ps)
  · next hne _ => exact absurd rfl (hne _)

/-- The text of a path with plain names is read as that path. -/
theorem parse_text (h : p.IsPlain) : parse p.text = p := by
  obtain ⟨anchor, names⟩ := p
  have hhead := head_joinWith h
  have hnames := namesOf_joinWith h
  cases anchor with
  | relative =>
    cases names with
    | nil => decide
    | cons name rest =>
      change Path.mk (anchorOf (Text.joinWith "/" (name :: rest)).points)
        (namesOf (Text.joinWith "/" (name :: rest))) = _
      rw [anchorOf_relative hhead, hnames]
  | root =>
    change Path.mk (anchorOf (.char '/' :: (Text.joinWith "/" names).points))
      (namesOf ⟨.char '/' :: (Text.joinWith "/" names).points⟩) = _
    rw [anchorOf_root hhead, namesOf_slash, hnames]
  | doubleRoot =>
    change Path.mk (anchorOf (.char '/' :: .char '/' :: (Text.joinWith "/" names).points))
      (namesOf ⟨.char '/' :: .char '/' :: (Text.joinWith "/" names).points⟩) = _
    rw [anchorOf_doubleRoot hhead, namesOf_slash, namesOf_slash, hnames]

theorem IsPlain.child (h : p.IsPlain) {name : Text} (hn : PlainName name) :
    (p.child name).IsPlain :=
  forall_mem_concat.mpr ⟨h, hn⟩

theorem IsPlain.parent (h : p.IsPlain) : p.parent.IsPlain :=
  fun n hm => h n (List.dropLast_subset _ hm)

theorem IsPlain.join {q : Path} (hp : p.IsPlain) (hq : q.IsPlain) : (p.join q).IsPlain := by
  unfold Path.join
  split
  · exact hq
  · exact List.forall_mem_append.mpr ⟨hp, hq⟩

theorem isAbsolute_join (h : p.isAbsolute = true) (q : Path) : (p.join q).isAbsolute = true := by
  unfold Path.join
  split
  · assumption
  · exact h

theorem isPlain_parse (t : Text) : (parse t).IsPlain := isPlain_namesOf t

private theorem mem_foldDots {start : List Text} (hs : ∀ n ∈ start, n ≠ "..") :
    ∀ n ∈ foldDots start names, n ≠ ".." ∧ (n ∈ start ∨ n ∈ names) := by
  induction names generalizing start with
  | nil => exact fun n hm => ⟨hs n hm, .inl hm⟩
  | cons name rest ih =>
    intro n hm
    by_cases hd : name = ".."
    · have hstep : foldDots start (name :: rest) = foldDots start.dropLast rest := by
        simp [foldDots, hd]
      rw [hstep] at hm
      obtain ⟨hne, hin⟩ := ih (fun m h => hs m (List.dropLast_subset _ h)) n hm
      exact ⟨hne, hin.imp (fun h => List.dropLast_subset _ h) fun h => by simp [h]⟩
    · have hstep : foldDots start (name :: rest) = foldDots (start ++ [name]) rest := by
        simp [foldDots, hd]
      rw [hstep] at hm
      have hs' : ∀ m ∈ start ++ [name], m ≠ ".." := by
        intro m h
        obtain h | rfl := by simpa using h
        · exact hs m h
        · exact hd
      obtain ⟨hne, hin⟩ := ih hs' n hm
      refine ⟨hne, ?_⟩
      obtain hin | hin := hin
      · obtain hin | rfl := by simpa using hin
        · exact .inl hin
        · simp
      · simp [hin]

/-- Names without double dots are followed as they are. -/
theorem foldDots_of_noDots {start : List Text} (h : ∀ n ∈ names, n ≠ "..") :
    foldDots start names = start ++ names := by
  induction names generalizing start with
  | nil => simp [foldDots]
  | cons name rest ih =>
    have hstep : foldDots start (name :: rest) = foldDots (start ++ [name]) rest := by
      simp [foldDots, h name (by simp)]
    rw [hstep, ih fun n hm => h n (by simp [hm]), List.append_assoc]
    rfl

/-- An absolute path without double dots has proper names only. -/
theorem proper_normalize (habs : p.isAbsolute = true) (h : p.IsPlain) :
    p.normalize.isAbsolute = true ∧ ∀ n ∈ p.normalize.names, Files.ProperName n := by
  have hn : p.normalize = ⟨p.anchor, foldDots [] p.names⟩ := by rw [normalize, if_pos habs]
  rw [hn]
  refine ⟨habs, fun n hm => ?_⟩
  obtain ⟨hne, hin⟩ := mem_foldDots (by simp) n hm
  obtain hin | hin := hin
  · simp at hin
  · have hp := h n hin
    exact ⟨hp.nonempty, hp.notDot, hne, hp.noSlash⟩

end Path

namespace Files

/-! ### Resolving -/

/-- The path that names resolve to, whether they run in a circle or not. -/
def Resolution.path : Resolution → Path
  | .reached p => p
  | .circle p => p

/-- The links met so far resolve to plain paths. -/
def SeenPlain (seen : SeenLinks) : Prop := ∀ e ∈ seen, ∀ q, e.2 = some q → q.IsPlain

/-- Resolving gives a plain path, if the links met before do. -/
def GivesPlain (m : ResolveM Resolution) : Prop :=
  ∀ seen r seen', SeenPlain seen → m seen = .ok r seen' → r.path.IsPlain ∧ SeenPlain seen'

theorem isPlain_stepUp {p : Path} (h : p.IsPlain) : (stepUp p).IsPlain := by
  have hdots : PlainName ".." := ⟨by decide, by decide, by decide⟩
  unfold stepUp
  split
  · split
    · exact h
    · intro n hm
      obtain rfl : n = ".." := by simpa using hm
      exact hdots
  · split
    · exact h.child hdots
    · exact h.parent

theorem SeenPlain.note {seen : SeenLinks} (h : SeenPlain seen) (p : Path) {resolved : Option Path}
    (hr : ∀ q, resolved = some q → q.IsPlain) : SeenPlain (Assoc.insert p resolved seen) := by
  intro e he q hq
  obtain rfl | he := Assoc.mem_insert he
  · exact hr q hq
  · exact h e he q hq

section

variable {fs : Files} {follow : Path → Text → ResolveM Resolution} {here : Path} {name : Text}
  {rest : List Text}

theorem resolveNames_idle (h : isIdle name = true) :
    fs.resolveNames follow here (name :: rest) = fs.resolveNames follow here rest := by
  rw [resolveNames]
  exact if_pos h

theorem resolveNames_up :
    fs.resolveNames follow here (".." :: rest) = fs.resolveNames follow (stepUp here) rest := by
  rw [resolveNames]
  rfl

/-- What resolving does at a name that names something, for each of the ways it may go. -/
theorem resolveNames_into (hi : isIdle name = false) (hu : name ≠ "..")
    {seen seen' : SeenLinks} {r : Resolution}
    (h : fs.resolveNames follow here (name :: rest) seen = .ok r seen') :
    (fs.linkTarget? (here.child name) = .ok none ∧
        fs.resolveNames follow (here.child name) rest seen = .ok r seen') ∨
      ∃ target, fs.linkTarget? (here.child name) = .ok (some target) ∧
        ((∃ q, Assoc.get? (here.child name) seen = some (some q) ∧
            fs.resolveNames follow q rest seen = .ok r seen') ∨
          (Assoc.get? (here.child name) seen = some none ∧
            r = .circle ((here.child name).join (.parse (Text.joinWith "/" rest))) ∧
            seen' = seen) ∨
          ∃ found seen1, follow here target (Assoc.insert (here.child name) none seen) =
              .ok found seen1 ∧
            ((∃ p, found = .circle p ∧ r = .circle (p.join (.parse (Text.joinWith "/" rest))) ∧
                seen' = seen1) ∨
              ∃ q, found = .reached q ∧ fs.resolveNames follow q rest
                (Assoc.insert (here.child name) (some q) seen1) = .ok r seen')) := by
  have hidle : (name.isEmpty || name == ".") = false := hi
  have hup : (name == "..") = false := beq_false_of_ne hu
  rw [resolveNames, if_neg (by simp [hidle]), if_neg (by simp [hup])] at h
  cases ht : fs.linkTarget? (here.child name) with
  | error e =>
    rw [ht] at h
    cases h
  | ok o =>
    rw [ht] at h
    cases o with
    | none => exact .inl ⟨rfl, h⟩
    | some target =>
      refine .inr ⟨target, rfl, ?_⟩
      obtain ⟨seen0, u, hget, h⟩ := bind_eq_ok.mp h
      cases hget
      cases hg : Assoc.get? (here.child name) seen with
      | some o =>
        rw [hg] at h
        cases o with
        | some q => exact .inl ⟨q, rfl, h⟩
        | none =>
          cases h
          exact .inr (.inl ⟨rfl, rfl, rfl⟩)
      | none =>
        rw [hg] at h
        obtain ⟨⟨⟩, u, hnote, h⟩ := bind_eq_ok.mp h
        cases hnote
        obtain ⟨found, seen1, hf, h⟩ := bind_eq_ok.mp h
        refine .inr (.inr ⟨found, seen1, hf, ?_⟩)
        cases found with
        | circle p =>
          cases h
          exact .inl ⟨p, rfl, rfl, rfl⟩
        | reached q =>
          obtain ⟨⟨⟩, u, hnote, h⟩ := bind_eq_ok.mp h
          cases hnote
          exact .inr ⟨q, rfl, h⟩

end

variable {fs : Files} {here p q : Path}

theorem givesPlain_resolveNames {follow : Path → Text → ResolveM Resolution}
    (hf : ∀ here target, here.IsPlain → GivesPlain (follow here target)) {names : List Text}
    (hn : ∀ name ∈ names, name.contains '/' = false) (hh : here.IsPlain) :
    GivesPlain (fs.resolveNames follow here names) := by
  induction names generalizing here with
  | nil =>
    intro seen r seen' hs h
    cases h
    exact ⟨hh, hs⟩
  | cons name rest ih =>
    have hrest : ∀ n ∈ rest, n.contains '/' = false := fun n hm => hn n (by simp [hm])
    by_cases hi : isIdle name = true
    · rw [resolveNames_idle hi]
      exact ih hrest hh
    by_cases hu : name = ".."
    · subst hu
      rw [resolveNames_up]
      exact ih hrest (isPlain_stepUp hh)
    have hi' : isIdle name = false := by simpa using hi
    have hplain : PlainName name := by
      simp only [isIdle, Bool.or_eq_false_iff, beq_eq_false_iff_ne] at hi'
      exact ⟨hi'.1, hi'.2, hn name (by simp)⟩
    have hnext := hh.child hplain
    have hafter := Path.isPlain_parse (Text.joinWith "/" rest)
    intro seen r seen' hs h
    obtain ⟨-, h⟩ | ⟨target, -, ⟨q, hq, h⟩ | ⟨-, rfl, rfl⟩ | ⟨found, seen1, hfol, hend⟩⟩ :=
      resolveNames_into hi' hu h
    · exact ih hrest hnext seen r seen' hs h
    · exact ih hrest (hs _ (Assoc.mem_of_get? hq) q rfl) seen r seen' hs h
    · exact ⟨hnext.join hafter, hs⟩
    · obtain ⟨hp, hs1⟩ := hf here target hh _ found seen1 (hs.note _ (by simp)) hfol
      obtain ⟨p, rfl, rfl, rfl⟩ | ⟨q, rfl, h⟩ := hend
      · exact ⟨hp.join hafter, hs1⟩
      · refine ih hrest hp _ r seen' (hs1.note _ fun q' hq' => ?_) h
        cases hq'
        exact hp

theorem givesPlain_resolveText (fs : Files) (depth : Nat) (hh : here.IsPlain) (text : Text) :
    GivesPlain (fs.resolveText depth here text) := by
  induction depth generalizing here text with
  | zero =>
    intro seen r seen' hs h
    cases h
    exact ⟨hh, hs⟩
  | succ depth ih =>
    rw [resolveText]
    refine givesPlain_resolveNames (fun here target hp => ih hp target)
      (fun name hm => Text.contains_of_mem_split name hm) ?_
    split
    · intro n hm
      simp at hm
    · exact hh

theorem resolvePath_of_resolve (h : fs.resolve p = .ok q) : fs.resolvePath p = .ok q := by
  unfold resolve at h
  obtain ⟨q', hq', h⟩ := bind_ok_iff.mp h
  split at h
  · cases h
  · cases h
    exact hq'
  · cases h
    exact hq'
  · cases h

/-- A resolved path is absolute and has proper names. -/
theorem proper_of_resolve (hn : fs.StartsProper) (h : fs.resolve p = .ok q) :
    q.isAbsolute = true ∧ ∀ name ∈ q.names, ProperName name := by
  have hcwd : (absolute fs.workingDirectory).IsPlain := fun n hm =>
    ⟨(hn n hm).nonempty, (hn n hm).notDot, (hn n hm).noSlash⟩
  have hstart : Path.IsPlain ⟨.relative, []⟩ := fun n hm => by simp at hm
  have hgives := givesPlain_resolveText fs maxNested hstart p.text []
  replace h := resolvePath_of_resolve h
  unfold resolvePath at h
  split at h
  · next r seen hr =>
    cases h
    have hr' := (hgives _ _ (by simp [SeenPlain]) hr).1
    exact Path.proper_normalize (Path.isAbsolute_join rfl _) (hcwd.join hr')
  · next r seen hr =>
    cases h
    have hr' := (hgives _ _ (by simp [SeenPlain]) hr).1
    exact Path.proper_normalize (Path.isAbsolute_join rfl _) (hcwd.join hr')
  · cases h

/-- Every name of a resolved path is one that reading keeps. -/
theorem isPlain_of_resolve (hn : fs.StartsProper) (h : fs.resolve p = .ok q) : q.IsPlain := by
  intro n hm
  have hp := (proper_of_resolve hn h).2 n hm
  exact ⟨hp.nonempty, hp.notDot, hp.noSlash⟩

/-- The text of a resolved path is read as that path. -/
theorem parse_text_of_resolve (hn : fs.StartsProper) (h : fs.resolve p = .ok q) :
    Path.parse q.text = q :=
  Path.parse_text (isPlain_of_resolve hn h)

end Files

/-! ### Kept texts -/

/-- No half of a text is the first of a pair, so keeping it changes nothing, whatever it is put
together with. -/
def Text.Settled (t : Text) : Prop := ∀ p ∈ t.points, ∀ q : CodePoint, p.join? q = none

namespace Text

variable {ps : List CodePoint} {t : Text}

private theorem joinHalves_of_settled (h : ∀ p ∈ ps, ∀ q : CodePoint, p.join? q = none) :
    joinHalves ps = ps := by
  induction ps with
  | nil => rfl
  | cons a rest ih =>
    cases rest with
    | nil => rfl
    | cons b rest =>
      have hrest := ih fun p hm => h p (by simp [hm])
      rw [joinHalves, h a (by simp) b]
      change a :: joinHalves (b :: rest) = _
      rw [hrest]

/-- A settled text is kept as it is. -/
theorem Settled.joined (h : t.Settled) : t.joined = t := by
  obtain ⟨points⟩ := t
  rw [Text.joined, joinHalves_of_settled h]

private theorem join_eq_some {p q c : CodePoint} (h : p.join? q = some c) :
    ∀ r : CodePoint, r.join? c = none ∧ c.join? r = none := by
  obtain ⟨d, rfl⟩ : ∃ d, c = .char d := by
    unfold CodePoint.join? at h
    split at h
    · next a b =>
      split at h
      · rw [Option.some.injEq, CodePoint.ofCode, dif_neg (by omega)] at h
        exact ⟨_, h.symm⟩
      · cases h
    · cases h
  intro r
  cases r with
  | char e => exact ⟨rfl, rfl⟩
  | half e => exact ⟨rfl, rfl⟩

private theorem joinHalves_cons {p : CodePoint} (h : ∀ q, ps.head? = some q → p.join? q = none) :
    joinHalves (p :: ps) = p :: joinHalves ps := by
  cases ps with
  | nil => rfl
  | cons q rest => rw [joinHalves, h q rfl]

private theorem joinHalves_joinHalves (ps : List CodePoint) :
    joinHalves (joinHalves ps) = joinHalves ps := by
  induction ps using joinHalves.induct with
  | case1 a b rest c hc ih =>
    rw [joinHalves, hc]
    dsimp only
    rw [joinHalves_cons fun q _ => (join_eq_some hc q).2, ih]
  | case2 a b rest hn ih =>
    rw [joinHalves, hn]
    dsimp only
    rw [joinHalves_cons ?_, ih]
    -- The first code point after `a` is `b`, or a character that was put together.
    intro q hq
    cases rest with
    | nil =>
      cases hq
      exact hn
    | cons r rest =>
      rw [joinHalves] at hq
      split at hq
      · next c hc =>
        cases hq
        exact (join_eq_some hc a).1
      · cases hq
        exact hn
  | case3 ps hps =>
    have hself : joinHalves ps = ps := by
      unfold joinHalves
      split
      · next a b rest => exact absurd rfl (hps a b rest)
      · rfl
    rw [hself, hself]

/-- A text whose halves were put together has no pair left. -/
theorem joined_joined (t : Text) : t.joined.joined = t.joined :=
  congrArg Text.mk (joinHalves_joinHalves t.points)

/-- A text of characters is settled. -/
theorem settled_ofChars (cs : List Char) : (ofChars cs).Settled := by
  intro p hm q
  obtain ⟨c, -, rfl⟩ := List.mem_map.mp hm
  rfl

/-- There is no refused run exactly if no code point is refused. -/
theorem refusedRun?_eq_none_iff {refused : CodePoint → Bool} {start : Nat} :
    Utf8.refusedRun? refused start ps = none ↔ ∀ p ∈ ps, refused p = false := by
  induction ps generalizing start with
  | nil => simp [Utf8.refusedRun?]
  | cons p ps ih =>
    rw [Utf8.refusedRun?, List.forall_mem_cons]
    cases hp : refused p with
    | true => simp
    | false => simp [ih]

/-- Every half of a text that can name a file stands for a byte. -/
theorem nameByte_of_nameable (h : t.unnameable? = none) :
    ∀ p ∈ t.points, p.isHalf = true → (nameByte? p).isSome = true := by
  intro p hm hp
  have := refusedRun?_eq_none_iff.mp h p hm
  rw [hp, Bool.true_and, Option.isNone_eq_false_iff] at this
  exact this

/-- A text that can name a file is settled: a half that stands for a byte is a second half. -/
theorem settled_of_nameable (h : t.unnameable? = none) : t.Settled := by
  intro p hm q
  cases p with
  | char c => rfl
  | half n =>
    cases q with
    | char c => rfl
    | half m =>
      have hn : 0x480 ≤ n.val := by
        by_contra hlt
        have hsome := nameByte_of_nameable h _ hm rfl
        simp [nameByte?, hlt] at hsome
      have hlow : ¬ n.val < 0x400 := by omega
      simp [CodePoint.join?, hlow]

end Text

namespace Files

variable {p q : Path} {fs : Files}

/-- A path that is not refused out of hand has a text that can name a file, and not a long one. -/
theorem checkPath_eq_ok (h : checkPath p = .ok ()) :
    p.text.unnameable? = none ∧ p.text.nameSize < pathLimit := by
  unfold checkPath at h
  split at h
  · cases h
  · next hu =>
    split at h
    · cases h
    · split at h
      · cases h
      · next hl => exact ⟨hu, Nat.lt_of_not_le hl⟩

/-- What a path leads to is found only if the path is not refused out of hand. -/
theorem checkPath_of_stat {e : Entry} (h : fs.stat p = .ok e) : checkPath p = .ok () := by
  unfold stat locate at h
  obtain ⟨found, hl, -⟩ := bind_ok_iff.mp h
  obtain ⟨⟨⟩, hc, -⟩ := bind_ok_iff.mp hl
  exact hc

/-- Only the operating system refuses to look up a resolved path. -/
theorem refused_of_resolve (h : fs.resolve p = .ok q) {e : Fault} (he : fs.stat q = .error e) :
    ∃ code place, e = .os code place := by
  unfold resolve at h
  obtain ⟨q', hq', h⟩ := bind_ok_iff.mp h
  split at h
  · cases h
  · next hs =>
    cases h
    cases hs.symm.trans he
    exact ⟨_, _, rfl⟩
  · next hs =>
    cases h
    cases hs.symm.trans he
  · cases h

/-- The text of a resolved path can name a file. -/
theorem nameable_of_resolve (h : fs.resolve p = .ok q) : q.text.unnameable? = none := by
  cases hu : Text.unnameable? q.text with
  | none => rfl
  | some e =>
    have hcheck : checkPath q = .error (.encoding e) := by rw [checkPath, hu]
    have hstat : fs.stat q = .error (.encoding e) := by
      rw [stat, locate, hcheck]
      rfl
    obtain ⟨code, place, he⟩ := refused_of_resolve h hstat
    cases he

/-- The text of a resolved path has no null character. -/
theorem noNull_of_resolve (h : fs.resolve p = .ok q) : q.text.contains '\x00' = false := by
  cases hc : Text.contains q.text '\x00' with
  | false => rfl
  | true =>
    have hcheck : ∃ t, checkPath q = .error (.range t) := by
      rw [checkPath, nameable_of_resolve h]
      exact ⟨_, if_pos hc⟩
    obtain ⟨t, hcheck⟩ := hcheck
    have hstat : fs.stat q = .error (.range t) := by
      rw [stat, locate, hcheck]
      rfl
    obtain ⟨code, place, he⟩ := refused_of_resolve h hstat
    cases he

/-- The text of a resolved path is kept as it is. -/
theorem joined_of_resolve (h : fs.resolve p = .ok q) : q.text.joined = q.text :=
  (Text.settled_of_nameable (nameable_of_resolve h)).joined

end Files

end RoutePlugins
