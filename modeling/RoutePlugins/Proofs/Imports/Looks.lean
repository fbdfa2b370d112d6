import RoutePlugins.Proofs.Files.LongPaths
import RoutePlugins.Proofs.Imports.Found

/-!
# The order in which specifiers are looked up

Resolving a specifier looks at one path after the other and takes the first that is there. The looks
are listed here: the candidates in order, each as the file it names, with the source extensions, as
the directory of an index file and as a directory. What resolving gives is read off the first look
that does not answer no. The targets of aliases are said without the search for a star: a pattern
fits if it is the specifier, or if the specifier begins and ends as the pattern does around its
first star.
-/

namespace RoutePlugins

open List

/-! ### Double dots of relative paths -/

namespace Path

/-- A relative path with a name behind it: a double dot takes the last name away, unless that is a
double dot itself. -/
def climb (here : List Text) (name : Text) : List Text :=
  if name = ".." ∧ here ≠ [] ∧ here.getLast? ≠ some (Text.ofString "..") then here.dropLast
  else here ++ [name]

theorem foldRelative_eq (names : List Text) : foldRelative names = names.foldl climb [] := by
  unfold foldRelative
  congr 1
  funext here name
  unfold climb
  congr 1
  simp [and_assoc]

/-- Names that have double dots only at the front. -/
def Leading (names : List Text) : Prop :=
  ∀ (front back : List Text), names = front ++ Text.ofString ".." :: back → ∀ n ∈ front, n = ".."

theorem Leading.front {names rest : List Text} (h : Leading (names ++ rest)) : Leading names :=
  fun front back hsplit => h front (back ++ rest) (by rw [hsplit]; simp)

theorem Leading.climb {here : List Text} (h : Leading here) (name : Text) :
    Leading (climb here name) := by
  unfold Path.climb
  split
  · next hup =>
    have hsplit := dropLast_append_getLast hup.2.1
    exact Leading.front (hsplit ▸ h)
  · next hkeep =>
    intro front back hsplit n hn
    rcases eq_nil_or_concat' back with rfl | ⟨back, last, rfl⟩
    · -- The double dot is new, so there is nothing before it that it could take away.
      obtain ⟨rfl, hname⟩ := append_inj' hsplit rfl
      obtain rfl := singleton_injective hname
      have hdots : here.getLast? = some (Text.ofString "..") := by
        by_contra hlast
        exact hkeep ⟨rfl, ne_nil_of_mem hn, hlast⟩
      obtain ⟨above, rfl⟩ := List.getLast?_eq_some_iff.mp hdots
      rcases mem_append.mp hn with hn | hn
      · exact h above [] rfl n hn
      · exact mem_singleton.mp hn
    · rw [← cons_append, ← append_assoc] at hsplit
      exact h front back (append_inj' hsplit rfl).1 n hn

theorem foldl_climb {here names : List Text} (h : Leading (here ++ names)) :
    names.foldl climb here = here ++ names := by
  induction names generalizing here with
  | nil => simp
  | cons name rest ih =>
    have hstep : climb here name = here ++ [name] := by
      unfold climb
      refine if_neg ?_
      rintro ⟨rfl, hne, hlast⟩
      refine hlast ?_
      rw [List.getLast?_eq_some_getLast hne]
      exact congrArg some (h here rest rfl _ (getLast_mem hne))
    rw [foldl_cons, hstep, ih (by simpa using h)]
    simp

theorem leading_foldRelative (names : List Text) : Leading (foldRelative names) := by
  rw [foldRelative_eq]
  have hfold (here : List Text) (h : Leading here) : Leading (names.foldl climb here) := by
    induction names generalizing here with
    | nil => exact h
    | cons name rest ih => exact ih _ (h.climb name)
  exact hfold [] fun front back hsplit => by simp at hsplit

/-- Taking double dots twice is taking them once. -/
theorem IsPlain.normalize_normalize {p : Path} (h : p.IsPlain) :
    p.normalize.normalize = p.normalize := by
  by_cases habs : p.isAbsolute = true
  · exact Path.normalize_normalize habs h
  · have habs' : ¬ p.normalize.isAbsolute = true := by rwa [isAbsolute_normalize]
    have hnames : p.normalize = ⟨p.anchor, foldRelative p.names⟩ := if_neg habs
    rw [Path.normalize, if_neg habs', hnames]
    congr 1
    rw [foldRelative_eq (foldRelative p.names), foldl_climb (leading_foldRelative p.names)]
    rfl

end Path

/-! ### Stars -/

namespace Text

/-- A text with every star replaced by `token`. -/
def starred (token t : Text) : Text :=
  ⟨t.points.flatMap fun p => if p = .char '*' then token.points else [p]⟩

theorem replace_star (t token : Text) : t.replace "*" token = starred token t := by
  obtain ⟨points⟩ := t
  refine congrArg Text.mk ?_
  change replaceFrom [.char '*'] token.points 0 points = _
  induction points with
  | nil => rfl
  | cons p ps ih =>
    rw [replaceFrom, flatMap_cons]
    by_cases hp : p = .char '*'
    · have hfront : [CodePoint.char '*'].isPrefixOf (p :: ps) = true := by simp [hp]
      rw [if_pos hfront, if_pos hp]
      exact congrArg (token.points ++ ·) ih
    · have hfront : ¬ [CodePoint.char '*'].isPrefixOf (p :: ps) = true := by
        simpa [List.isPrefixOf] using fun h => hp h.symm
      rw [if_neg hfront, if_neg hp, ih]
      rfl

/-- Code points are cut at the first separator. -/
theorem cutPoints?_eq_some_iff {sep : CodePoint} {ps a b : List CodePoint} :
    cutPoints? sep ps = some (a, b) ↔ ps = a ++ sep :: b ∧ sep ∉ a := by
  induction ps generalizing a with
  | nil => simp [cutPoints?]
  | cons p ps ih =>
    rw [cutPoints?]
    by_cases hp : p = sep
    · subst hp
      rw [if_pos (by simp)]
      cases a with
      | nil => simp [eq_comm]
      | cons q a =>
        simp only [Option.some.injEq, Prod.mk.injEq, nil_eq, reduceCtorEq, false_and,
          cons_append, List.cons.injEq, mem_cons, not_or, false_iff, not_and]
        rintro ⟨rfl, -⟩ hne
        exact absurd rfl hne
    · rw [if_neg (by simpa using hp)]
      cases a with
      | nil => simp [hp]
      | cons q a =>
        simp only [Option.map_eq_some_iff, Prod.exists, Prod.mk.injEq, cons_append,
          List.cons.injEq, mem_cons, not_or]
        constructor
        · rintro ⟨x, y, h, ⟨rfl, rfl⟩, rfl⟩
          obtain ⟨hps, hx⟩ := ih.mp h
          exact ⟨⟨rfl, hps⟩, fun h => hp h.symm, hx⟩
        · rintro ⟨⟨rfl, hps⟩, -, hx⟩
          exact ⟨a, b, ih.mpr ⟨hps, hx⟩, ⟨rfl, rfl⟩, rfl⟩

/-- A pattern with a star is cut at its first star. -/
theorem cut?_star_iff {t front back : Text} :
    t.cut? '*' = some (front, back) ↔ t = front ++ "*" ++ back ∧ front.contains '*' = false := by
  obtain ⟨points⟩ := t
  obtain ⟨a⟩ := front
  obtain ⟨b⟩ := back
  rw [contains_eq_false]
  have happ : (Text.mk points = ⟨a⟩ ++ ofString "*" ++ ⟨b⟩) ↔ points = a ++ .char '*' :: b := by
    change (Text.mk points = ⟨a ++ [.char '*'] ++ b⟩) ↔ _
    rw [Text.mk.injEq, append_assoc]
    rfl
  rw [happ, ← cutPoints?_eq_some_iff, cut?, Option.map_eq_some_iff]
  constructor
  · rintro ⟨⟨x, y⟩, h, hxy⟩
    cases hxy
    exact h
  · exact fun h => ⟨(a, b), h, rfl⟩

theorem cut?_eq_none_iff {t : Text} {sep : CodePoint} :
    t.cut? sep = none ↔ t.contains sep = false := by
  rw [contains_eq_false, cut?, Option.map_eq_none_iff]
  obtain ⟨points⟩ := t
  induction points with
  | nil => simp [cutPoints?]
  | cons p ps ih =>
    rw [cutPoints?]
    by_cases hp : p = sep
    · simp [hp]
    · rw [if_neg (by simpa using hp), Option.map_eq_none_iff, ih]
      simpa using fun h => fun hs => hp hs.symm

end Text

namespace Imports

/-! ### Looks -/

/-- A question that resolving asks about a candidate. -/
inductive Look where
  /-- Is it a file? -/
  | file (p : Path)
  /-- Is it a file with an extension behind its name? -/
  | extended (candidate : Path) (ext : Text)
  /-- Is it a directory? -/
  | directory (p : Path)

namespace Look

/-- The path that a look is at. -/
def path : Look → Path
  | .file p => p
  | .extended candidate ext => candidate.parent.child (candidate.name ++ ext)
  | .directory p => p

/-- What a look finds. A path without a name cannot be extended. -/
def answer (fs : Files) : Look → Except Fault Bool
  | .file p => fs.isFile p
  | .extended candidate ext =>
    if candidate.names = [] then .error (.range (.emptyName candidate.text))
    else fs.isFile (candidate.parent.child (candidate.name ++ ext))
  | .directory p => fs.isDirectory p

/-- The path that a look extends has a name, if it extends one. -/
def Named : Look → Prop
  | .extended candidate _ => candidate.names ≠ []
  | _ => True

/-- The faults that looks raise. -/
inductive Raises (fs : Files) : Look → Fault → Prop
  /-- There is no name behind which an extension could stand. -/
  | unnamed {candidate : Path} {ext : Text} (h : candidate.names = []) :
      Raises fs (.extended candidate ext) (.range (.emptyName candidate.text))
  /-- The path is too long for a file. -/
  | tooLong {l : Look} (hn : l.Named) (h : fs.TooLong l.path) :
      Raises fs l (.os .nameTooLong (Text.quoted l.path.text))

/-- A look fails with the faults that it raises and with no others. -/
theorem answer_eq_error_iff {fs : Files} {l : Look} {e : Fault} :
    l.answer fs = .error e ↔ Raises fs l e := by
  have hlong (hn : l.Named) :
      Raises fs l e ↔ fs.TooLong l.path ∧ e = .os .nameTooLong (Text.quoted l.path.text) := by
    constructor
    · intro h
      cases h with
      | unnamed h => exact absurd h hn
      | tooLong _ h => exact ⟨h, rfl⟩
    · rintro ⟨h, rfl⟩
      exact .tooLong hn h
  cases l with
  | file p =>
    rw [hlong trivial]
    exact Files.foundWith_eq_error_iff
  | directory p =>
    rw [hlong trivial]
    exact Files.foundWith_eq_error_iff
  | extended candidate ext =>
    by_cases hn : candidate.names = []
    · rw [answer, if_pos hn]
      constructor
      · rintro ⟨⟩
        exact .unnamed hn
      · intro h
        cases h with
        | unnamed _ => rfl
        | tooLong hn' => exact absurd hn hn'
    · rw [hlong hn, answer, if_neg hn]
      exact Files.foundWith_eq_error_iff

end Look

/-- The looks at a candidate: the file as it stands, with the extensions, the index files in it, and
the directory. -/
def looks (candidate : Path) : List Look :=
  .file candidate :: (sourceExts.map (.extended candidate) ++
    ((sourceExts.map fun ext => candidate.child ("index" ++ ext)).map .file ++
      [.directory candidate]))

/-- The path of the first look that finds something; the first fault before that is raised. -/
def firstFound (fs : Files) : List Look → Except Fault (Option Path)
  | [] => .ok none
  | l :: rest => do if ← l.answer fs then return some l.path else firstFound fs rest

variable {fs : Files}

theorem firstFound_append (ls rest : List Look) :
    firstFound fs (ls ++ rest) = (do
      match ← firstFound fs ls with
      | some p => return some p
      | none => firstFound fs rest) := by
  induction ls with
  | nil => rfl
  | cons l ls ih =>
    rw [cons_append, firstFound, firstFound, bind_assoc]
    refine bind_congr fun b => ?_
    cases b with
    | true => rfl
    | false => exact ih

/-- Some looks find nothing, and the next one decides. -/
theorem firstFound_of_front {front back : List Look} {l : Look}
    (h : ∀ x ∈ front, x.answer fs = .ok false) :
    firstFound fs (front ++ l :: back) = firstFound fs (l :: back) := by
  induction front with
  | nil => rfl
  | cons x front ih =>
    rw [cons_append, firstFound, h x (by simp)]
    exact ih fun y hy => h y (by simp [hy])

theorem firstFound_eq_none_iff {ls : List Look} :
    firstFound fs ls = .ok none ↔ ∀ l ∈ ls, l.answer fs = .ok false := by
  induction ls with
  | nil => simp [firstFound]
  | cons l ls ih =>
    rw [firstFound, forall_mem_cons, ← ih]
    cases l.answer fs with
    | error e => simp [bind, Except.bind]
    | ok b => cases b <;> simp [bind, Except.bind, pure, Except.pure]

/-- Among looks some of which find something or fail there is a first one. -/
theorem exists_first {ls : List Look} (h : ¬ ∀ l ∈ ls, l.answer fs = .ok false) :
    ∃ front l back, ls = front ++ l :: back ∧ (∀ x ∈ front, x.answer fs = .ok false) ∧
      l.answer fs ≠ .ok false := by
  induction ls with
  | nil => simp at h
  | cons l ls ih =>
    by_cases hl : l.answer fs = .ok false
    · obtain ⟨front, x, back, rfl, hfront, hx⟩ := ih fun hall =>
        h (forall_mem_cons.mpr ⟨hl, hall⟩)
      exact ⟨l :: front, x, back, rfl, forall_mem_cons.mpr ⟨hl, hfront⟩, hx⟩
    · exact ⟨[], l, ls, rfl, by simp, hl⟩

/-- A path with a name is extended at its name. -/
theorem extendName_sourceExt {p : Path} (hp : p.IsPlain) (hne : p.names ≠ []) {ext : Text}
    (he : ext ∈ sourceExts) : p.extendName ext = .ok (p.parent.child (p.name ++ ext)) := by
  have hname : PlainName p.name := by
    rw [Path.name, List.getLast?_eq_some_getLast hne]
    exact hp _ (getLast_mem hne)
  have hslash := (plainName_extended hname he).1.noSlash
  unfold Path.extendName
  rw [if_neg (by simpa using hne)]
  dsimp only
  rw [hslash]

theorem findExtended_eq {candidate : Path} (hc : candidate.IsPlain) {exts : List Text}
    (he : ∀ ext ∈ exts, ext ∈ sourceExts) :
    findExtended fs candidate exts = firstFound fs (exts.map (.extended candidate)) := by
  induction exts with
  | nil => rfl
  | cons ext rest ih =>
    rw [findExtended, map_cons, firstFound, ih fun x hx => he x (by simp [hx])]
    by_cases hne : candidate.names = []
    · rw [Path.extendName, if_pos (by simp [hne]), Look.answer, if_pos hne]
      rfl
    · rw [extendName_sourceExt hc hne (he ext (by simp)), Look.answer, if_neg hne]
      rfl

theorem findM?_isFile_eq (paths : List Path) :
    paths.findM? fs.isFile = firstFound fs (paths.map .file) := by
  induction paths with
  | nil => rfl
  | cons p rest ih =>
    rw [List.findM?, map_cons, firstFound, ih]
    refine bind_congr fun b => ?_
    cases b with
    | true => rfl
    | false => rfl

theorem joinText_index (candidate : Path) {ext : Text} (he : ext ∈ sourceExts) :
    candidate.joinText ("index" ++ ext) = candidate.child ("index" ++ ext) := by
  have hparse : ∀ ext ∈ sourceExts,
      Path.parse ("index" ++ ext) = ⟨.relative, [Text.ofString "index" ++ ext]⟩ := by decide
  rw [Path.joinText, hparse ext he]
  rfl

/-- A candidate stands for the path of the first look at it that finds something. -/
theorem findSource_eq {candidate : Path} (hc : candidate.IsPlain) :
    findSource fs sourceExts candidate = firstFound fs (looks candidate) := by
  have hindexes : sourceExts.map (fun ext => candidate.joinText ("index" ++ ext)) =
      sourceExts.map (fun ext => candidate.child ("index" ++ ext)) :=
    map_congr_left fun ext he => joinText_index candidate he
  rw [looks, firstFound, findSource, ← hindexes]
  refine bind_congr fun isFile => ?_
  cases isFile with
  | true => rfl
  | false =>
    change (findExtended fs candidate sourceExts >>= _) = firstFound fs (_ ++ _)
    rw [firstFound_append, ← findExtended_eq hc fun _ he => he]
    refine bind_congr fun extended => ?_
    cases extended with
    | some p => rfl
    | none =>
      change (List.findM? fs.isFile _ >>= _) = firstFound fs (_ ++ _)
      rw [firstFound_append, ← findM?_isFile_eq]
      refine bind_congr fun index => ?_
      cases index with
      | some p => rfl
      | none =>
        refine bind_congr fun isDirectory => ?_
        cases isDirectory with
        | true => rfl
        | false => rfl

/-- The first candidate that stands for something is found by the looks at all of them. -/
theorem firstSource_eq {candidates : List Path} (hc : ∀ c ∈ candidates, c.IsPlain) :
    firstSource fs candidates =
      firstFound fs (candidates.flatMap fun c => looks c.normalize) := by
  induction candidates with
  | nil => rfl
  | cons c rest ih =>
    rewrite [firstSource, flatMap_cons, firstFound_append,
      findSource_eq (hc c (by simp)).normalize, ih fun x hx => hc x (by simp [hx])]
    refine bind_congr fun o => ?_
    cases o with
    | some p => rfl
    | none => rfl

/-! ### Candidates -/

/-- A star stands for what is between the two sides of it. -/
theorem starToken?_eq_some_iff {front back specifier token : Text} :
    starToken? front back specifier = some token ↔ specifier = front ++ token ++ back := by
  obtain ⟨f⟩ := front
  obtain ⟨b⟩ := back
  obtain ⟨s⟩ := specifier
  obtain ⟨t⟩ := token
  have hcond : ((Text.mk s).startsWith ⟨f⟩ && (Text.mk s).endsWith ⟨b⟩ &&
      decide ((Text.mk f).length + (Text.mk b).length ≤ (Text.mk s).length)) = true ↔
      ∃ mid, s = f ++ mid ++ b := by
    rw [Bool.and_eq_true, Bool.and_eq_true, decide_eq_true_eq]
    change (f.isPrefixOf s = true ∧ b.isSuffixOf s = true) ∧ f.length + b.length ≤ s.length ↔ _
    rw [List.isPrefixOf_iff_prefix, isSuffixOf_iff_suffix]
    constructor
    · rintro ⟨⟨⟨rest, rfl⟩, hback⟩, hlen⟩
      rw [length_append] at hlen
      obtain ⟨mid, rfl⟩ := suffix_of_suffix_length_le hback (suffix_append f rest)
        (by omega)
      exact ⟨mid, by rw [append_assoc]⟩
    · rintro ⟨mid, rfl⟩
      refine ⟨⟨⟨mid ++ b, by rw [append_assoc]⟩, ⟨f ++ mid, rfl⟩⟩, ?_⟩
      rw [length_append, length_append]
      omega
  have hmid (mid : List CodePoint) : ((f ++ mid ++ b).drop f.length).take
      ((f ++ mid ++ b).length - f.length - b.length) = mid := by
    rw [append_assoc, drop_left]
    refine take_left' ?_
    rw [length_append, length_append]
    omega
  have happ (mid : List CodePoint) : Text.mk s = ⟨f⟩ ++ ⟨mid⟩ ++ ⟨b⟩ ↔ s = f ++ mid ++ b := by
    change Text.mk s = ⟨f ++ mid ++ b⟩ ↔ _
    rw [Text.mk.injEq]
  rw [happ, starToken?]
  split
  · next h =>
    obtain ⟨mid, rfl⟩ := hcond.mp h
    change some (Text.mk _) = some ⟨t⟩ ↔ _
    rw [Option.some.injEq, Text.mk.injEq]
    change ((f ++ mid ++ b).drop f.length).take
      ((f ++ mid ++ b).length - f.length - b.length) = t ↔ _
    rw [hmid]
    constructor
    · rintro rfl
      rfl
    · intro h
      exact append_cancel_left (append_cancel_right h)
  · next h =>
    constructor
    · rintro ⟨⟩
    · exact fun hs => absurd (hcond.mpr ⟨t, hs⟩) h

/-- The targets that a pattern gives for a specifier: those of a pattern that is the specifier, and
those of a pattern that fits around its first star, with every star replaced by what it stands
for. -/
inductive Expands (specifier : Text) : Text × List Text → List Text → Prop
  | same {pattern : Text} {targets : List Text} (hstar : pattern.contains '*' = false)
      (h : specifier = pattern) : Expands specifier (pattern, targets) targets
  | star {front token back : Text} {targets : List Text} (hstar : front.contains '*' = false)
      (h : specifier = front ++ token ++ back) :
      Expands specifier (front ++ "*" ++ back, targets) (targets.map (Text.starred token))
  | other {pattern : Text} {targets : List Text} (hsame : specifier ≠ pattern)
      (hstar : ∀ front token back : Text, pattern = front ++ "*" ++ back →
        front.contains '*' = false → specifier ≠ front ++ token ++ back) :
      Expands specifier (pattern, targets) []

private theorem map_replace_star (targets : List Text) (token : Text) :
    (targets.map fun t => t.replace "*" token) = targets.map (Text.starred token) :=
  map_congr_left fun t _ => Text.replace_star t token

/-- What a pattern gives is what it expands to. -/
theorem expands_patternTargets (specifier pattern : Text) (targets : List Text) :
    Expands specifier (pattern, targets) (patternTargets specifier pattern targets) := by
  unfold patternTargets
  split
  · next front back hcut =>
    obtain ⟨rfl, hfront⟩ := Text.cut?_star_iff.mp hcut
    split
    · next token htoken =>
      rw [map_replace_star]
      exact .star hfront (starToken?_eq_some_iff.mp htoken)
    · next hnone =>
      have hno (token : Text) : specifier ≠ front ++ token ++ back := by
        intro h
        rw [starToken?_eq_some_iff.mpr h] at hnone
        cases hnone
      -- A pattern that is the specifier would fit with a star for its star.
      refine .other (hno "*") fun front' token back' hpattern hfront' => ?_
      have hcut' := Text.cut?_star_iff.mpr ⟨hpattern, hfront'⟩
      rw [hcut] at hcut'
      cases hcut'
      exact hno token
  · next hcut =>
    have hplain := Text.cut?_eq_none_iff.mp hcut
    split
    · next hs => exact .same hplain (beq_iff_eq.mp hs)
    · next hs =>
      refine .other (fun h => hs (beq_iff_eq.mpr h)) fun front token back hpattern hfront => ?_
      rw [Text.cut?_star_iff.mpr ⟨hpattern, hfront⟩] at hcut
      cases hcut

/-- A pattern expands in one way only. -/
theorem Expands.eq_patternTargets {specifier pattern : Text} {targets found : List Text}
    (h : Expands specifier (pattern, targets) found) :
    found = patternTargets specifier pattern targets := by
  unfold patternTargets
  cases h with
  | same hstar h =>
    rw [Text.cut?_eq_none_iff.mpr hstar]
    simp [h]
  | star hstar h =>
    rw [Text.cut?_star_iff.mpr ⟨rfl, hstar⟩]
    dsimp only
    rw [starToken?_eq_some_iff.mpr h]
    exact (map_replace_star targets _).symm
  | other hsame hstar =>
    cases hcut : pattern.cut? '*' with
    | none => simp [hsame]
    | some sides =>
      obtain ⟨hpattern, hfront⟩ := Text.cut?_star_iff.mp hcut
      have hnone : starToken? sides.1 sides.2 specifier = none := by
        by_contra hsome
        obtain ⟨token, htoken⟩ := Option.ne_none_iff_exists'.mp hsome
        exact hstar _ token _ hpattern hfront (starToken?_eq_some_iff.mp htoken)
      dsimp only
      rw [hnone]

/-- The patterns of a project, in declared order. -/
def patternsOf : Option Aliases → List (Text × List Text)
  | none => []
  | some a => a.paths

/-- Patterns with what they expand to for a specifier. -/
def Expansions (specifier : Text) (aliases : Option Aliases) (expansions : List (List Text)) :
    Prop :=
  List.Forall₂ (Expands specifier) (patternsOf aliases) expansions

theorem exists_expansions (specifier : Text) (aliases : Option Aliases) :
    ∃ expansions, Expansions specifier aliases expansions := by
  unfold Expansions
  induction patternsOf aliases with
  | nil => exact ⟨[], .nil⟩
  | cons pattern rest ih =>
    obtain ⟨expansions, h⟩ := ih
    exact ⟨_ :: expansions, .cons (expands_patternTargets specifier pattern.1 pattern.2) h⟩

/-- What is looked for below the base directory of the aliases, if `targets` are theirs. -/
def below (root : Path) (aliases : Option Aliases) (specifier : Text) (targets : List Text) :
    List Path :=
  match aliases with
  | none => []
  | some a =>
    let base := (root.joinText a.baseUrl).normalize
    (targets ++ [specifier]).map fun target => (base.joinText target).normalize

/-- The paths at which a specifier is looked for, in order. -/
def candidates (root importer : Path) (aliases : Option Aliases) (specifier : Text)
    (targets : List Text) : List Path :=
  let beside := (importer.parent.joinText specifier).normalize
  if specifier.startsWith "." then [beside]
  else below root aliases specifier targets ++ [packagePath root specifier, beside]

/-- The looks that resolving a specifier makes, in order. -/
def allLooks (root importer : Path) (aliases : Option Aliases) (specifier : Text)
    (targets : List Text) : List Look :=
  (candidates root importer aliases specifier targets).flatMap looks

/-- What a specifier resolves to if nothing is found. -/
def unfound (root importer : Path) (specifier : Text) (targets : List Text) : Except Fault Path :=
  if specifier.startsWith "." then .error (.unresolved false specifier importer.text)
  else if targets = [] then .ok (packagePath root specifier)
  else .error (.unresolved true specifier importer.text)

/-- The targets of all patterns are those that the patterns expand to, taken together. -/
theorem aliasCandidates_eq {specifier : Text} {base : Path} {paths : List (Text × List Text)}
    {expansions : List (List Text)} (h : List.Forall₂ (Expands specifier) paths expansions) :
    aliasCandidates specifier base paths =
      (expansions.flatten ++ [specifier]).map base.joinText := by
  unfold aliasCandidates
  rw [map_append]
  congr 1
  induction h with
  | nil => rfl
  | @cons pattern found _ _ hp _ ih =>
    obtain ⟨pattern, targets⟩ := pattern
    rw [flatMap_cons, ih, flatten_cons, map_append, hp.eq_patternTargets]

variable {root importer : Path} {aliases : Option Aliases} {specifier : Text}
  {expansions : List (List Text)}

/-- What the aliases give is what is looked for below the base directory. -/
theorem map_normalize_projectCandidates (hexp : Expansions specifier aliases expansions) :
    (projectCandidates root aliases specifier).map Path.normalize =
      below root aliases specifier expansions.flatten := by
  cases aliases with
  | none => rfl
  | some a =>
    have hpaths : List.Forall₂ (Expands specifier) a.paths expansions := hexp
    rw [projectCandidates, aliasCandidates_eq hpaths, map_map]
    rfl

/-- The aliases give more than the specifier below the base directory if some pattern fits and has
a target. -/
theorem one_lt_length_projectCandidates (hexp : Expansions specifier aliases expansions) :
    1 < (projectCandidates root aliases specifier).length ↔ expansions.flatten ≠ [] := by
  cases aliases with
  | none =>
    cases hexp
    simp [projectCandidates]
  | some a =>
    have hpaths : List.Forall₂ (Expands specifier) a.paths expansions := hexp
    rw [projectCandidates, aliasCandidates_eq hpaths, length_map, length_append,
      ← length_pos_iff]
    simp

/-- The candidates of a bare specifier are looked at one after the other. -/
theorem firstSource_bare (hroot : root.IsPlain) (himporter : importer.IsPlain)
    (hexp : Expansions specifier aliases expansions) (hdot : specifier.startsWith "." = false) :
    firstSource fs (projectCandidates root aliases specifier ++
        [packagePath root specifier, importer.parent.joinText specifier]) =
      firstFound fs (allLooks root importer aliases specifier expansions.flatten) := by
  have hpackage : ((root.child "node_modules").joinText specifier).IsPlain :=
    (hroot.child plainName_nodeModules).join (Path.isPlain_parse _)
  have htwice : (packagePath root specifier).normalize = packagePath root specifier :=
    hpackage.normalize_normalize
  rw [firstSource_eq (isPlain_bareCandidates hroot himporter aliases specifier), allLooks,
    candidates, ← flatMap_map, map_append, map_normalize_projectCandidates hexp]
  simp [hdot, htwice]

/-- A specifier resolves by the looks at its candidates. -/
theorem resolve_eq (hroot : root.IsPlain) (himporter : importer.IsPlain)
    (hexp : Expansions specifier aliases expansions) :
    resolve fs root aliases specifier importer = (do
      match ← firstFound fs (allLooks root importer aliases specifier expansions.flatten) with
      | some p => return p
      | none => unfound root importer specifier expansions.flatten) := by
  unfold resolve unfound
  by_cases hdot : specifier.startsWith "." = true
  · have hbeside : (importer.parent.joinText specifier).IsPlain :=
      himporter.parent.join (Path.isPlain_parse _)
    rw [if_pos hdot, if_pos hdot, firstSource_eq (by simpa using hbeside), allLooks, candidates,
      if_pos hdot]
    rfl
  · rw [if_neg hdot, if_neg hdot]
    change (firstSource fs (_ ++ [packagePath root specifier, _]) >>= _) = _
    rw [firstSource_bare hroot himporter hexp (by simpa using hdot)]
    refine bind_congr fun o => ?_
    cases o with
    | some p => rfl
    | none =>
      change (if _ then _ else _) = (if _ then _ else _)
      by_cases hnone : expansions.flatten = []
      · rw [if_neg (by rw [one_lt_length_projectCandidates hexp]; exact fun h => h hnone),
          if_pos hnone]
        rfl
      · rw [if_pos ((one_lt_length_projectCandidates hexp).mpr hnone), if_neg hnone]
        rfl

/-- A specifier resolves to the first of its looks that finds something. Relative specifiers are
looked for beside the importing file only. Others are looked for at the targets of the patterns in
their declared order, below the base directory, as packages, and beside the importing file. A look
that fails before anything is found ends the search with its fault. -/
theorem first_look_decides (hroot : root.IsPlain) (himporter : importer.IsPlain) :
    (∃ expansions, Expansions specifier aliases expansions) ∧
    ∀ expansions, Expansions specifier aliases expansions →
      (∀ front l back,
        allLooks root importer aliases specifier expansions.flatten = front ++ l :: back →
        (∀ x ∈ front, x.answer fs = .ok false) →
        (l.answer fs = .ok true → resolve fs root aliases specifier importer = .ok l.path) ∧
        ∀ e, l.answer fs = .error e →
          l.Raises fs e ∧ resolve fs root aliases specifier importer = .error e) ∧
      ((∀ l ∈ allLooks root importer aliases specifier expansions.flatten,
          l.answer fs = .ok false) →
        resolve fs root aliases specifier importer =
          if specifier.startsWith "." then .error (.unresolved false specifier importer.text)
          else if expansions.flatten = [] then .ok (packagePath root specifier)
          else .error (.unresolved true specifier importer.text)) := by
  refine ⟨exists_expansions specifier aliases, fun expansions hexp => ?_⟩
  rw [resolve_eq hroot himporter hexp]
  refine ⟨fun front l back hsplit hfront => ⟨fun hit => ?_, fun e he => ?_⟩, fun hnone => ?_⟩
  · rw [hsplit, firstFound_of_front hfront, firstFound, hit]
    rfl
  · refine ⟨Look.answer_eq_error_iff.mp he, ?_⟩
    rw [hsplit, firstFound_of_front hfront, firstFound, he]
    rfl
  · rw [firstFound_eq_none_iff.mpr hnone]
    rfl

/-- A project in which the second target of the second pattern is there. -/
def patternedFiles : Files :=
  ⟨[(["p"], .directory), (["p", "lib"], .directory), (["p", "lib", "x.ts"], .file []),
    (["p", "@"], .directory), (["p", "@", "x"], .directory)], []⟩

def twoPatterns : Aliases := ⟨".", [("~/*", ["old/*"]), ("@/*", ["src/*", "lib/*"])], ""⟩

theorem first_look_decides_second_target :
    Expansions "@/x" (some twoPatterns) [[], ["src/x", "lib/x"]] ∧
      resolve patternedFiles ⟨.root, ["p"]⟩ (some twoPatterns) "@/x"
        ⟨.root, ["p", "app", "a.tsx"]⟩ = .ok ⟨.root, ["p", "lib", "x.ts"]⟩ := by
  have hexp : Expansions "@/x" (some twoPatterns) [[], ["src/x", "lib/x"]] :=
    .cons (expands_patternTargets "@/x" "~/*" ["old/*"])
      (.cons (expands_patternTargets "@/x" "@/*" ["src/*", "lib/*"]) .nil)
  have hroot : Path.IsPlain ⟨.root, ["p"]⟩ := Path.isPlain_parse "/p"
  have himporter : Path.IsPlain ⟨.root, ["p", "app", "a.tsx"]⟩ := Path.isPlain_parse "/p/app/a.tsx"
  have hsrc : firstFound patternedFiles (looks ⟨.root, ["p", "src", "x"]⟩) = .ok none := rfl
  have hlib : firstFound patternedFiles ((looks ⟨.root, ["p", "lib", "x"]⟩).take 2) = .ok none :=
    rfl
  refine ⟨hexp, (((first_look_decides hroot himporter).2 _ hexp).1
    (looks ⟨.root, ["p", "src", "x"]⟩ ++ (looks ⟨.root, ["p", "lib", "x"]⟩).take 2)
    (.extended ⟨.root, ["p", "lib", "x"]⟩ ".ts") _ rfl ?_).1 rfl⟩
  exact forall_mem_append.mpr
    ⟨firstFound_eq_none_iff.mp hsrc, firstFound_eq_none_iff.mp hlib⟩

/-- The name of a package that is nowhere is too long for the look beside the importing file. -/
theorem long_bare_specifier_refused :
    (resolve ⟨[(["p"], .directory)], []⟩ ⟨.root, ["p"]⟩ none ⟨List.replicate 256 (.char 'a')⟩
        ⟨.root, ["p", "a.tsx"]⟩).mapError Fault.message =
      .error ("[Errno 36] File name too long: " ++
        Text.quoted ("/p/" ++ ⟨List.replicate 256 (.char 'a')⟩)) := by
  decide +kernel

end Imports

end RoutePlugins
