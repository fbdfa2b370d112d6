import RoutePlugins.Proofs.Files.Resolved

/-!
# Ignored names

A bare name as an ignore pattern stands for a directory of that name and all that is in it. It is
made recursive, and tried from the front of a path, from every slash on, and against the whole path.
So a path is matched exactly if one of its names before the last is the bare name, or the path is
the bare name alone. A file or directory with that name which is not at the top is not matched.
-/

namespace RoutePlugins

open List

namespace Wildcard

/-- A code point that stands for itself in a pattern. -/
def IsLiteral (p : CodePoint) : Prop := p ≠ '*' ∧ p ≠ '?' ∧ p ≠ '['

instance : DecidablePred IsLiteral := fun _ => inferInstanceAs (Decidable (_ ∧ _))

variable {name ps : List CodePoint} {ts : List Token}

theorem tokensFrom_append (h : ∀ p ∈ name, IsLiteral p) (rest : List CodePoint) :
    tokensFrom 0 (name ++ rest) = name.map .literal ++ tokensFrom 0 rest := by
  induction name with
  | nil => rfl
  | cons p name ih =>
    obtain ⟨⟨hstar, hany, hclass⟩, hname⟩ := forall_mem_cons.mp h
    rw [cons_append, tokensFrom, ih hname]
    · rfl
    · exact hstar
    · exact hany
    · exact hclass

theorem matchTokens_literals_iff :
    matchTokens (name.map .literal ++ ts) ps = true ↔
      ∃ rest, ps = name ++ rest ∧ matchTokens ts rest = true := by
  induction name generalizing ps with
  | nil => simp
  | cons p name ih =>
    cases ps with
    | nil => simp [matchTokens]
    | cons q ps => simp [matchTokens, Token.accepts, ih, and_assoc]

theorem matchTokens_literal_iff {p : CodePoint} :
    matchTokens (.literal p :: ts) ps = true ↔
      ∃ rest, ps = p :: rest ∧ matchTokens ts rest = true :=
  @matchTokens_literals_iff [p] ps ts

/-- A star stands for any run of code points. -/
theorem matchTokens_star_iff :
    matchTokens (.star :: ts) ps = true ↔ ∃ rest, rest <:+ ps ∧ matchTokens ts rest = true := by
  rw [matchTokens]
  induction ps with
  | nil => simp [someSuffix]
  | cons p ps ih => simp [someSuffix, ih, suffix_cons_iff]

/-- A recursive pattern stands for what is in its directory. -/
theorem fullMatch_recursive_iff {name t : Text} (h : ∀ p ∈ name.points, IsLiteral p) :
    fullMatch (name ++ "/**") t = true ↔ ∃ rest, t.points = name.points ++ .char '/' :: rest := by
  have htokens : tokens (name ++ "/**") =
      name.points.map .literal ++ [.literal '/', .star, .star] := tokensFrom_append h _
  have hall (rest : List CodePoint) : matchTokens [.star, .star] rest = true :=
    matchTokens_star_iff.mpr ⟨rest, suffix_refl rest, matchTokens_star_iff.mpr
      ⟨[], nil_suffix, rfl⟩⟩
  rw [fullMatch_eq, htokens, matchTokens_literals_iff]
  constructor
  · rintro ⟨rest, ht, hrest⟩
    obtain ⟨more, rfl, -⟩ := matchTokens_literal_iff.mp hrest
    exact ⟨more, ht⟩
  · rintro ⟨more, ht⟩
    exact ⟨_, ht, matchTokens_literal_iff.mpr ⟨more, rfl, hall more⟩⟩

/-- Behind a star and a slash, a pattern stands for a text from one of its slashes on. -/
theorem fullMatch_anywhere_iff {pattern t : Text} :
    fullMatch ("*/" ++ pattern) t = true ↔
      ∃ rest, (.char '/' :: rest) <:+ t.points ∧ fullMatch pattern ⟨rest⟩ = true := by
  have htokens : tokens ("*/" ++ pattern) = .star :: .literal '/' :: tokens pattern := rfl
  rw [fullMatch_eq, htokens, matchTokens_star_iff]
  constructor
  · rintro ⟨rest, hsuffix, hrest⟩
    obtain ⟨more, rfl, hmore⟩ := matchTokens_literal_iff.mp hrest
    exact ⟨more, hsuffix, by rwa [fullMatch_eq]⟩
  · rintro ⟨more, hsuffix, hmore⟩
    rw [fullMatch_eq] at hmore
    exact ⟨_, hsuffix, matchTokens_literal_iff.mpr ⟨more, rfl, hmore⟩⟩

end Wildcard

namespace Text

variable {sep : CodePoint} {name : List CodePoint}

/-- From a separator on, the rest begins at the first one or after it. -/
private theorem cons_suffix_append_iff {piece : List CodePoint} (hpiece : sep ∉ piece)
    (tail more : List CodePoint) :
    (sep :: tail) <:+ piece ++ sep :: more ↔ tail = more ∨ (sep :: tail) <:+ more := by
  induction piece with
  | nil => simp [suffix_cons_iff]
  | cons p piece ih =>
    rw [mem_cons, not_or] at hpiece
    rw [cons_append, suffix_cons_iff, ih hpiece.2]
    simp [hpiece.1]

/-- A piece before the last stands at the front or behind a separator, and before another one. -/
theorem mem_dropLast_piecesBetween_iff (hname : sep ∉ name) (ps : List CodePoint) :
    name ∈ (piecesBetween sep ps).dropLast ↔
      (∃ rest, ps = name ++ sep :: rest) ∨ ∃ rest, (sep :: (name ++ sep :: rest)) <:+ ps := by
  induction hn : ps.length using Nat.strongRecOn generalizing ps with
  | ind n ih =>
    by_cases hsep : sep ∈ ps
    · obtain ⟨piece, more, rfl, hpiece⟩ := eq_append_cons_of_mem hsep
      have hmore := ih more.length (by simp [← hn]; omega) more rfl
      have hfirst : (∃ rest, piece ++ sep :: more = name ++ sep :: rest) ↔ name = piece := by
        constructor
        · rintro ⟨rest, h⟩
          have hpieces := congrArg (piecesBetween sep) h
          rw [piecesBetween_first more hpiece, piecesBetween_first rest hname] at hpieces
          exact (List.cons.inj hpieces).1.symm
        · rintro rfl
          exact ⟨more, rfl⟩
      have hlater : (∃ rest, (sep :: (name ++ sep :: rest)) <:+ piece ++ sep :: more) ↔
          (∃ rest, more = name ++ sep :: rest) ∨
            ∃ rest, (sep :: (name ++ sep :: rest)) <:+ more := by
        simp only [cons_suffix_append_iff hpiece, exists_or, eq_comm]
      rw [piecesBetween_first more hpiece,
        dropLast_cons_of_ne_nil (piecesBetween_ne_nil sep more), mem_cons, hmore, hfirst,
        hlater]
    · rw [piecesBetween_of_notMem hsep]
      constructor
      · exact fun h => absurd h not_mem_nil
      · rintro (⟨rest, rfl⟩ | ⟨rest, h⟩)
        · exact absurd (by simp) hsep
        · exact absurd (h.subset mem_cons_self) hsep

/-- A text without separators is the only one that is not split. -/
theorem split_eq_singleton_iff {t name : Text} (hname : sep ∉ name.points) :
    t.split sep = [name] ↔ t = name := by
  constructor
  · intro h
    by_cases hsep : sep ∈ t.points
    · obtain ⟨piece, more, hpoints, hpiece⟩ := eq_append_cons_of_mem hsep
      rw [split, hpoints, piecesBetween_first more hpiece, map_cons, List.cons.injEq,
        map_eq_nil_iff] at h
      exact absurd h.2 (piecesBetween_ne_nil sep more)
    · rw [split_of_not_contains (contains_eq_false.mpr hsep)] at h
      exact singleton_inj.mp h
  · rintro rfl
    exact split_of_not_contains (contains_eq_false.mpr hname)

end Text

namespace Ignore

/-- A name that stands for itself in a pattern. -/
structure Bare (name : Text) : Prop where
  nonempty : name.isEmpty = false
  noSlash : .char '/' ∉ name.points
  literal : ∀ p ∈ name.points, Wildcard.IsLiteral p

variable {name : Text}

theorem Bare.fixPattern? (h : Bare name) : fixPattern? name = some (name ++ "/**") := by
  have hdrop {ps : List CodePoint} (hps : .char '/' ∉ ps) : ps.dropWhile (· == .char '/') = ps := by
    cases ps with
    | nil => rfl
    | cons p ps =>
      rw [mem_cons, not_or] at hps
      rw [dropWhile_cons, beq_false_of_ne (Ne.symm hps.1)]
      rfl
  have htrim : Text.trimSlashes name = name := by
    have hback : .char '/' ∉ name.points.reverse := by simpa using h.noSlash
    rw [Text.trimSlashes, Text.trimWhile, hdrop h.noSlash, hdrop hback, reverse_reverse]
  have hstar : hasFinalStar name = false := by
    have hnone : name.contains '*' = false :=
      Text.contains_eq_false.mpr fun hmem => (h.literal _ hmem).1 rfl
    rw [hasFinalStar, Text.split_of_not_contains (Text.contains_eq_false.mpr h.noSlash)]
    simp [hnone]
  rw [Ignore.fixPattern?, htrim, h.nonempty, hstar]
  rfl

theorem directoryOf?_recursive (name : Text) : directoryOf? (name ++ "/**") = some name := by
  have hends : (name ++ ("/**" : Text)).endsWith "/**" = true :=
    isSuffixOf_iff_suffix.mpr (suffix_append _ _)
  rw [directoryOf?, if_pos hends]
  refine congrArg (fun ps => some (Text.mk ps)) (take_left' ?_)
  exact (Nat.sub_eq_of_eq_add length_append).symm

theorem matchesAny_bare_iff (h : Bare name) (path : Text) :
    matchesAny path (fixPatterns [name]) = true ↔
      name ∈ (path.split '/').dropLast ∨ path = name := by
  have hfixed : fixPatterns [name] = [name ++ "/**"] := by
    rw [fixPatterns, filterMap_cons_some h.fixPattern?, filterMap_nil]
  have hmem : name ∈ (path.split '/').dropLast ↔
      name.points ∈ (Text.piecesBetween '/' path.points).dropLast := by
    rw [Text.split, ← map_dropLast]
    exact mem_map_of_injective (fun _ _ h => congrArg Text.points h)
  have hdeep : Wildcard.fullMatch ("*/" ++ (name ++ "/**")) path = true ↔
      ∃ rest, (.char '/' :: (name.points ++ .char '/' :: rest)) <:+ path.points := by
    rw [Wildcard.fullMatch_anywhere_iff]
    constructor
    · rintro ⟨rest, hrest, hname⟩
      obtain ⟨more, rfl⟩ := (Wildcard.fullMatch_recursive_iff h.literal).mp hname
      exact ⟨more, hrest⟩
    · rintro ⟨more, hmore⟩
      exact ⟨_, hmore, (Wildcard.fullMatch_recursive_iff h.literal).mpr ⟨more, rfl⟩⟩
  rw [hfixed, matchesAny, any_cons, any_nil, Bool.or_false, matchesPattern,
    directoryOf?_recursive, Bool.or_eq_true, Bool.or_eq_true, beq_iff_eq, Option.some_inj,
    Wildcard.fullMatch_recursive_iff h.literal, hdeep, hmem,
    Text.mem_dropLast_piecesBetween_iff h.noSlash, eq_comm (a := name)]

/-- A bare name matches a path exactly if it is one of its names before the last, or the whole path.
So it matches as it should, as a name at any depth, unless it is the last name of several and none
of the others. -/
theorem bare_name_matches (h : Bare name) (path : Text) :
    (matchesAny path (fixPatterns [name]) = true ↔
      name ∈ (path.split '/').dropLast ∨ path = name) ∧
    ((matchesAny path (fixPatterns [name]) = true ↔ name ∈ path.split '/') ↔
      ¬ ∃ front, path.split '/' = front ++ [name] ∧ front ≠ [] ∧ name ∉ front) := by
  have hmatch := matchesAny_bare_iff h path
  refine ⟨hmatch, ?_⟩
  rw [hmatch, ← Text.split_eq_singleton_iff h.noSlash]
  have hne : path.split '/' ≠ [] := fun hnil =>
    piecesBetween_ne_nil _ _ (map_eq_nil_iff.mp hnil)
  obtain ⟨front, last, hsplit⟩ := eq_nil_or_concat' (path.split '/') |>.resolve_left hne
  have halone : front ++ [last] = [] ++ [name] ↔ front = [] ∧ last = name :=
    append_singleton_inj
  rw [nil_append] at halone
  rw [hsplit, halone]
  simp only [dropLast_concat, mem_append, mem_singleton, append_singleton_inj]
  constructor
  · rintro hiff ⟨_, ⟨rfl, rfl⟩, hfront, hmem⟩
    rcases hiff.mpr (.inr rfl) with h | ⟨h, -⟩
    · exact hmem h
    · exact hfront h
  · intro hlast
    refine or_congr_right' fun hmem => ⟨fun h => h.2.symm, fun h => ⟨?_, h.symm⟩⟩
    by_contra hfront
    exact hlast ⟨front, ⟨rfl, h.symm⟩, hfront, hmem⟩

theorem Sample.bare_dist : Bare "dist" := ⟨by decide, by decide, by decide⟩

/-- What is in a directory of that name is matched, and what is in one whose name only begins with
it is not. -/
theorem bare_name_matches_dist :
    matchesAny "lib/dist/index.ts" (fixPatterns ["dist"]) = true ∧
      ¬ matchesAny "lib/distant/index.ts" (fixPatterns ["dist"]) = true := by
  constructor
  · exact (bare_name_matches Sample.bare_dist "lib/dist/index.ts").1.mpr (.inl (by decide))
  · exact fun h => absurd ((bare_name_matches Sample.bare_dist _).1.mp h) (by decide)

/-- A file below the top is not matched by its name. -/
theorem nested_file_not_matched :
    ¬ ∀ name, Bare name → ∀ path : Text,
      (matchesAny path (fixPatterns [name]) = true ↔ name ∈ path.split '/') := by
  intro h
  exact absurd ((h "dist" Sample.bare_dist "lib/dist").mpr (by decide)) (by decide)

end Ignore

end RoutePlugins
