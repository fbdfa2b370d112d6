import RoutePlugins.Proofs.Imports.Looks

/-!
# Faults of specifiers

A specifier that leads nowhere is reported as an import that is not resolved. Any other fault comes
from a look that fails: a candidate that is the root of the file system has no name to put an
extension behind, and a path may be too long for a file. Without such a candidate there is no other
fault.
-/

namespace RoutePlugins

variable {e : Fault}

/-! ### Roots of the file system -/

namespace Path

/-- A path is the root of the file system, with one slash or with two. -/
def IsTop (p : Path) : Prop := p.isAbsolute = true ∧ p.names = []

end Path

/-- The root is no file, and that is known. -/
theorem Files.isFile_top (fs : Files) {p : Path} (h : p.IsTop) : fs.isFile p = .ok false := by
  obtain ⟨anchor, names⟩ := p
  obtain ⟨habs, rfl⟩ := h
  cases anchor with
  | relative => cases habs
  | root => rfl
  | doubleRoot => rfl

namespace Imports

variable {fs : Files} {root importer : Path} {aliases : Option Aliases} {specifier : Text}
  {expansions : List (List Text)}

theorem isAbsolute_candidates (hroot : root.isAbsolute = true)
    (himporter : importer.isAbsolute = true) (targets : List Text) :
    ∀ c ∈ candidates root importer aliases specifier targets, c.isAbsolute = true := by
  have hjoin {p : Path} (hp : p.isAbsolute = true) (t : Text) :
      (p.joinText t).normalize.isAbsolute = true := by
    rw [Path.isAbsolute_normalize]
    exact Path.isAbsolute_join hp _
  have hbeside : (importer.parent.joinText specifier).normalize.isAbsolute = true :=
    hjoin (p := importer.parent) himporter specifier
  intro c hc
  unfold candidates at hc
  split at hc
  · rwa [List.mem_singleton.mp hc]
  · rcases List.mem_append.mp hc with hc | hc
    · cases aliases with
      | none => cases hc
      | some a =>
        obtain ⟨target, -, rfl⟩ := List.mem_map.mp hc
        exact hjoin (hjoin hroot a.baseUrl) target
    · rcases List.mem_cons.mp hc with rfl | hc
      · exact hjoin (p := root.child "node_modules") hroot specifier
      · rwa [List.mem_singleton.mp hc]

/-- Looks end with a fault exactly if one raises it after others that found nothing. -/
theorem firstFound_eq_error_iff {ls : List Look} :
    firstFound fs ls = .error e ↔ ∃ front l back, ls = front ++ l :: back ∧
      (∀ x ∈ front, x.answer fs = .ok false) ∧ l.Raises fs e := by
  constructor
  · intro h
    have hsome : ¬ ∀ l ∈ ls, l.answer fs = .ok false := by
      intro hall
      rw [firstFound_eq_none_iff.mpr hall] at h
      cases h
    obtain ⟨front, l, back, rfl, hfront, hl⟩ := exists_first hsome
    refine ⟨front, l, back, rfl, hfront, Look.answer_eq_error_iff.mp ?_⟩
    rw [firstFound_of_front hfront, firstFound] at h
    cases hanswer : l.answer fs with
    | error e' =>
      rw [hanswer] at h
      cases h
      rfl
    | ok b =>
      rw [hanswer] at h
      cases b with
      | true => cases h
      | false => exact absurd hanswer hl
  · rintro ⟨front, l, back, rfl, hfront, hl⟩
    rw [firstFound_of_front hfront, firstFound, Look.answer_eq_error_iff.mpr hl]
    rfl

/-- A fault of looks is not that of an import that leads nowhere. -/
theorem Look.Raises.label_ne {l : Look} (h : l.Raises fs e) :
    e.label ≠ "ImportResolutionError" := by
  cases h with
  | unnamed _ => exact (by decide : Text.ofString "ValueError" ≠ "ImportResolutionError")
  | tooLong _ _ => exact (by decide : Text.ofString "OSError" ≠ "ImportResolutionError")

theorem label_of_unfound {targets : List Text}
    (h : unfound root importer specifier targets = .error e) :
    e.label = "ImportResolutionError" := by
  unfold unfound at h
  split at h
  · cases h
    rfl
  · split at h
    · cases h
    · cases h
      rfl

/-- A fault other than that of an import that leads nowhere comes from the first look that does not
just find nothing. -/
theorem resolve_eq_error_iff (hroot : root.IsPlain) (himporter : importer.IsPlain)
    (hexp : Expansions specifier aliases expansions) (he : e.label ≠ "ImportResolutionError") :
    resolve fs root aliases specifier importer = .error e ↔
      ∃ front l back,
        allLooks root importer aliases specifier expansions.flatten = front ++ l :: back ∧
        (∀ x ∈ front, x.answer fs = .ok false) ∧ l.Raises fs e := by
  rw [← firstFound_eq_error_iff, resolve_eq hroot himporter hexp]
  cases firstFound fs (allLooks root importer aliases specifier expansions.flatten) with
  | error e' =>
    constructor
    · rintro ⟨⟩
      rfl
    · rintro ⟨⟩
      rfl
  | ok o =>
    cases o with
    | some p =>
      constructor
      · rintro ⟨⟩
      · rintro ⟨⟩
    | none =>
      constructor
      · exact fun h => absurd (label_of_unfound h) he
      · rintro ⟨⟩

/-- Only the candidates themselves are extended. -/
theorem mem_candidates_of_extended {c : Path} {ext : Text} {targets : List Text}
    (h : .extended c ext ∈ allLooks root importer aliases specifier targets) :
    c ∈ candidates root importer aliases specifier targets := by
  obtain ⟨candidate, hc, hlook⟩ := List.mem_flatMap.mp h
  simp only [looks, sourceExts, List.map_cons, List.map_nil, List.cons_append, List.nil_append,
    List.mem_cons, List.not_mem_nil, reduceCtorEq, Look.extended.injEq, false_or, or_false] at hlook
  obtain ⟨rfl, -⟩ | ⟨rfl, -⟩ | ⟨rfl, -⟩ | ⟨rfl, -⟩ := hlook
  · exact hc
  · exact hc
  · exact hc
  · exact hc

/-- Resolving gives a path or says that the import leads nowhere, unless a candidate is the root of
the file system or something looked at is too long. Any other fault is raised exactly by the first
look that does not just find nothing. A root that the search comes to always ends it. -/
theorem foreign_faults_of_looks (hroot : root.IsPlain) (hrootAbs : root.isAbsolute = true)
    (himporter : importer.IsPlain) (himporterAbs : importer.isAbsolute = true) :
    (∃ expansions, Expansions specifier aliases expansions) ∧
    ∀ expansions, Expansions specifier aliases expansions →
      ((∀ c ∈ candidates root importer aliases specifier expansions.flatten, ¬ c.IsTop) →
        (∀ l ∈ allLooks root importer aliases specifier expansions.flatten,
          ¬ fs.TooLong l.path) →
        (∃ p, resolve fs root aliases specifier importer = .ok p) ∨
          ∃ e, resolve fs root aliases specifier importer = .error e ∧
            e.label = "ImportResolutionError") ∧
      (∀ e : Fault, e.label ≠ "ImportResolutionError" →
        (resolve fs root aliases specifier importer = .error e ↔
          ∃ front l back,
            allLooks root importer aliases specifier expansions.flatten = front ++ l :: back ∧
            (∀ x ∈ front, x.answer fs = .ok false) ∧ l.Raises fs e)) ∧
      ∀ before c after,
        candidates root importer aliases specifier expansions.flatten = before ++ c :: after →
        (∀ l ∈ before.flatMap looks, l.answer fs = .ok false) → c.IsTop →
        resolve fs root aliases specifier importer = .error (.range (.emptyName c.text)) := by
  refine ⟨exists_expansions specifier aliases, fun expansions hexp => ?_⟩
  have hforeign {e : Fault} (he : e.label ≠ "ImportResolutionError") :
      resolve fs root aliases specifier importer = .error e ↔ _ :=
    resolve_eq_error_iff hroot himporter hexp he
  refine ⟨fun htop hlong => ?_, fun e he => hforeign he, fun before c after hsplit hfront hc => ?_⟩
  · cases hres : resolve fs root aliases specifier importer with
    | ok p => exact .inl ⟨p, rfl⟩
    | error e =>
      refine .inr ⟨e, rfl, by_contra fun he => ?_⟩
      obtain ⟨front, l, back, hsplit, -, hraises⟩ := (hforeign he).mp hres
      have hl : l ∈ allLooks root importer aliases specifier expansions.flatten := by
        simp [hsplit]
      cases hraises with
      | unnamed hnames =>
        have hc := mem_candidates_of_extended hl
        exact htop _ hc ⟨isAbsolute_candidates hrootAbs himporterAbs _ _ hc, hnames⟩
      | tooLong _ h => exact hlong l hl h
  · have hraises : (Look.extended c ".tsx").Raises fs (.range (.emptyName c.text)) :=
      .unnamed hc.2
    refine (hforeign hraises.label_ne).mpr ⟨before.flatMap looks ++ [.file c], _,
      (looks c).drop 2 ++ after.flatMap looks, ?_, forall_mem_concat.mpr ⟨hfront, ?_⟩, hraises⟩
    · rw [allLooks, hsplit, List.flatMap_append, List.flatMap_cons, List.append_assoc]
      rfl
    · exact fs.isFile_top hc

/-- Going up from the importing file comes to the root. A file that is not beside it is looked for
without a fault. -/
theorem foreign_faults_of_looks_relative :
    resolve ⟨[(["p"], .directory)], []⟩ ⟨.root, ["p"]⟩ none ".././.."
        ⟨.root, ["p", "a.tsx"]⟩ = .error (.range (.emptyName "/")) ∧
      ((∃ p, resolve ⟨[(["p"], .directory)], []⟩ ⟨.root, ["p"]⟩ none "./b"
          ⟨.root, ["p", "a.tsx"]⟩ = .ok p) ∨
        ∃ e, resolve ⟨[(["p"], .directory)], []⟩ ⟨.root, ["p"]⟩ none "./b"
          ⟨.root, ["p", "a.tsx"]⟩ = .error e ∧ e.label = "ImportResolutionError") := by
  have hroot : Path.IsPlain ⟨.root, ["p"]⟩ := Path.isPlain_parse "/p"
  have himporter : Path.IsPlain ⟨.root, ["p", "a.tsx"]⟩ := Path.isPlain_parse "/p/a.tsx"
  have hup : Expansions ".././.." none [] := .nil
  have hbeside : Expansions "./b" none [] := .nil
  have hno : ∀ l ∈ looks ⟨.root, ["p", "b"]⟩, l.answer ⟨[(["p"], .directory)], []⟩ = .ok false :=
    firstFound_eq_none_iff.mp rfl
  obtain ⟨-, -, htop⟩ := (foreign_faults_of_looks hroot rfl himporter rfl).2 _ hup
  obtain ⟨hknown, -⟩ := (foreign_faults_of_looks hroot rfl himporter rfl).2 _ hbeside
  refine ⟨htop [] ⟨.root, []⟩ [] rfl (by simp) ⟨rfl, rfl⟩,
    hknown (fun c hc => ?_) fun l hl htoo => ?_⟩
  · rw [List.mem_singleton.mp hc]
    exact fun h => List.cons_ne_nil _ _ h.2
  · have hnamed : ∀ l ∈ looks ⟨.root, ["p", "b"]⟩, l.Named := by
      simp [looks, sourceExts, Look.Named]
    have hfault := Look.answer_eq_error_iff.mpr (.tooLong (hnamed l hl) htoo)
    rw [hno l hl] at hfault
    cases hfault

/-- The root of the file system, imported by its path, is no import that leads nowhere. -/
theorem imported_root_refused :
    (resolve ⟨[(["p"], .directory)], []⟩ ⟨.root, ["p"]⟩ none "/" ⟨.root, ["p", "a.tsx"]⟩).mapError
      Fault.label = .error "ValueError" := by
  rfl

end Imports

end RoutePlugins
