import RoutePlugins.Proofs.Pipeline.CommitFrame

/-!
# The data directory

The artifacts of a plugin with a proper name are two names below the data directory of the project.
Where none of the places on the way is a link, their paths lead there and nowhere else.
-/

namespace RoutePlugins

/-! ### Paths of plugins -/

theorem piecesBetween_of_notMem {sep : CodePoint} {ps : List CodePoint} (h : sep ∉ ps) :
    Text.piecesBetween sep ps = [ps] := by
  induction ps with
  | nil => rfl
  | cons p ps ih =>
    rw [List.mem_cons, not_or] at h
    rw [Text.piecesBetween, if_neg (by simpa using Ne.symm h.1), ih h.2]

theorem Text.split_of_not_contains {t : Text} {sep : CodePoint} (h : t.contains sep = false) :
    t.split sep = [t] := by
  have hm : sep ∉ t.points := by simpa [Text.contains] using h
  rw [Text.split, piecesBetween_of_notMem hm]
  rfl

theorem Path.anchorOf_relative {ps : List CodePoint} (h : ps.head? ≠ some (.char '/')) :
    anchorOf ps = .relative := by
  unfold anchorOf
  split
  · simp at h
  · simp at h
  · simp at h
  · rfl

/-- The name of a plugin is a path of one name. -/
theorem Path.parse_of_isName {name : Text} (h : Plugin.isName name = true) :
    Path.parse name = ⟨.relative, [name]⟩ := by
  simp only [Plugin.isName, Bool.not_eq_true', Bool.or_eq_false_iff] at h
  obtain ⟨⟨he, hs⟩, hd⟩ := h
  have hm : CodePoint.char '/' ∉ name.points := by simpa [Text.contains] using hs
  have hdot : (name == ".") = false := by
    refine beq_false_of_ne ?_
    rintro rfl
    exact absurd hd (by decide)
  rw [Path.parse, anchorOf_relative fun h => hm (List.mem_of_head? h), namesOf,
    Text.split_of_not_contains hs]
  simp [he, hdot]

theorem Project.pluginDir_child (project : Project) {name : Text} (h : Plugin.isName name = true)
    (artifact : Text) :
    (project.pluginDir name).child artifact =
      ⟨project.root.anchor, project.root.names ++ [dataDirName, name, artifact]⟩ := by
  simp [pluginDir, Path.joinText, Path.parse_of_isName h, Path.join, Path.isAbsolute, dataDir,
    Path.child]

namespace Files

/-! ### Walks below a directory -/

variable {fs : Files} {ending : Ending} {links : Nat} {here : Location} {names : List Text}
  {found : Found}

/-- A walk beyond what another walk finds goes on from where that one ends. -/
theorem Walk.after {more : Nat} {rest : List Text} {goal : Found}
    (h : Walk fs .follow links here names goal) (hgoal : goal.2 ≠ none) (hr : rest ≠ [])
    (hw : Walk fs ending more here (names ++ rest) found) :
    ∃ fewer, Walk fs ending fewer goal.1 rest found := by
  induction h generalizing more with
  | done links here => exact ⟨more, hw⟩
  | stay _ hn _ ih => exact ih hgoal (hw.of_idle hn)
  | up _ _ ih => exact ih hgoal hw.of_up
  | enter _ hn he hl _ ih => exact ih hgoal (hw.of_enter hn.busy hn.notUp he hl)
  | missing => exact absurd rfl hgoal
  | keep _ _ _ hk => cases hk
  | @follow links here name target names goal _ hn he _ _ ih =>
    obtain ⟨fewer, hw⟩ := hw.of_follow hn.busy hn.notUp he (by simp [hr])
    have hall : Walk fs ending fewer (targetStart here target)
        (targetNames target ++ names ++ rest) found := by
      rw [List.append_assoc]
      exact hw
    exact ih hgoal hall

/-- Where there is no link on the way, a walk of names that name something ends below where it
began, at those names. -/
theorem Walk.plain (hw : Walk fs ending links here names found)
    (hn : ∀ name ∈ names, isIdle name = false ∧ name ≠ "..")
    (hl : ∀ front, front ≠ [] → front <+: names →
      ∀ t, fs.entry? (here ++ front.map Text.asName) ≠ some (.link t)) :
    found.1 = here ++ names.map Text.asName := by
  induction hw with
  | done links here => simp
  | stay _ hi => simp [hi] at hn
  | up => simp at hn
  | @enter links here name rest found e _ _ _ _ _ ih =>
    rw [ih (fun n hm => hn n (by simp [hm])) fun front hf hp => ?_]
    · simp
    · have hp' : name :: front <+: name :: rest := by simpa using hp
      simpa using hl (name :: front) (by simp) hp'
  | missing => simp
  | keep => simp
  | @follow links here name target rest found _ _ he =>
    have hp : [name] <+: name :: rest := by simp
    exact absurd he (by simpa using hl [name] (by simp) hp target)

end Files

/-! ### Where artifacts are -/

namespace Pipeline

open Files

/-- The place of the data directory, below the place of the project root. -/
def dataPlace (root : Location) : Location := root ++ [Project.dataDirName]

/-- The names from the project root down to an artifact. -/
def artifactTrail (name artifact : Text) : List Text := [Project.dataDirName, name, artifact]

/-- On the way from the project root to the artifacts of some plugins, and at the artifacts, there
are no links. -/
def OwnsArtifacts (fs : Files) (root : Location) (names : List Text) : Prop :=
  ∀ name ∈ names, ∀ artifact ∈ artifactNames, ∀ front, front ≠ [] →
    front <+: artifactTrail name artifact →
      ∀ t, fs.entry? (root ++ front.map Text.asName) ≠ some (.link t)

/-- Growth makes no links. -/
theorem OwnsArtifacts.grows {fs gs : Files} {root : Location} {names : List Text}
    (h : OwnsArtifacts fs root names) (hg : fs.Grows gs) : OwnsArtifacts gs root names := by
  intro name hn artifact ha front hf hp t ht
  exact h name hn artifact ha front hf hp t ((hg.link _ t).mpr ht)

private theorem artifactTrail_plain {name artifact : Text} (hn : Plugin.isName name = true)
    (ha : artifact ∈ artifactNames) :
    ∀ n ∈ artifactTrail name artifact, isIdle n = false ∧ n ≠ ".." := by
  simp only [Plugin.isName, Bool.not_eq_true', Bool.or_eq_false_iff] at hn
  obtain ⟨⟨he, -⟩, hd⟩ := hn
  have hname : isIdle name = false ∧ name ≠ ".." := by
    refine ⟨?_, ?_⟩
    · rw [isIdle, he, Bool.false_or]
      refine beq_false_of_ne ?_
      rintro rfl
      exact absurd hd (by decide)
    · rintro rfl
      exact absurd hd (by decide)
  have hartifact : ∀ a ∈ artifactNames, isIdle a = false ∧ a ≠ ".." := by decide
  intro n hm
  simp only [artifactTrail, List.mem_cons, List.not_mem_nil, or_false] at hm
  obtain rfl | rfl | rfl := hm
  · decide
  · exact hname
  · exact hartifact n ha

/-- The path of an artifact leads below the data directory. -/
theorem dataPlace_of_leads {fs : Files} {project : Project} {root l : Location}
    {names : List Text} {p : Path}
    (hroot : fs.locate .follow project.root = .ok (root, some .directory))
    (hnames : ∀ name ∈ names, Plugin.isName name = true) (howns : OwnsArtifacts fs root names)
    (hp : IsArtifact project names p) (hl : fs.Leads p l) : dataPlace root <+: l := by
  obtain ⟨name, hn, artifact, ha, rfl⟩ := hp
  obtain ⟨e, he⟩ := hl
  rw [project.pluginDir_child (hnames name hn)] at he
  obtain ⟨-, hrw⟩ := locate_eq_ok.mp hroot
  obtain ⟨-, hw⟩ := locate_eq_ok.mp he
  obtain ⟨fewer, hrest⟩ := hrw.after (by simp) (by simp) hw
  have hplace := hrest.plain (artifactTrail_plain (hnames name hn) ha) (howns name hn artifact ha)
  have hdata : Project.dataDirName.asName = Project.dataDirName := by decide
  change l = root ++ (artifactTrail name artifact).map Text.asName at hplace
  rw [hplace, artifactTrail, List.map_cons, hdata]
  exact ⟨[name.asName, artifact.asName], by simp [dataPlace]⟩

end Pipeline

end RoutePlugins
