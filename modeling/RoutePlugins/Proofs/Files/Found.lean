import RoutePlugins.Proofs.Files.Confined

/-!
# Found paths

A path from the root that leads to something resolves to the end of its trace, as long as its links
are in sight, and what it resolves to resolves to itself. If no link below a root leads out of it,
then a path that is spelled below the root, without double dots, resolves to one below the root.
-/

namespace RoutePlugins

variable {links : List Path} {names : List Text}

/-- The path is the other one or lies below it, as it is spelled. -/
def Path.Below (p root : Path) : Prop := (p.relativeTo? root).isSome = true

instance (p root : Path) : Decidable (p.Below root) := inferInstanceAs (Decidable (_ = true))

theorem Path.below_iff {p root : Path} :
    p.Below root ↔ p.anchor = root.anchor ∧ root.names <+: p.names := by
  have hcond : (p.anchor == root.anchor && root.names.isPrefixOf p.names) = true ↔
      p.anchor = root.anchor ∧ root.names <+: p.names := by
    rw [Bool.and_eq_true, beq_iff_eq, List.isPrefixOf_iff_prefix]
  rw [← hcond, Below, relativeTo?]
  split
  · next h => simp [h]
  · next h => simp [h]

namespace Path.Below

variable {p root : Path}

theorem refl (p : Path) : p.Below p := below_iff.mpr ⟨rfl, List.prefix_refl _⟩

theorem child (h : p.Below root) (name : Text) : (p.child name).Below root := by
  rw [below_iff] at h ⊢
  exact ⟨h.1, h.2.trans (List.prefix_append _ _)⟩

end Path.Below

namespace Files

variable {root : Path}

/-- A trace along some names and then others comes to a path in between. -/
theorem Traces.split {fs : Files} {here q : Path} {rest : List Text}
    (h : Traces fs here (names ++ rest) q links) :
    ∃ mid front back, Traces fs here names mid front ∧ Traces fs mid rest q back := by
  induction names generalizing here links with
  | nil => exact ⟨here, [], links, .done here, h⟩
  | cons name names ih =>
    cases h with
    | idle hn h =>
      obtain ⟨mid, _, _, hfront, hback⟩ := ih h
      exact ⟨mid, _, _, .idle hn hfront, hback⟩
    | up h =>
      obtain ⟨mid, _, _, hfront, hback⟩ := ih h
      exact ⟨mid, _, _, .up hfront, hback⟩
    | enter hn hl h =>
      obtain ⟨mid, _, _, hfront, hback⟩ := ih h
      exact ⟨mid, _, _, .enter hn hl hfront, hback⟩
    | link hn he ht h =>
      obtain ⟨mid, _, _, hfront, hback⟩ := ih h
      exact ⟨mid, _, _, .link hn he ht hfront, hback⟩

/-! ### Paths from the root through no link -/

theorem rooted_startPath {p : Path} (h : p.isAbsolute = true) : Rooted (startPath p) := by
  rw [startPath, if_pos h]
  exact ⟨rfl, by simp⟩

section

variable {p : Path} (h : Rooted p)

include h

theorem Rooted.eq_absolute : p = absolute p.names := by
  obtain ⟨anchor, names⟩ := p
  obtain rfl : anchor = .root := h.root
  rfl

theorem Rooted.parent : Rooted p.parent :=
  ⟨h.root, fun n hm => h.enters n (List.dropLast_subset _ hm)⟩

/-- A path without double dots that begins at the root is followed as it is. -/
theorem Rooted.normalize_join (l : Location) : ((absolute l).join p).normalize = p := by
  have habs : p.isAbsolute = true := by
    rw [Path.isAbsolute, h.root]
    rfl
  rw [Path.join, if_pos habs, Path.normalize, if_pos habs,
    Path.foldDots_of_noDots fun n hm => (h.enters n hm).notUp]
  rfl

end

theorem Direct.straight {fs : Files} {p : Path} (hd : Direct fs p) (h : Rooted p) :
    fs.Straight p.names := by
  induction hd with
  | start anchor =>
    intro front hne hf
    exact absurd (List.prefix_nil.mp hf) hne
  | up _ _ _ => exact absurd rfl (h.enters ".." (by simp [Path.child])).notUp
  | @into p name _ hn hl ih =>
    have hfront : Rooted p := by simpa [Path.parent, Path.child] using h.parent
    intro front hne hf t
    obtain rfl | hf := List.prefix_concat_iff.mp hf
    · rw [h.siteOf] at hl
      exact hl t
    · exact ih hfront front hne hf t

/-- A straight path is its own trace. -/
theorem traces_of_straight {fs : Files} (hn : ∀ n ∈ names, PathName n) (hs : fs.Straight names) :
    Traces fs ⟨.root, []⟩ names (absolute names) [] := by
  have hfrom (front rest : List Text) (heq : front ++ rest = names) :
      Traces fs (absolute front) rest (absolute names) [] := by
    induction rest generalizing front with
    | nil =>
      rw [List.append_nil] at heq
      rw [heq]
      exact .done _
    | cons name rest ih =>
      rw [List.append_cons] at heq
      have hnext : ∀ n ∈ front ++ [name], Enters n := by
        intro n hm
        have hn := hn n (heq ▸ List.mem_append_left _ hm)
        refine ⟨?_, hn.notDots, hn.short⟩
        rw [isIdle, hn.nonempty, beq_false_of_ne hn.notDot]
        rfl
      refine .enter (hnext name (by simp)) (fun t => ?_) (ih _ heq)
      rw [child_absolute, Rooted.siteOf fs ⟨rfl, hnext⟩]
      exact hs _ (by simp) ⟨rest, heq⟩ t
  exact hfrom [] names rfl

/-! ### What found paths resolve to -/

/-- What a path leads to is found along a trace. -/
theorem traces_of_stat {fs : Files} {p : Path} {e : Entry} (h : fs.stat p = .ok e) :
    ∃ q links, Traces fs (startPath p) p.names q links ∧ links.length ≤ maxLinks := by
  unfold stat at h
  obtain ⟨found, hl, -⟩ := bind_ok_iff.mp h
  have hwalk := (locate_eq_ok.mp hl).2
  rw [← siteOf_startPath, ← List.append_nil p.names] at hwalk
  obtain ⟨q, links, fewer, htrace, -, hle⟩ := traces_of_walk (by simp) hwalk
  exact ⟨q, links, htrace, by omega⟩

section

variable {fs : Files} (hwf : fs.WellFormed) {p r : Path}

include hwf

/-- A path from the root that leads to something resolves to the end of its trace, which runs
through no link. -/
theorem traces_of_resolve (hp : p.IsPlain) (habs : p.isAbsolute = true) (hs : fs.InSight p)
    {e : Entry} (he : fs.stat p = .ok e) (h : fs.resolve p = .ok r) :
    ∃ links, Traces fs ⟨.root, []⟩ p.names r links ∧ Rooted r ∧ Direct fs r := by
  obtain ⟨q, links, ht, hl⟩ := traces_of_stat he
  have hq := (ht.rooted (rooted_startPath habs)).1
  have hr := resolve_of_traces hwf hp ht (hs fs (.refl fs) q links ht) hl h
  rw [hq.normalize_join] at hr
  subst hr
  refine ⟨links, ?_, hq, ht.direct hwf (direct_startPath fs p)⟩
  rwa [startPath, if_pos habs] at ht

/-- A resolved path through no link resolves to itself. -/
theorem resolve_of_direct (hr : Rooted r) (hd : Direct fs r) (h : fs.resolve p = .ok r) :
    fs.resolve r = .ok r := by
  have heq := hr.eq_absolute
  rw [heq] at h
  have hnames := pathName_of_resolve hwf h fun n hm => (hr.enters n hm).short
  rw [heq]
  exact resolve_straight hwf hnames (hd.straight hr)

end

/-- A resolved path is inside a resolved root exactly if it is spelled below it. -/
theorem isInside_of_resolved {fs : Files} {p : Path} (hp : fs.resolve p = .ok p)
    (hroot : fs.resolve root = .ok root) :
    fs.isInside root p = .ok (p.relativeTo? root).isSome := by
  simp only [isInside, hp, hroot, bind, Except.bind, pure, Except.pure]

/-! ### Links that stay below a root -/

/-- No link below the root leads out of it. -/
def KeepsLinks (fs : Files) (root : Path) : Prop :=
  ∀ k mid inner, Rooted k → LinkLeads fs k mid inner → k.Below root → mid.Below root

/-- A trace along names without double dots stays below the root. -/
theorem Traces.stays {fs : Files} (hk : fs.KeepsLinks root) {here q : Path}
    (h : Traces fs here names q links) (hh : Rooted here) (hn : ∀ n ∈ names, n ≠ "..")
    (hb : here.Below root) : q.Below root := by
  induction h with
  | done here => exact hb
  | idle _ _ ih => exact ih hh (fun n hm => hn n (List.mem_cons_of_mem _ hm)) hb
  | up _ _ => exact absurd rfl (hn _ List.mem_cons_self)
  | @enter here q name rest links hi _ _ ih =>
    exact ih (hh.child hi) (fun n hm => hn n (List.mem_cons_of_mem _ hm)) (hb.child name)
  | @link here mid q name target rest inner outer hi he ht _ _ ih =>
    have hmid : Rooted mid := by
      refine (ht.rooted ?_).1
      unfold linkStart
      split
      · exact ⟨rfl, by simp⟩
      · exact hh
    refine ih hmid (fun n hm => hn n (List.mem_cons_of_mem _ hm)) ?_
    exact hk _ mid inner (hh.child hi) ⟨here, name, target, rfl, he, ht⟩ (hb.child name)

/-- What is spelled below a root that no link leads out of resolves to a path below it. -/
theorem below_of_keepsLinks {fs : Files} {p r : Path} (hk : fs.KeepsLinks root)
    (hroot : Rooted root) (htrace : Traces fs ⟨.root, []⟩ root.names root links)
    {links' : List Path} (h : Traces fs ⟨.root, []⟩ p.names r links') (hp : p.Below root)
    (hn : ∀ n ∈ p.names, n ≠ "..") : r.Below root := by
  obtain ⟨rest, hnames⟩ := (Path.below_iff.mp hp).2
  rw [← hnames] at h hn
  obtain ⟨mid, _, _, hfront, hback⟩ := h.split
  obtain ⟨rfl, -⟩ := htrace.unique hfront
  exact hback.stays hk hroot (fun n hm => hn n (List.mem_append_right _ hm)) (.refl _)

end Files

end RoutePlugins
