import RoutePlugins.Proofs.Files.Clear

/-!
# Where links lead

A path is looked up by a walk that follows links as it meets them. It is resolved by names, from a
path that runs through no link so far. Both go the same way: a trace gives, for a path without links
and further names, the path without links to which they lead and the links that are followed. A walk
goes along the trace, and so does resolving, as long as it sees every link of the trace. A link
whose path is too long to be looked up is not seen.
-/

namespace RoutePlugins.Files

open List

variable {found : Found} {more : Nat}

/-! ### Sites -/

/-- One step from a place along a name. -/
def stepFrom (l : Location) (name : Text) : Location :=
  if name == ".." then l.dropLast else l ++ [name.asName]

/-- The place to which a path leads if it runs through no link. -/
def siteOf (fs : Files) (p : Path) : Location := p.names.foldl stepFrom (fs.startOf p)

theorem stepFrom_of_ne (l : Location) {name : Text} (h : name ≠ "..") :
    stepFrom l name = l ++ [name.asName] := if_neg (by simpa using h)

theorem stepFrom_dots (l : Location) : stepFrom l ".." = l.dropLast := rfl

section

variable (fs : Files) (p : Path)

theorem siteOf_child (name : Text) : fs.siteOf (p.child name) = stepFrom (fs.siteOf p) name := by
  rw [siteOf, siteOf, Path.child, foldl_append]
  rfl

theorem siteOf_child_of_ne {name : Text} (h : name ≠ "..") :
    fs.siteOf (p.child name) = fs.siteOf p ++ [name.asName] := by
  rw [siteOf_child, stepFrom_of_ne _ h]

theorem child_parent {p : Path} {name : Text} (h : p.names.getLast? = some name) :
    p.parent.child name = p := by
  obtain ⟨anchor, names⟩ := p
  have hsome : names.getLast? = some name := h
  have hne : names ≠ [] := by
    rintro rfl
    cases hsome
  rw [List.getLast?_eq_some_getLast hne, Option.some.injEq] at hsome
  rw [Path.parent, Path.child, ← hsome, dropLast_append_getLast]

theorem siteOf_stepUp : fs.siteOf (stepUp p) = (fs.siteOf p).dropLast := by
  unfold stepUp
  split
  · next hlast =>
    have hnames : p.names = [] := List.getLast?_eq_none_iff.mp hlast
    split
    · next habs => simp [siteOf, hnames, startOf, habs]
    · next hrel =>
      have hrel' : p.isAbsolute = false := by simpa using hrel
      have hup : Path.isAbsolute ⟨.relative, [".."]⟩ = false := rfl
      simp only [siteOf, hnames, startOf, hrel', hup, foldl_cons, foldl_nil,
        stepFrom_dots, Bool.false_eq_true, if_false]
  · next name hlast =>
    split
    · next hdots => rw [siteOf_child, stepFrom_dots]
    · next hdots =>
      have hne : name ≠ ".." := by simpa using hdots
      have hsite := siteOf_child_of_ne fs p.parent hne
      rw [child_parent hlast] at hsite
      rw [hsite, dropLast_concat]

end

/-! ### Traces -/

/-- A name that leads from a directory to something in it. -/
structure Enters (name : Text) : Prop where
  busy : isIdle name = false
  notUp : name ≠ ".."
  short : name.nameSize ≤ maxName

theorem StepsInto.enters {ending : Ending} {name : Text} {rest : List Text}
    (h : StepsInto ending name rest) : Enters name := ⟨h.busy, h.notUp, h.short⟩

theorem Enters.not_idle {name : Text} (h : Enters name) : isIdle name ≠ true := by
  rw [h.busy]
  exact Bool.false_ne_true

/-- The path from which the target of a link is followed, for a link in `here`. -/
def linkStart (here : Path) (target : Text) : Path :=
  if target.startsWith "/" then ⟨.root, []⟩ else here

/-- The names lead from the path `here`, which runs through no link, to the path `q`, which runs
through none either; the links that are followed on the way are listed, by their paths. -/
inductive Traces (fs : Files) : Path → List Text → Path → List Path → Prop
  | done (here : Path) : Traces fs here [] here []
  | idle {here q : Path} {name : Text} {rest : List Text} {links : List Path}
      (hn : isIdle name = true) (h : Traces fs here rest q links) :
      Traces fs here (name :: rest) q links
  | up {here q : Path} {rest : List Text} {links : List Path}
      (h : Traces fs (stepUp here) rest q links) : Traces fs here (".." :: rest) q links
  | enter {here q : Path} {name : Text} {rest : List Text} {links : List Path} (hn : Enters name)
      (hl : ∀ t, fs.entry? (fs.siteOf (here.child name)) ≠ some (.link t))
      (h : Traces fs (here.child name) rest q links) : Traces fs here (name :: rest) q links
  | link {here mid q : Path} {name target : Text} {rest : List Text} {inner outer : List Path}
      (hn : Enters name) (he : fs.entry? (fs.siteOf (here.child name)) = some (.link target))
      (ht : Traces fs (linkStart here target) (target.split '/') mid inner)
      (h : Traces fs mid rest q outer) :
      Traces fs here (name :: rest) q (here.child name :: (inner ++ outer))

section

variable {fs : Files} {here q : Path} {name : Text} {rest names : List Text} {links : List Path}

theorem Traces.of_idle (h : Traces fs here (name :: rest) q links) (hn : isIdle name = true) :
    Traces fs here rest q links := by
  cases h with
  | idle _ h => exact h
  | up => simp [isIdle_dots] at hn
  | enter hi => exact absurd hn hi.not_idle
  | link hi => exact absurd hn hi.not_idle

theorem Traces.of_up (h : Traces fs here (".." :: rest) q links) :
    Traces fs (stepUp here) rest q links := by
  cases h with
  | idle hn => simp [isIdle_dots] at hn
  | up h => exact h
  | enter hi => exact absurd rfl hi.notUp
  | link hi => exact absurd rfl hi.notUp

/-- At a name that enters, a trace goes on there, or follows the link there. -/
theorem Traces.of_enters (h : Traces fs here (name :: rest) q links) (hn : Enters name) :
    ((∀ t, fs.entry? (fs.siteOf (here.child name)) ≠ some (.link t)) ∧
        Traces fs (here.child name) rest q links) ∨
      ∃ target mid inner outer,
        fs.entry? (fs.siteOf (here.child name)) = some (.link target) ∧
        Traces fs (linkStart here target) (target.split '/') mid inner ∧
        Traces fs mid rest q outer ∧ links = here.child name :: (inner ++ outer) := by
  cases h with
  | idle hi => exact absurd hi hn.not_idle
  | up => exact absurd rfl hn.notUp
  | enter _ hl h => exact .inl ⟨hl, h⟩
  | link _ he ht h => exact .inr ⟨_, _, _, _, he, ht, h, rfl⟩

/-- Names lead to one path only, through the same links. -/
theorem Traces.unique {q' : Path} {links' : List Path} (h : Traces fs here names q links)
    (h' : Traces fs here names q' links') : q = q' ∧ links = links' := by
  induction h generalizing q' links' with
  | done here =>
    cases h'
    exact ⟨rfl, rfl⟩
  | idle hn _ ih => exact ih (h'.of_idle hn)
  | up _ ih => exact ih h'.of_up
  | enter hn hl _ ih =>
    obtain ⟨-, h'⟩ | ⟨target, -, -, -, he, -⟩ := h'.of_enters hn
    · exact ih h'
    · exact absurd he (hl target)
  | link hn he _ _ ihInner ihOuter =>
    obtain ⟨hl, -⟩ | ⟨target, mid, inner, outer, he', hinner, houter, rfl⟩ := h'.of_enters hn
    · exact absurd he (hl _)
    · cases he.symm.trans he'
      obtain ⟨rfl, rfl⟩ := ihInner hinner
      obtain ⟨rfl, rfl⟩ := ihOuter houter
      exact ⟨rfl, rfl⟩

theorem Traces.filter (h : Traces fs here names q links) :
    Traces fs here (names.filter fun name => !isIdle name) q links := by
  induction h with
  | done here => exact .done here
  | idle hn _ ih =>
    rw [filter_cons_of_neg (by simp [hn])]
    exact ih
  | up _ ih =>
    rw [filter_cons_of_pos (by simp [isIdle_dots])]
    exact .up ih
  | enter hn hl _ ih =>
    rw [filter_cons_of_pos (by simp [hn.busy])]
    exact .enter hn hl ih
  | link hn he ht _ _ ih =>
    rw [filter_cons_of_pos (by simp [hn.busy])]
    exact .link hn he ht ih

theorem Traces.of_filter (h : Traces fs here (names.filter fun name => !isIdle name) q links) :
    Traces fs here names q links := by
  induction names generalizing here links with
  | nil => exact h
  | cons name rest ih =>
    by_cases hi : isIdle name = true
    · rw [filter_cons_of_neg (by simp [hi])] at h
      exact .idle hi (ih h)
    rw [filter_cons_of_pos (by simp [hi])] at h
    cases h with
    | idle hn => exact absurd hn hi
    | up h => exact .up (ih h)
    | enter hn hl h => exact .enter hn hl (ih h)
    | link hn he ht h => exact .link hn he ht (ih h)

/-- Names that differ only in those that ask for a directory lead to the same path. -/
theorem Traces.congr {names' : List Text} (h : Traces fs here names q links)
    (hn : (names.filter fun name => !isIdle name) = names'.filter fun name => !isIdle name) :
    Traces fs here names' q links := by
  refine Traces.of_filter ?_
  rw [← hn]
  exact h.filter

/-- A trace depends only on where there are links. -/
theorem Traces.grows {gs : Files} (hg : fs.Grows gs) (h : Traces gs here names q links) :
    Traces fs here names q links := by
  have hsite : gs.siteOf = fs.siteOf := by
    funext p
    rw [siteOf, siteOf, startOf, startOf, hg.working]
  induction h with
  | done here => exact .done here
  | idle hn _ ih => exact .idle hn ih
  | up _ ih => exact .up ih
  | enter hn hl _ ih =>
    refine .enter hn (fun t ht => hl t ?_) ih
    rw [hsite]
    exact (hg.link _ t).mp ht
  | link hn he _ _ ihInner ihOuter =>
    refine .link hn ((hg.link _ _).mpr ?_) ihInner ihOuter
    rw [← hsite]
    exact he

end

/-! ### Walks go along traces -/

theorem siteOf_linkStart (fs : Files) (here : Path) (target : Text) :
    fs.siteOf (linkStart here target) = targetStart (fs.siteOf here) target := by
  unfold linkStart targetStart
  split
  · rfl
  · rfl

private theorem filter_targetNames (target : Text) :
    ((targetNames target).filter fun name => !isIdle name) =
      (target.split '/').filter fun name => !isIdle name := by
  have hidle (names : List Text) : ((names.filter fun name => !name.isEmpty).filter
      fun name => !isIdle name) = names.filter fun name => !isIdle name := by
    rw [filter_filter]
    refine filter_congr fun name _ => ?_
    cases hname : name.isEmpty with
    | true => simp [isIdle, hname]
    | false => simp
  have hsplit : target.split '/' =
      (target.split '/').dropLast ++ (target.split '/').getLast?.toList := by
    cases target.split '/' using List.reverseRecOn with
    | nil => rfl
    | append_singleton front last => simp
  conv_rhs => rw [hsplit]
  rw [targetNames, filter_append, filter_append, hidle]

/-- A walk of names goes along a trace, and what is left of it starts where the trace ends. -/
theorem traces_of_walk {fs : Files} {ending : Ending} (hk : ending ≠ .keep) {here : Path}
    {names rest : List Text} (h : Walk fs ending more (fs.siteOf here) (names ++ rest) found) :
    ∃ q links fewer, Traces fs here names q links ∧
      Walk fs ending fewer (fs.siteOf q) rest found ∧ links.length + fewer ≤ more := by
  -- A link leaves fewer links to follow, for the names of its target and for those after it.
  induction more using Nat.strongRecOn generalizing here names rest with
  | ind more ihLinks =>
    induction names generalizing here with
    | nil => exact ⟨here, [], more, .done here, h, by simp⟩
    | cons name names ih =>
      by_cases hi : isIdle name = true
      · obtain ⟨q, links, fewer, ht, hw, hle⟩ := ih (h.of_idle hi)
        exact ⟨q, links, fewer, .idle hi ht, hw, hle⟩
      by_cases hu : name = ".."
      · subst hu
        have hup := h.of_up
        rw [← siteOf_stepUp] at hup
        obtain ⟨q, links, fewer, ht, hw, hle⟩ := ih hup
        exact ⟨q, links, fewer, .up ht, hw, hle⟩
      have hsite := siteOf_child_of_ne fs here hu
      rw [cons_append] at h
      generalize hall : names ++ rest = others at h
      cases h with
      | stay _ hn => exact absurd hn hi
      | up => exact absurd rfl hu
      | enter _ hn he hl hw =>
        rw [← hsite] at he hw
        rw [← hall] at hw
        obtain ⟨q, links, fewer, ht, hw, hle⟩ := ih hw
        refine ⟨q, links, fewer, .enter hn.enters (fun t hlink => ?_) ht, hw, hle⟩
        exact hl t (Option.some.inj (he.symm.trans hlink))
      | missing _ hn he =>
        obtain ⟨rfl, rfl⟩ := append_eq_nil_iff.mp hall
        rw [← hsite] at he ⊢
        refine ⟨here.child name, [], more, .enter hn.enters (by simp [he]) (.done _), ?_, by simp⟩
        rw [← he]
        exact .done more _
      | keep _ _ _ hend => exact absurd hend hk
      | @follow links _ _ target _ _ _ hn he _ hw =>
        rw [← hsite] at he
        rw [← siteOf_linkStart, ← hall] at hw
        obtain ⟨mid, inner, fewer, ht, hw, hle⟩ := ihLinks links (Nat.lt_succ_self links) hw
        obtain ⟨q, outer, fewest, ht', hw', hle'⟩ := ihLinks fewer (by omega) hw
        refine ⟨q, here.child name :: (inner ++ outer), fewest,
          .link hn.enters he (ht.congr (filter_targetNames target)) ht', hw', ?_⟩
        rw [length_cons, length_append]
        omega

/-! ### Paths through no link -/

/-- A path that runs through no link: it goes up only from directories, and enters no link. -/
inductive Direct (fs : Files) : Path → Prop
  | start (anchor : Anchor) : Direct fs ⟨anchor, []⟩
  | up {p : Path} (h : Direct fs p) (hd : fs.entry? (fs.siteOf p) = some .directory) :
      Direct fs (p.child "..")
  | into {p : Path} {name : Text} (h : Direct fs p) (hn : Enters name)
      (hl : ∀ t, fs.entry? (fs.siteOf (p.child name)) ≠ some (.link t)) : Direct fs (p.child name)

theorem startOf_child (fs : Files) (p : Path) (name : Text) :
    fs.startOf (p.child name) = fs.startOf p := rfl

theorem names_child_append (p : Path) (name : Text) (rest : List Text) :
    (p.child name).names ++ rest = p.names ++ name :: rest := by
  rw [Path.child, append_assoc]
  rfl

section

variable {fs : Files} {p : Path}

theorem Direct.parent (h : Direct fs p) (hne : p.names ≠ []) : Direct fs p.parent := by
  cases h with
  | start => exact absurd rfl hne
  | up h => simpa [Path.parent, Path.child] using h
  | into h => simpa [Path.parent, Path.child] using h

/-- A path that goes only up, or nowhere, leads to a directory. -/
theorem Direct.directory (h : Direct fs p) (hwf : fs.WellFormed)
    (hlast : ∀ name, p.names.getLast? = some name → name = "..") :
    fs.entry? (fs.siteOf p) = some .directory := by
  cases h with
  | start anchor => exact hwf.start ⟨anchor, []⟩
  | up h hd =>
    rw [siteOf_child, stepFrom_dots]
    exact hwf.parent _ _ hd
  | into h hn => exact absurd (hlast _ (by simp [Path.child])) hn.notUp

theorem Direct.stepUp (h : Direct fs p) (hwf : fs.WellFormed) : Direct fs (stepUp p) := by
  unfold Files.stepUp
  split
  · next hlast =>
    split
    · exact h
    · next hrel =>
      have hp : (⟨.relative, [".."]⟩ : Path) = Path.child ⟨.relative, []⟩ ".." := rfl
      rw [hp]
      exact .up (.start _) ((Direct.start .relative).directory hwf (by simp))
  · next name hlast =>
    split
    · next hdots =>
      refine .up h (h.directory hwf fun last hl => ?_)
      rw [hlast, Option.some.injEq] at hl
      rw [← hl]
      simpa using hdots
    · refine h.parent ?_
      intro hnil
      simp [hnil] at hlast

/-- A walk along a path through no link passes its site. -/
theorem Direct.passes (h : Direct fs p) {rest : List Text} (hr : rest ≠ [])
    (hw : Walk fs .keep more (fs.startOf p) (p.names ++ rest) found) :
    Walk fs .keep more (fs.siteOf p) rest found := by
  induction h generalizing rest with
  | start => exact hw
  | @up p h hd ih =>
    rw [siteOf_child, stepFrom_dots]
    rw [startOf_child, names_child_append] at hw
    exact (ih (cons_ne_nil _ _) hw).of_up
  | @into p name h hn hl ih =>
    have hsite := siteOf_child_of_ne fs p hn.notUp
    rw [startOf_child, names_child_append] at hw
    have hwalk := ih (cons_ne_nil _ _) hw
    rw [hsite] at hl ⊢
    cases hwalk with
    | stay _ hi => exact absurd hi hn.not_idle
    | up => exact absurd rfl hn.notUp
    | enter _ _ _ _ hw => exact hw
    | missing => exact absurd rfl hr
    | keep _ _ he => exact absurd he (hl _)
    | follow _ _ he => exact absurd he (hl _)

/-- What a walk from the site of a path through no link finds is found along the path, if the site
is a directory. -/
theorem Direct.walk (h : Direct fs p) (hwf : fs.WellFormed)
    (hd : fs.entry? (fs.siteOf p) = some .directory) {rest : List Text}
    (hw : Walk fs .keep more (fs.siteOf p) rest found) :
    Walk fs .keep more (fs.startOf p) (p.names ++ rest) found := by
  induction h generalizing rest with
  | start => exact hw
  | @up p h hd' ih =>
    rw [siteOf_child, stepFrom_dots] at hw
    rw [startOf_child, names_child_append]
    exact ih hd' (.up hd' hw)
  | @into p name h hn hl ih =>
    rw [siteOf_child_of_ne fs p hn.notUp] at hd hw
    have habove := hwf.parent _ _ hd
    rw [dropLast_concat] at habove
    have hinto : StepsInto .keep name rest := ⟨hn.busy, hn.notUp, by simp, hn.short⟩
    rw [startOf_child, names_child_append]
    exact ih habove (.enter habove hinto hd (by simp) hw)

end

variable {fs : Files} {here k mid : Path} {name : Text} {inner : List Path}

theorem Direct.linkStart (h : Direct fs here) (target : Text) :
    Direct fs (linkStart here target) := by
  unfold Files.linkStart
  split
  · exact .start .root
  · exact h

/-- A trace from a path through no link ends at one. -/
theorem Traces.direct (hwf : fs.WellFormed) {q : Path} {names : List Text} {links : List Path}
    (h : Traces fs here names q links) (hd : Direct fs here) : Direct fs q := by
  induction h with
  | done here => exact hd
  | idle _ _ ih => exact ih hd
  | up _ ih => exact ih (hd.stepUp hwf)
  | enter hn hl _ ih => exact ih (.into hd hn hl)
  | link _ _ _ _ ihInner ihOuter => exact ihOuter (ihInner (hd.linkStart _))

/-! ### Resolving goes along traces -/

/-- The target of a link is seen at a path through no link, unless the path is refused. -/
theorem linkTarget?_of_link (hwf : fs.WellFormed) (hd : Direct fs here) {target : Text}
    (hn : Enters name) (he : fs.entry? (fs.siteOf (here.child name)) = some (.link target))
    (hs : (here.child name).text.nameSize < pathLimit) {o : Option Text}
    (h : fs.linkTarget? (here.child name) = .ok o) : o = some target := by
  have hsite := siteOf_child_of_ne fs here hn.notUp
  rw [hsite] at he
  have hdir := hwf.parent _ _ he
  rw [dropLast_concat] at hdir
  have hwalk : Walk fs .keep maxLinks (fs.startOf (here.child name)) (here.child name).names
      (fs.siteOf here ++ [name.asName], some (.link target)) :=
    hd.walk hwf hdir (.keep hdir ⟨hn.busy, hn.notUp, by simp, hn.short⟩ he rfl)
  cases hc : checkPath (here.child name) with
  | ok u =>
    rw [linkTarget?, locate_eq_ok.mpr ⟨hc, hwalk⟩] at h
    exact (Except.ok.inj h).symm
  | error e =>
    -- A path that is refused for another reason than its length is no path at all.
    have hkind : ∀ code place, e ≠ .os code place := by
      rintro code place rfl
      unfold checkPath at hc
      split at hc
      · cases hc
      · split at hc
        · cases hc
        · rw [if_neg (Nat.not_le.mpr hs)] at hc
          cases hc
    have hloc : fs.locate .keep (here.child name) = .error e := by
      rw [locate, hc]
      rfl
    rw [linkTarget?, hloc] at h
    cases e with
    | os code place => exact absurd rfl (hkind code place)
    | _ => cases h

/-- No link is seen at a path through no link, unless there is one. -/
theorem linkTarget?_of_not_link (hd : Direct fs here) (hn : Enters name)
    (hl : ∀ t, fs.entry? (fs.siteOf (here.child name)) ≠ some (.link t)) {o : Option Text}
    (h : fs.linkTarget? (here.child name) = .ok o) : o = none := by
  have hsite := siteOf_child_of_ne fs here hn.notUp
  unfold linkTarget? at h
  split at h
  · next l target hloc =>
    have hwalk := (locate_eq_ok.mp hloc).2
    rw [startOf_child] at hwalk
    have hlast : Walk fs .keep maxLinks (fs.siteOf here) [name] (l, some (.link target)) :=
      hd.passes (cons_ne_nil _ _) hwalk
    rw [hsite] at hl
    cases hlast with
    | stay _ hi => exact absurd hi hn.not_idle
    | up => exact absurd rfl hn.notUp
    | enter _ _ _ _ hw =>
      generalize hfound : (l, some (Entry.link target)) = found at hw
      cases hw
      exact absurd (congrArg Prod.snd hfound).symm (hl target)
    | keep _ _ he => exact absurd he (hl _)
    | follow _ _ he => exact absurd he (hl _)
  · cases h
    rfl
  · cases h
    rfl
  · cases h

/-- The link at a path leads to the path `mid`, through the links `inner`. -/
def LinkLeads (fs : Files) (k mid : Path) (inner : List Path) : Prop :=
  ∃ here name target, k = here.child name ∧ fs.entry? (fs.siteOf k) = some (.link target) ∧
    Traces fs (linkStart here target) (target.split '/') mid inner

theorem child_inj {p q : Path} {name' : Text} (h : p.child name = q.child name') :
    p = q ∧ name = name' := by
  obtain ⟨anchor, names⟩ := p
  obtain ⟨anchor', names'⟩ := q
  rw [Path.child, Path.child, Path.mk.injEq] at h
  obtain ⟨rfl, hnames⟩ := h
  obtain ⟨rfl, hname⟩ := append_inj' hnames rfl
  exact ⟨rfl, singleton_inj.mp hname⟩

theorem LinkLeads.unique {mid' : Path} {inner' : List Path} (h : LinkLeads fs k mid inner)
    (h' : LinkLeads fs k mid' inner') : mid = mid' ∧ inner = inner' := by
  obtain ⟨here, name, target, rfl, he, ht⟩ := h
  obtain ⟨here', name', target', hk, he', ht'⟩ := h'
  obtain ⟨rfl, rfl⟩ := child_inj hk
  cases he.symm.trans he'
  exact ht.unique ht'

/-- What is noted of links is right, and a link that is being resolved leads through at least `n`
links. -/
structure Noted (fs : Files) (n : Nat) (seen : SeenLinks) : Prop where
  resolved : ∀ k v, Assoc.get? k seen = some (some v) → ∃ inner, LinkLeads fs k v inner
  unresolved : ∀ k, Assoc.get? k seen = some none →
    ∃ mid inner, LinkLeads fs k mid inner ∧ n ≤ inner.length

theorem noted_nil (fs : Files) (n : Nat) : Noted fs n [] := by
  constructor
  · intro k v hk
    cases hk
  · intro k hk
    cases hk

/-- A link is noted as being resolved. -/
theorem Noted.begins {n m : Nat} {seen : SeenLinks} (h : Noted fs n seen)
    (hk : LinkLeads fs k mid inner) (hm : m ≤ n) (hinner : m ≤ inner.length) :
    Noted fs m (Assoc.insert k none seen) := by
  constructor
  · intro k' v hv
    rw [Assoc.get?_insert] at hv
    split at hv
    · cases hv
    · exact h.resolved k' v hv
  · intro k' hv
    rw [Assoc.get?_insert] at hv
    split at hv
    · next heq =>
      subst heq
      exact ⟨mid, inner, hk, hinner⟩
    · obtain ⟨mid', inner', hlead, hle⟩ := h.unresolved k' hv
      exact ⟨mid', inner', hlead, hm.trans hle⟩

/-- A link is noted as resolved, after which the same links as before are being resolved. -/
theorem Noted.ends {n : Nat} {seen seen1 : SeenLinks} (h : Noted fs n seen)
    (hk : LinkLeads fs k mid inner)
    (hresolved : ∀ k' v, Assoc.get? k' seen1 = some (some v) → ∃ inner, LinkLeads fs k' v inner)
    (hopen : ∀ k', Assoc.get? k' seen1 = some none →
      Assoc.get? k' (Assoc.insert k none seen) = some none) :
    Noted fs n (Assoc.insert k (some mid) seen1) ∧
      ∀ k', Assoc.get? k' (Assoc.insert k (some mid) seen1) = some none →
        Assoc.get? k' seen = some none := by
  have hsame : ∀ k', Assoc.get? k' (Assoc.insert k (some mid) seen1) = some none →
      Assoc.get? k' seen = some none := by
    intro k' hv
    rw [Assoc.get?_insert] at hv
    split at hv
    · cases hv
    · next hne =>
      have hv' := hopen k' hv
      rwa [Assoc.get?_insert, if_neg hne] at hv'
  refine ⟨⟨fun k' v hv => ?_, fun k' hv => h.unresolved k' (hsame k' hv)⟩, hsame⟩
  rw [Assoc.get?_insert] at hv
  split at hv
  · next heq =>
    cases hv
    subst heq
    exact ⟨inner, hk⟩
  · exact hresolved k' v hv

section

variable {fs : Files} {follow : Path → Text → ResolveM Resolution} {here : Path} {name : Text}
  {rest : List Text} {seen seen' : SeenLinks} {r : Resolution}

/-- Resolving goes on where a link leads that was resolved before, closes a circle at a link that is
being resolved, and resolves a new link first. -/
theorem resolveNames_of_link (hn : Enters name) {target : Text} (ht : ∀ o,
      fs.linkTarget? (here.child name) = .ok o → o = some target)
    (h : fs.resolveNames follow here (name :: rest) seen = .ok r seen') :
    (∃ v, Assoc.get? (here.child name) seen = some (some v) ∧
        fs.resolveNames follow v rest seen = .ok r seen') ∨
      Assoc.get? (here.child name) seen = some none ∨
      ∃ found seen1, follow here target (Assoc.insert (here.child name) none seen) =
          .ok found seen1 ∧
        ∀ v, found = .reached v → fs.resolveNames follow v rest
          (Assoc.insert (here.child name) (some v) seen1) = .ok r seen' := by
  obtain ⟨hnone, -⟩ | ⟨other, hother, hcases⟩ := resolveNames_into hn.busy hn.notUp h
  · cases ht _ hnone
  cases ht _ hother
  obtain hv | ⟨hopen, -⟩ | ⟨found, seen1, hfollow, hend⟩ := hcases
  · exact .inl hv
  · exact .inr (.inl hopen)
  · refine .inr (.inr ⟨found, seen1, hfollow, ?_⟩)
    rintro v rfl
    obtain ⟨p, hp, -⟩ | ⟨q, hq, h⟩ := hend
    · cases hp
    · cases hq
      exact h

end

variable {fs : Files} {q : Path} {names : List Text}

/-- Resolving goes along a trace whose links it sees. It meets no circle: a link that is being
resolved leads through more links than are left to follow. -/
theorem resolveNames_of_traces (hwf : fs.WellFormed) {here : Path} {links : List Path}
    (h : Traces fs here names q links) (hd : Direct fs here)
    (hs : ∀ k ∈ links, k.text.nameSize < pathLimit) {depth n : Nat} (hdepth : links.length ≤ depth)
    (hn : links.length ≤ n) {seen seen' : SeenLinks} {r : Resolution} (hseen : Noted fs n seen)
    (hr : fs.resolveNames (fs.resolveText depth) here names seen = .ok r seen') :
    r = .reached q ∧
      (∀ k v, Assoc.get? k seen' = some (some v) → ∃ inner, LinkLeads fs k v inner) ∧
      ∀ k, Assoc.get? k seen' = some none → Assoc.get? k seen = some none := by
  induction h generalizing depth n seen seen' r with
  | done here =>
    cases hr
    exact ⟨rfl, hseen.resolved, fun _ hk => hk⟩
  | idle hi _ ih =>
    rw [resolveNames_idle hi] at hr
    exact ih hd hs hdepth hn hseen hr
  | up _ ih =>
    rw [resolveNames_up] at hr
    exact ih (hd.stepUp hwf) hs hdepth hn hseen hr
  | enter hname hl _ ih =>
    obtain ⟨-, hr⟩ | ⟨target, ht, -⟩ := resolveNames_into hname.busy hname.notUp hr
    · exact ih (.into hd hname hl) hs hdepth hn hseen hr
    · cases linkTarget?_of_not_link hd hname hl ht
  | @link here mid q name target rest inner outer hname he htarget _ ihInner ihOuter =>
    have hk : LinkLeads fs (here.child name) mid inner := ⟨here, name, target, rfl, he, htarget⟩
    rw [length_cons, length_append] at hdepth hn
    have hsinner : ∀ k ∈ inner, k.text.nameSize < pathLimit := fun k hm => hs k (by simp [hm])
    have hsouter : ∀ k ∈ outer, k.text.nameSize < pathLimit := fun k hm => hs k (by simp [hm])
    have hmid : Direct fs mid := htarget.direct hwf (hd.linkStart target)
    obtain ⟨v, hv, hr⟩ | hopen | ⟨found, seen1, hfollow, hr⟩ := resolveNames_of_link hname
      (fun _ => linkTarget?_of_link hwf hd hname he (hs _ mem_cons_self)) hr
    · obtain ⟨inner', hlead⟩ := hseen.resolved _ v hv
      obtain ⟨rfl, -⟩ := hk.unique hlead
      exact ihOuter hmid hsouter (by omega) (by omega) hseen hr
    · obtain ⟨mid', inner', hlead, hle⟩ := hseen.unresolved _ hopen
      obtain ⟨-, rfl⟩ := hk.unique hlead
      omega
    · cases depth with
      | zero => omega
      | succ depth =>
        rw [resolveText] at hfollow
        obtain ⟨rfl, hresolved, hopen⟩ := ihInner (hd.linkStart target) hsinner (by omega) le_rfl
          (hseen.begins hk (by omega) le_rfl) hfollow
        obtain ⟨hnoted, hsame⟩ := hseen.ends hk hresolved hopen
        obtain ⟨rfl, hresolved', hopen'⟩ := ihOuter hmid hsouter (by omega) (by omega) hnoted
          (hr mid rfl)
        exact ⟨rfl, hresolved', fun k' hv => hsame k' (hopen' k' hv)⟩

/-! ### Resolved paths -/

/-- The path from which a path is resolved. -/
def startPath (p : Path) : Path := if p.isAbsolute then ⟨.root, []⟩ else ⟨.relative, []⟩

theorem siteOf_startPath (fs : Files) (p : Path) : fs.siteOf (startPath p) = fs.startOf p := by
  rw [startPath, startOf]
  split
  · rfl
  · rfl

theorem direct_startPath (fs : Files) (p : Path) : Direct fs (startPath p) := by
  unfold startPath
  split
  · exact .start .root
  · exact .start .relative

private theorem startsWith_slash (t : Text) :
    t.startsWith "/" = (Path.anchorOf t.points != .relative) := by
  obtain ⟨points⟩ := t
  cases points with
  | nil => rfl
  | cons p ps =>
    by_cases hp : p = .char '/'
    · subst hp
      have habs : Path.anchorOf (.char '/' :: ps) ≠ .relative := by
        unfold Path.anchorOf
        split
        · simp
        · simp
        · simp
        · next hne => exact absurd rfl (hne ps)
      rw [bne_iff_ne.mpr habs]
      rfl
    · have hrel : Path.anchorOf (p :: ps) = .relative := by
        unfold Path.anchorOf
        split
        · next heq =>
          cases heq
          exact absurd rfl hp
        · next heq =>
          cases heq
          exact absurd rfl hp
        · next heq =>
          cases heq
          exact absurd rfl hp
        · rfl
      rw [hrel]
      have hpoint : ((CodePoint.char '/') == p) = false := beq_false_of_ne (Ne.symm hp)
      simp only [Text.startsWith]
      change (((CodePoint.char '/') == p) && _) = false
      rw [hpoint, Bool.false_and]

/-- The text of a path begins at a root exactly if the path does. -/
theorem startsWith_text {p : Path} (hp : p.IsPlain) : p.text.startsWith "/" = p.isAbsolute := by
  rw [startsWith_slash, Path.isAbsolute]
  exact congrArg (fun q : Path => q.anchor != .relative) (Path.parse_text hp)

private theorem map_foldDots {start : List Text} :
    (Path.foldDots start names).map Text.asName = names.foldl stepFrom (start.map Text.asName) := by
  induction names generalizing start with
  | nil => rfl
  | cons name rest ih =>
    have hstep : (if name == ".." then start.dropLast else start ++ [name]).map Text.asName =
        stepFrom (start.map Text.asName) name := by
      unfold stepFrom
      split
      · exact map_dropLast ..
      · rw [map_append]
        rfl
    rw [foldl_cons, ← hstep, ← ih]
    rfl

/-- The resolved form of a path through no link has the names of its site. -/
theorem placeOf_normalize (hn : fs.StartsProper)
    (hown : placeOf fs.workingDirectory = fs.workingDirectory) (hq : q.anchor ≠ .doubleRoot) :
    ((absolute fs.workingDirectory).join q).normalize.anchor = .root ∧
      placeOf ((absolute fs.workingDirectory).join q).normalize.names = fs.siteOf q := by
  obtain ⟨anchor, names⟩ := q
  cases anchor with
  | doubleRoot => exact absurd rfl hq
  | root => exact ⟨rfl, map_foldDots⟩
  | relative =>
    refine ⟨rfl, ?_⟩
    change (Path.foldDots [] (fs.workingDirectory ++ names)).map Text.asName =
      names.foldl stepFrom fs.workingDirectory
    have hcwd : Path.foldDots [] fs.workingDirectory = fs.workingDirectory :=
      Path.foldDots_of_noDots fun n hm => (hn n hm).notDots
    have hsplit : Path.foldDots [] (fs.workingDirectory ++ names) =
        Path.foldDots fs.workingDirectory names := by
      rw [Path.foldDots, foldl_append]
      exact congrArg (Path.foldDots · names) hcwd
    rw [hsplit, map_foldDots]
    exact congrArg (names.foldl stepFrom) hown

theorem Traces.anchor {here : Path} {links : List Path} (h : Traces fs here names q links)
    (hh : here.anchor ≠ .doubleRoot) : q.anchor ≠ .doubleRoot := by
  induction h with
  | done here => exact hh
  | idle _ _ ih => exact ih hh
  | up _ ih =>
    refine ih ?_
    unfold stepUp
    split
    · split
      · exact hh
      · simp
    · split
      · exact hh
      · exact hh
  | enter _ _ _ ih => exact ih hh
  | link _ _ _ _ ihInner ihOuter =>
    refine ihOuter (ihInner ?_)
    unfold linkStart
    split
    · simp
    · exact hh

section

variable {fs : Files} (hwf : fs.WellFormed) {p q r : Path} (hp : p.IsPlain) {links : List Path}
  (ht : Traces fs (startPath p) p.names q links) (hs : ∀ k ∈ links, k.text.nameSize < pathLimit)
  (hl : links.length ≤ maxLinks) (h : fs.resolve p = .ok r)

include hwf hp ht hs hl h

/-- A path resolves to the path to which its trace leads, if all links of the trace are seen. -/
theorem resolve_of_traces : r = ((absolute fs.workingDirectory).join q).normalize := by
  have hstart : (if p.text.startsWith "/" then (⟨.root, []⟩ : Path) else ⟨.relative, []⟩) =
      startPath p := by
    rw [startsWith_text hp, startPath]
  have hnames : Traces fs (startPath p) (p.text.split '/') q links := by
    refine Traces.of_filter ?_
    have hparse : Path.namesOf p.text = p.names := congrArg Path.names (Path.parse_text hp)
    rwa [← hparse] at ht
  have hreached : ∀ res seen, fs.resolveText maxNested ⟨.relative, []⟩ p.text [] = .ok res seen →
      res = .reached q := by
    intro res seen hres
    rw [maxNested, resolveText, hstart] at hres
    have hdepth : links.length ≤ 999 := hl.trans (by decide)
    exact (resolveNames_of_traces hwf hnames (direct_startPath fs p) hs hdepth le_rfl
      (noted_nil fs _) hres).1
  replace h := resolvePath_of_resolve h
  unfold resolvePath at h
  split at h
  · next hres =>
    cases hreached _ _ hres
    cases h
    rfl
  · next hres => cases hreached _ _ hres
  · cases h

/-- So it resolves to the place where its trace ends. -/
theorem placeOf_resolve (hown : placeOf fs.workingDirectory = fs.workingDirectory) :
    r.anchor = .root ∧ placeOf r.names = fs.siteOf q := by
  have hq : q.anchor ≠ .doubleRoot := ht.anchor (by
    unfold startPath
    split
    · simp
    · simp)
  rw [resolve_of_traces hwf hp ht hs hl h]
  exact placeOf_normalize hwf.names hown hq

end

end RoutePlugins.Files
