import RoutePlugins.Proofs.Files.Resolved

/-!
# Scrubbed paths

A message is scrubbed by leaving out the root with a slash behind it, and putting a dot where the
root still stands. Of a path at or below the root this leaves what it is from there. But the root is
looked for in the text, and a text is left as it is exactly if the root does not stand in it. So of
the other paths some are changed: those in which the names of the root follow one another anywhere,
and for its last name a name is enough that begins with it.
-/

namespace RoutePlugins

open List

namespace Text

variable {word new ps : List CodePoint}

theorem holdsPoints_iff : holdsPoints word ps = true ↔ word <:+: ps := by
  induction ps with
  | nil => simp [holdsPoints]
  | cons p ps ih => simp [holdsPoints, ih, infix_cons_iff]

private theorem replaceFrom_skip (front rest : List CodePoint) :
    replaceFrom word new front.length (front ++ rest) = replaceFrom word new 0 rest := by
  induction front with
  | nil => rfl
  | cons p front ih => exact ih

/-- A word at the front is replaced. -/
theorem replaceFrom_word (hword : word ≠ []) (new rest : List CodePoint) :
    replaceFrom word new 0 (word ++ rest) = new ++ replaceFrom word new 0 rest := by
  obtain ⟨p, front, rfl⟩ := exists_cons_of_ne_nil hword
  have hfront : (p :: front).isPrefixOf (p :: (front ++ rest)) = true :=
    isPrefixOf_iff_prefix.mpr (prefix_append (p :: front) rest)
  rw [cons_append, replaceFrom, if_pos hfront, length_cons, Nat.add_sub_cancel,
    replaceFrom_skip]

/-- Where the word does not stand, nothing is replaced. -/
theorem replace_of_not_infix {t word : Text} (h : ¬ word.points <:+: t.points) (new : Text) :
    t.replace word new = t := by
  refine congrArg Text.mk ?_
  generalize t.points = ps at h ⊢
  induction ps with
  | nil => rfl
  | cons p ps ih =>
    rw [infix_cons_iff, not_or] at h
    rw [replaceFrom, if_neg (by simpa using h.1), ih h.2]

theorem length_replaceFrom_le (hnew : new.length ≤ word.length) (skip : Nat)
    (ps : List CodePoint) : (replaceFrom word new skip ps).length ≤ ps.length - skip := by
  induction ps generalizing skip with
  | nil => exact Nat.zero_le _
  | cons p ps ih =>
    cases skip with
    | succ skip =>
      rw [replaceFrom, length_cons, Nat.add_sub_add_right]
      exact ih skip
    | zero =>
      rw [replaceFrom]
      split
      · next hfront =>
        have hlong := (List.isPrefixOf_iff_prefix.mp hfront).length_le
        have hrest := ih (word.length - 1)
        rw [length_append]
        rw [length_cons] at hlong ⊢
        omega
      · exact Nat.succ_le_succ (ih 0)

/-- Where a word stands that is longer than what replaces it, less is left. -/
theorem length_replaceFrom_lt (hnew : new.length < word.length) (h : word <:+: ps) :
    (replaceFrom word new 0 ps).length < ps.length := by
  induction ps with
  | nil =>
    rw [infix_nil.mp h] at hnew
    exact absurd hnew (Nat.not_lt_zero _)
  | cons p ps ih =>
    rw [replaceFrom]
    split
    · next hfront =>
      have hlong := (List.isPrefixOf_iff_prefix.mp hfront).length_le
      have hrest := length_replaceFrom_le (Nat.le_of_lt hnew) (word.length - 1) ps
      rw [length_append]
      rw [length_cons] at hlong ⊢
      omega
    · next hfront =>
      have hrest := (infix_cons_iff.mp h).resolve_left (by simpa using hfront)
      exact Nat.succ_lt_succ (ih hrest)

end Text

namespace Ledger

variable {root t : Text}

/-- A message stays as it is exactly if the root does not stand in it. -/
theorem scrub_eq_self_iff (hroot : 1 < root.length) :
    scrub root t = t ↔ ¬ root.points <:+: t.points := by
  have hslash : root.points <+: (root ++ ("/" : Text)).points := prefix_append _ _
  constructor
  · intro heq hstands
    have hlength : (scrub root t).points.length < t.points.length := by
      by_cases h : (root ++ ("/" : Text)).points <:+: t.points
      · have hdot := @Text.length_replaceFrom_le root.points [.char '.'] (Nat.le_of_lt hroot) 0
        refine Nat.lt_of_le_of_lt (hdot _) ?_
        refine Text.length_replaceFrom_lt ?_ h
        exact Nat.lt_of_lt_of_le (Nat.zero_lt_of_lt hroot) hslash.length_le
      · rw [scrub, Text.replace_of_not_infix h]
        exact Text.length_replaceFrom_lt hroot hstands
    rw [heq] at hlength
    exact Nat.lt_irrefl _ hlength
  · intro h
    have h' : ¬ (root ++ ("/" : Text)).points <:+: t.points := fun hi => h (hslash.isInfix.trans hi)
    rw [scrub, Text.replace_of_not_infix h', Text.replace_of_not_infix h]

/-- The root itself is shown as a dot. -/
theorem scrub_self (hroot : root.points ≠ []) : scrub root root = "." := by
  have hlong : ¬ (root ++ ("/" : Text)).points <:+: root.points := by
    intro h
    have := h.length_le
    rw [show (root ++ ("/" : Text)).points = root.points ++ [.char '/'] from rfl,
      length_append, length_singleton] at this
    omega
  have hword := Text.replaceFrom_word hroot [.char '.'] []
  rw [append_nil] at hword
  rw [scrub, Text.replace_of_not_infix hlong]
  exact congrArg Text.mk hword

/-- What is below the root is scrubbed from there on. -/
theorem scrub_below (root t : Text) : scrub root (root ++ "/" ++ t) = scrub root t := by
  have hne : (root ++ ("/" : Text)).points ≠ [] :=
    append_ne_nil_of_right_ne_nil _ (cons_ne_nil _ _)
  have hword := Text.replaceFrom_word hne [] t.points
  unfold scrub
  exact congrArg (fun ps => Text.replace ⟨ps⟩ root ".") hword

end Ledger

/-! ### Texts of paths -/

namespace Path

/-- Names with a slash before each. -/
def slashed (names : List Text) : List CodePoint := names.flatMap fun n => .char '/' :: n.points

theorem slash_joinWith {names : List Text} (h : names ≠ []) :
    .char '/' :: (Text.joinWith "/" names).points = slashed names := by
  induction names with
  | nil => exact absurd rfl h
  | cons n names ih =>
    by_cases hnil : names = []
    · simp [hnil, Text.joinWith, slashed]
    · rw [Text.points_joinWith hnil]
      exact congrArg (fun ps => .char '/' :: (n.points ++ ps)) (ih hnil)

/-- Names that stand between slashes in a text are names of the text. -/
theorem namesOf_slashed {names : List Text} (h : ∀ n ∈ names, PlainName n)
    (ps qs : List CodePoint) :
    namesOf ⟨ps ++ (slashed names ++ .char '/' :: qs)⟩ =
      namesOf ⟨ps⟩ ++ (names ++ namesOf ⟨qs⟩) := by
  induction names generalizing ps with
  | nil => exact namesOf_append ps qs
  | cons n names ih =>
    obtain ⟨hn, hnames⟩ := forall_mem_cons.mp h
    have hone : namesOf n = [n] := @namesOf_joinWith [n] (by simpa using hn)
    have hcons : slashed (n :: names) ++ .char '/' :: qs =
        .char '/' :: (n.points ++ (slashed names ++ .char '/' :: qs)) := by simp [slashed]
    rw [hcons, namesOf_append, ih hnames, hone]
    rfl

/-- The first name of what follows a slash begins as that does. -/
theorem namesOf_begun {last : Text} (h : PlainName last) (qs : List CodePoint) :
    ∃ name back, namesOf ⟨last.points ++ qs⟩ = name :: back ∧ last.points <+: name.points := by
  have hone {more : List CodePoint} (hmore : .char '/' ∉ more) :
      namesOf ⟨last.points ++ more⟩ = [⟨last.points ++ more⟩] := by
    have hne : last.points ≠ [] := by simpa [Text.isEmpty] using h.nonempty
    have hplain : PlainName ⟨last.points ++ more⟩ := by
      refine ⟨by simp [Text.isEmpty, hne], fun hdot => ?_, Text.contains_eq_false.mpr ?_⟩
      · rcases append_eq_singleton_iff.mp (congrArg Text.points hdot)
          with ⟨hnil, -⟩ | ⟨hdot, -⟩
        · exact hne hnil
        · exact h.notDot (congrArg Text.mk hdot)
      · simpa [hmore] using Text.contains_eq_false.mp h.noSlash
    exact @namesOf_joinWith [_] (by simpa using hplain)
  by_cases hs : .char '/' ∈ qs
  · obtain ⟨more, rest, rfl, hmore⟩ := eq_append_cons_of_mem hs
    refine ⟨_, namesOf ⟨rest⟩, ?_, prefix_append _ more⟩
    rw [← append_assoc, namesOf_append, hone hmore]
    rfl
  · exact ⟨_, [], hone hs, prefix_append _ _⟩

/-- The names of `root` stand in a row among those of `q`, where a name that begins with the last of
them is enough for it. -/
def Resembles (root q : Path) : Prop :=
  ∃ front name back, q.names = front ++ root.parent.names ++ name :: back ∧
    root.name.points <+: name.points

variable {root q : Path}

theorem text_of_absolute (h : q.isAbsolute = true) (hne : q.names ≠ []) :
    ∃ front, q.text.points = front ++ slashed q.names := by
  obtain ⟨anchor, names⟩ := q
  rw [← slash_joinWith hne]
  cases anchor with
  | relative => cases h
  | root => exact ⟨[], rfl⟩
  | doubleRoot => exact ⟨[.char '/'], rfl⟩

theorem text_of_root (hroot : root.anchor = .root) (hne : root.names ≠ []) :
    root.text.points = slashed root.names := by
  obtain ⟨anchor, names⟩ := root
  cases hroot
  exact slash_joinWith hne

/-- The text of a path below a root: the root, a slash and the rest. -/
theorem text_of_relativeTo? {rest : Path} (hroot : root.anchor = .root) (hne : root.names ≠ [])
    (h : q.relativeTo? root = some rest) (hq : q ≠ root) :
    q.text = root.text ++ "/" ++ rest.text := by
  unfold relativeTo? at h
  split at h
  · next hbelow =>
    simp only [Bool.and_eq_true, beq_iff_eq, isPrefixOf_iff_prefix] at hbelow
    obtain ⟨hanchor, more, hmore⟩ := hbelow
    cases h
    rw [← hmore, drop_left]
    have hnil : more ≠ [] := by
      rintro rfl
      rw [append_nil] at hmore
      exact hq (by cases q; cases root; simp_all)
    have hrest : (⟨.relative, more⟩ : Path).text = Text.joinWith "/" more := by
      obtain ⟨n, more, rfl⟩ := exists_cons_of_ne_nil hnil
      rfl
    refine congrArg Text.mk (?_ : q.text.points = (root.text.points ++ [.char '/']) ++ _)
    rw [text_of_root (hanchor.trans hroot) (by simp [← hmore, hne]), text_of_root hroot hne, hrest,
      ← hmore, append_assoc, singleton_append, slash_joinWith hnil]
    exact flatMap_append
  · cases h

/-- A root stands in the text of a path that resembles it, and in no other. -/
theorem infix_text_iff (hroot : root.anchor = .root) (hr : root.IsPlain) (hne : root.names ≠ [])
    (hq : q.isAbsolute = true) (hqp : q.IsPlain) :
    root.text.points <:+: q.text.points ↔ root.Resembles q := by
  have hnames : root.names = root.parent.names ++ [root.name] := by
    rw [parent, name, List.getLast?_eq_some_getLast hne, Option.getD_some,
      dropLast_concat_getLast]
  have htext : root.text.points = slashed root.parent.names ++ .char '/' :: root.name.points := by
    rw [text_of_root hroot hne, hnames]
    simp [slashed]
  constructor
  · rintro ⟨ps, qs, hpoints⟩
    obtain ⟨n, back, hback, hlast⟩ := namesOf_begun (hr root.name (hnames ▸ by simp)) qs
    refine ⟨namesOf ⟨ps⟩, n, back, ?_, hlast⟩
    have hread : namesOf ⟨q.text.points⟩ = q.names := congrArg names (parse_text hqp)
    have hqtext : q.text.points =
        ps ++ (slashed root.parent.names ++ .char '/' :: (root.name.points ++ qs)) := by
      rw [← hpoints, htext]
      simp
    rw [← hread, hqtext, namesOf_slashed hr.parent, hback, append_assoc]
  · rintro ⟨front, n, back, heq, more, hmore⟩
    obtain ⟨ps, hps⟩ := text_of_absolute hq (by simp [heq])
    refine ⟨ps ++ slashed front, more ++ slashed back, ?_⟩
    rw [hps, htext, heq]
    simp [slashed, ← hmore]

end Path

namespace Ledger

variable {root q : Path}

/-- Of every path from a root other than the top: the root itself is shown as a dot, and a path
below it as the rest of the path is, which is the rest as it stands exactly if the root does not
stand in it again. Any other path is left as it is exactly if it does not resemble the root. -/
theorem scrubbed_paths (hroot : root.anchor = .root) (hr : root.IsPlain) (hne : root.names ≠ [])
    (hq : q.isAbsolute = true) (hqp : q.IsPlain) :
    (q = root → scrub root.text q.text = ".") ∧
    (∀ rest, q.relativeTo? root = some rest → q ≠ root →
      scrub root.text q.text = scrub root.text rest.text ∧
      (scrub root.text q.text = rest.text ↔ rest.text.holds root.text = false)) ∧
    (q.relativeTo? root = none → (scrub root.text q.text = q.text ↔ ¬ root.Resembles q)) := by
  have hlong : 1 < root.text.length := by
    obtain ⟨n, names, hnames⟩ := exists_cons_of_ne_nil hne
    have hn := (hr n (hnames ▸ mem_cons_self)).nonempty
    rw [Text.isEmpty, isEmpty_eq_false_iff, ← length_pos_iff] at hn
    rw [Text.length, Path.text_of_root hroot hne, hnames]
    simp [Path.slashed]
    omega
  refine ⟨?_, fun rest hrest hother => ?_, fun _ => ?_⟩
  · rintro rfl
    exact scrub_self (ne_nil_of_length_pos (Nat.zero_lt_of_lt hlong))
  · have hscrub : scrub root.text q.text = scrub root.text rest.text := by
      rw [Path.text_of_relativeTo? hroot hne hrest hother, scrub_below]
    refine ⟨hscrub, ?_⟩
    rw [hscrub, scrub_eq_self_iff hlong, ← Text.holdsPoints_iff, Bool.not_eq_true]
    rfl
  · rw [scrub_eq_self_iff hlong, Path.infix_text_iff hroot hr hne hq hqp]

namespace Sample

def home : Path := .parse "/w/proj"

def page : Path := .parse "/w/proj/app/page.tsx"

def sibling : Path := .parse "/w/project/a.ts"

end Sample

open Sample

/-- A file of the project is shown from its root, and the text of a file of the directory beside it
is changed, since the name of that directory begins with the name of the root. -/
theorem scrubbed_paths_siblings :
    scrub home.text page.text = Path.text (.parse "app/page.tsx") ∧
      scrub home.text sibling.text ≠ sibling.text := by
  have hlaws (q : Path) := @scrubbed_paths home q rfl (Path.isPlain_parse _) (by decide)
  constructor
  · have hpage := (hlaws page rfl (Path.isPlain_parse _)).2.1
    exact (hpage (.parse "app/page.tsx") (by decide) (by decide)).2.mpr (by decide)
  · have hsibling := (hlaws sibling rfl (Path.isPlain_parse _)).2.2 (by decide)
    exact fun heq => hsibling.mp heq ⟨[], "project", ["a.ts"], by decide, by decide⟩

/-- A path that is neither the root nor below it may be changed. -/
theorem sibling_path_changed :
    ¬ ∀ root q : Path, root.anchor = .root → root.IsPlain → root.names ≠ [] →
      q.isAbsolute = true → q.IsPlain → q.relativeTo? root = none →
        scrub root.text q.text = q.text := by
  intro h
  exact absurd (h home sibling rfl (Path.isPlain_parse _) (by decide) rfl (Path.isPlain_parse _)
    (by decide)) (by decide)

end Ledger

end RoutePlugins
