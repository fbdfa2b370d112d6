import RoutePlugins.Proofs.Files.LongPaths
import RoutePlugins.Routes.Layouts

/-!
# Layouts of routes

The layouts that wrap a route directory, said for all directories on the way at once: from the route
directory up to the app directory each layout is there, unless the next directory down is a route
group with a layout of its own. A layout is looked for in every directory on the way, so one that
cannot be looked for, because its path is too long for a file, leaves the route without layouts.
-/

namespace RoutePlugins

open List

variable {segment : Text}

/-- A search ends at the first item that does not just fail the test. -/
theorem findM?_eq_iff {α ε : Type} {f : α → Except ε Bool} {l : List α} {r : Except ε (Option α)}
    (hr : r ≠ .ok none) : l.findM? f = r ↔
      ∃ front a back, l = front ++ a :: back ∧ (∀ x ∈ front, f x = .ok false) ∧
        (f a).map (fun found => if found then some a else none) = r := by
  constructor
  · intro h
    induction l with
    | nil => exact absurd h.symm hr
    | cons b rest ih =>
      rw [List.findM?] at h
      rcases hb : f b with e | _ | _ <;> rw [hb] at h
      · exact ⟨[], b, rest, rfl, by simp, by rw [hb]; exact h⟩
      · obtain ⟨front, a, back, rfl, hfront, ha⟩ := ih h
        exact ⟨b :: front, a, back, rfl, forall_mem_cons.mpr ⟨hb, hfront⟩, ha⟩
      · exact ⟨[], b, rest, rfl, by simp, by rw [hb]; exact h⟩
  · rintro ⟨front, a, back, rfl, hfront, ha⟩
    induction front with
    | nil =>
      rw [nil_append, List.findM?]
      rcases hfa : f a with e | _ | _ <;> rw [hfa] at ha
      · exact ha
      · exact absurd ha.symm hr
      · exact ha
    | cons b front ih =>
      rw [cons_append, List.findM?, hfront b (by simp)]
      exact ih fun x hx => hfront x (by simp [hx])

namespace Routes

/-! ### Route groups -/

theorem inParentheses_iff {ps : List CodePoint} : inParentheses ps = true ↔
    ∃ inner, ps = .char '(' :: (inner ++ [.char ')']) ∧ inner ≠ [] ∧ .char '\n' ∉ inner := by
  unfold inParentheses
  split
  · next rest =>
    constructor
    · intro h
      simp only [Bool.and_eq_true, beq_iff_eq, Bool.not_eq_true', isEmpty_eq_false_iff] at h
      obtain ⟨⟨hlast, hinner⟩, hline⟩ := h
      refine ⟨rest.dropLast, ?_, hinner, by simpa using hline⟩
      rw [dropLast_append_getLast? _ hlast]
    · rintro ⟨inner, heq, hinner, hline⟩
      obtain ⟨-, rfl⟩ := List.cons.inj heq
      simp [hinner, hline]
  · next hother =>
    constructor
    · intro h
      cases h
    · rintro ⟨inner, rfl, -⟩
      exact absurd rfl (hother _)

/-- A name in parentheses, on one line. A line end may follow them. -/
def Parenthesized (segment : Text) : Prop :=
  ∃ inner, inner ≠ [] ∧ .char '\n' ∉ inner ∧
    (segment.points = .char '(' :: (inner ++ [.char ')']) ∨
      segment.points = .char '(' :: (inner ++ [.char ')', .char '\n']))

theorem isGroup_iff : isGroup segment = true ↔ Parenthesized segment := by
  unfold isGroup
  dsimp only
  rw [Bool.or_eq_true, Bool.and_eq_true, beq_iff_eq, inParentheses_iff, inParentheses_iff]
  constructor
  · rintro (⟨inner, heq, hinner, hline⟩ | ⟨hlast, inner, heq, hinner, hline⟩)
    · exact ⟨inner, hinner, hline, .inl heq⟩
    · refine ⟨inner, hinner, hline, .inr ?_⟩
      rw [← dropLast_append_getLast? _ hlast, heq]
      simp
  · rintro ⟨inner, hinner, hline, heq | heq⟩
    · exact .inl ⟨inner, heq, hinner, hline⟩
    · refine .inr ⟨?_, inner, ?_, hinner, hline⟩
      · rw [heq]
        simp [List.getLast?_cons, List.getLast?_append]
      · rw [heq, dropLast_cons_of_ne_nil (by simp), dropLast_append_of_ne_nil (by simp)]
        rfl

/-! ### Looking for a layout -/

section

variable {fs : Files} {dir : Path}

/-- The extensions before this one give no layout of a directory. -/
def FirstLook (fs : Files) (dir : Path) (ext : Text) : Prop :=
  ∃ front back, sourceExts = front ++ ext :: back ∧
    ∀ x ∈ front, fs.isFile (dir.child ("layout" ++ x)) = .ok false

theorem layoutOf_eq_iff {r : Except Fault (Option Path)} (hr : r ≠ .ok none) :
    layoutOf fs dir = r ↔ ∃ ext, FirstLook fs dir ext ∧
      (fs.isFile (dir.child ("layout" ++ ext))).map
        (fun found => if found then some (dir.child ("layout" ++ ext)) else none) = r := by
  unfold layoutOf withSourceExt
  rw [findM?_eq_iff hr]
  constructor
  · rintro ⟨front, p, back, heq, hfront, hp⟩
    obtain ⟨exts, others, hexts, rfl, hothers⟩ := map_eq_append_iff.mp heq
    obtain ⟨ext, back, rfl, rfl, rfl⟩ := map_eq_cons_iff.mp hothers
    exact ⟨ext, ⟨exts, back, hexts, fun x hx => hfront _ (mem_map_of_mem hx)⟩, hp⟩
  · rintro ⟨ext, ⟨front, back, hexts, hfront⟩, hp⟩
    refine ⟨front.map fun x => dir.child ("layout" ++ x), _,
      back.map fun x => dir.child ("layout" ++ x), by rw [hexts, map_append, map_cons],
      fun x hx => ?_, hp⟩
    obtain ⟨y, hy, rfl⟩ := mem_map.mp hx
    exact hfront y hy

/-- The layout of a directory is the first file with a source extension. -/
theorem layoutOf_eq_some_iff {p : Path} : layoutOf fs dir = .ok (some p) ↔
    ∃ ext, FirstLook fs dir ext ∧ p = dir.child ("layout" ++ ext) ∧ fs.isFile p = .ok true := by
  rw [layoutOf_eq_iff (by simp)]
  refine exists_congr fun ext => and_congr_right fun _ => ?_
  rcases hfile : fs.isFile (dir.child ("layout" ++ ext)) with e | _ | _
  · simp +contextual [Except.map, hfile]
  · simp +contextual [Except.map, hfile]
  · simp +contextual [Except.map, hfile, eq_comm]

/-- A layout cannot be looked for where its path is too long for a file, unless one with an
extension before is found. -/
theorem layoutOf_eq_error_iff {e : Fault} : layoutOf fs dir = .error e ↔
    ∃ ext, FirstLook fs dir ext ∧ fs.TooLong (dir.child ("layout" ++ ext)) ∧
      e = .os .nameTooLong (Text.quoted (dir.child ("layout" ++ ext)).text) := by
  rw [layoutOf_eq_iff (by simp)]
  refine exists_congr fun ext => and_congr_right fun _ => ?_
  rw [← Files.foundWith_eq_error_iff, ← Files.isFile]
  cases fs.isFile (dir.child ("layout" ++ ext)) with
  | error e' => simp [Except.map]
  | ok found => simp [Except.map]

end

/-! ### The directories on the way -/

/-- The directory `i` steps down the segments from the app directory. -/
def directoryAt (appDir : Path) (segments : List Text) (i : Nat) : Path :=
  ⟨appDir.anchor, appDir.names ++ segments.take i⟩

section

variable {appDir : Path} {segments : List Text}

theorem directoryAt_zero : directoryAt appDir segments 0 = appDir := by
  rw [directoryAt, take_zero, append_nil]

theorem directoryAt_succ {i : Nat} (h : segments[i]? = some segment) :
    directoryAt appDir segments (i + 1) = (directoryAt appDir segments i).child segment := by
  rw [directoryAt, take_add_one, h, ← append_assoc]
  rfl

theorem relativeTo_directoryAt :
    (directoryAt appDir segments segments.length).relativeTo appDir =
      .ok ⟨.relative, segments⟩ := by
  have hprefix : appDir.names.isPrefixOf (appDir.names ++ segments) = true :=
    isPrefixOf_iff_prefix.mpr (prefix_append _ _)
  simp [Path.relativeTo, Path.relativeTo?, directoryAt, hprefix]

end

/-! ### The layouts that are kept -/

/-- The layout at depth `i` gives way to the one below it: the next directory down is a route group
with a layout of its own. -/
def givesWay (segments : List Text) (layout : Nat → Option Path) (i : Nat) : Bool :=
  segments[i]?.any isGroup && (layout (i + 1)).isSome

/-- The layouts of a way that do not give way to the one below them, nearest first. -/
def wrapping (segments : List Text) (layout : Nat → Option Path) : List Path :=
  (List.range (segments.length + 1)).reverse.filterMap fun i =>
    if givesWay segments layout i then none else layout i

/-- The layout at a depth with the depth. -/
def placed (layout : Nat → Option Path) (i : Nat) : List Layout :=
  ((layout i).map fun p => (p, i)).toList

/-- The layouts above depth `k` that do not give way, nearest first. -/
def keptAbove (segments : List Text) (layout : Nat → Option Path) (k : Nat) : List Layout :=
  (List.range k).reverse.flatMap fun i => if givesWay segments layout i then [] else placed layout i

/-- The layouts that are kept once the directory at depth `k` was looked at. -/
def kept (segments : List Text) (layout : Nat → Option Path) (k : Nat) : List Layout :=
  placed layout k ++ keptAbove segments layout k

section

variable {segments : List Text} {layout : Nat → Option Path}

theorem keptAbove_succ (k : Nat) : keptAbove segments layout (k + 1) =
    (if givesWay segments layout k then [] else placed layout k) ++
      keptAbove segments layout k := by
  rw [keptAbove, range_succ, reverse_append]
  rfl

theorem depth_lt_of_mem_keptAbove {k : Nat} {l : Layout}
    (h : l ∈ keptAbove segments layout k) : l.2 < k := by
  obtain ⟨i, hi, hl⟩ := mem_flatMap.mp h
  have hik : i < k := by simpa using hi
  split at hl
  · cases hl
  · obtain ⟨p, -, rfl⟩ := Option.map_eq_some_iff.mp (Option.mem_toList.mp hl)
    exact hik

/-- Adding the layout of the next directory keeps what is to be kept. -/
theorem addLayout_kept {k : Nat} {l : Path} (hs : segments[k]? = some segment)
    (hl : layout (k + 1) = some l) :
    addLayout segment (k + 1) l (kept segments layout k) = kept segments layout (k + 1) := by
  have hnext : placed layout (k + 1) = [(l, k + 1)] := by rw [placed, hl]; rfl
  have hgives : givesWay segments layout k = isGroup segment := by simp [givesWay, hs, hl]
  rw [kept, kept, hnext, keptAbove_succ, hgives]
  cases hk : layout k with
  | none =>
    -- Nothing is directly above, so nothing gives way.
    have hnone : placed layout k = [] := by rw [placed, hk]; rfl
    rw [hnone, nil_append, ite_self, nil_append]
    cases habove : keptAbove segments layout k with
    | nil => rfl
    | cons x rest =>
      have hx : x.2 < k := depth_lt_of_mem_keptAbove (habove ▸ mem_cons_self)
      obtain ⟨p, d⟩ := x
      have hd : (d + 1 == k + 1) = false := by
        rw [beq_eq_false_iff_ne]
        exact fun h => Nat.ne_of_lt hx (Nat.succ.inj h)
      simp [addLayout, hd]
  | some p =>
    have hsome : placed layout k = [(p, k)] := by rw [placed, hk]; rfl
    rw [hsome]
    cases hg : isGroup segment with
    | true => simp [addLayout, hg]
    | false => simp [addLayout, hg]

/-- A directory without a layout leaves the layouts as they are. -/
theorem kept_of_none {k : Nat} (hl : layout (k + 1) = none) :
    kept segments layout k = kept segments layout (k + 1) := by
  have hnext : placed layout (k + 1) = [] := by rw [placed, hl]; rfl
  have hgives : givesWay segments layout k = false := by simp [givesWay, hl]
  rw [kept, kept, hnext, keptAbove_succ, hgives]
  rfl

theorem map_placed (i : Nat) : (placed layout i).map Prod.fst = (layout i).toList := by
  rw [placed]
  cases layout i with
  | none => rfl
  | some p => rfl

/-- At the end of the way the kept layouts are those that wrap the route. -/
theorem map_kept : (kept segments layout segments.length).map Prod.fst =
    wrapping segments layout := by
  have hlast : givesWay segments layout segments.length = false := by simp [givesWay]
  have hstep (i : Nat) :
      (if givesWay segments layout i then [] else placed layout i).map Prod.fst =
        (if givesWay segments layout i then none else layout i).toList := by
    split
    · rfl
    · exact map_placed i
  rw [wrapping, filterMap_eq_flatMap_toList, range_succ, reverse_append, kept,
    map_append, map_placed, keptAbove, map_flatMap, funext hstep, flatMap_append]
  simp [hlast]

end

/-! ### The whole way -/

section

variable {fs : Files} {appDir : Path} {segments : List Text} {layout : Nat → Option Path}

/-- Below a depth up to which the kept layouts were found, those of the whole way are found. -/
theorem layoutsFrom_kept
    (h : ∀ i ≤ segments.length, layoutOf fs (directoryAt appDir segments i) = .ok (layout i))
    (front rest : List Text) (hs : segments = front ++ rest) :
    layoutsFrom fs (directoryAt appDir segments front.length) front.length
        (kept segments layout front.length) rest =
      .ok (kept segments layout segments.length) := by
  induction rest generalizing front with
  | nil =>
    rw [append_nil] at hs
    rw [hs]
    rfl
  | cons segment rest ih =>
    have hsegment : segments[front.length]? = some segment := by simp [hs]
    have hlook := h (front.length + 1) (by simp [hs])
    have hrest := ih (front ++ [segment]) (by simp [hs])
    rw [length_append, length_singleton] at hrest
    rw [layoutsFrom, ← directoryAt_succ hsegment, hlook, ← hrest]
    cases hl : layout (front.length + 1) with
    | none => rw [← kept_of_none hl]; rfl
    | some l => rw [← addLayout_kept hsegment hl]; rfl

/-- The fault of the first directory on a way in which a layout cannot be looked for. -/
def FirstFault (fs : Files) (dir : Path) (segments : List Text) (e : Fault) : Prop :=
  ∃ i ≤ segments.length, (∀ j < i, ∃ o, layoutOf fs (directoryAt dir segments j) = .ok o) ∧
    layoutOf fs (directoryAt dir segments i) = .error e

variable {dir : Path} {e : Fault}

theorem firstFault_nil : FirstFault fs dir [] e ↔ layoutOf fs dir = .error e := by
  simp [FirstFault, directoryAt]

theorem firstFault_cons {rest : List Text} :
    FirstFault fs dir (segment :: rest) e ↔
      layoutOf fs dir = .error e ∨
        (∃ o, layoutOf fs dir = .ok o) ∧ FirstFault fs (dir.child segment) rest e := by
  have hnext (i : Nat) : directoryAt dir (segment :: rest) (i + 1) =
      directoryAt (dir.child segment) rest i := by simp [directoryAt, Path.child]
  constructor
  · rintro ⟨i, hi, hbefore, he⟩
    cases i with
    | zero =>
      rw [directoryAt_zero] at he
      exact .inl he
    | succ i =>
      refine .inr ⟨?_, i, by simpa using hi, fun j hj => ?_, hnext i ▸ he⟩
      · have hfirst := hbefore 0 (Nat.succ_pos i)
        rwa [directoryAt_zero] at hfirst
      · rw [← hnext j]
        exact hbefore (j + 1) (Nat.succ_lt_succ hj)
  · rintro (he | ⟨hfirst, i, hi, hbefore, he⟩)
    · refine ⟨0, Nat.zero_le _, fun j hj => absurd hj (Nat.not_lt_zero j), ?_⟩
      rwa [directoryAt_zero]
    · refine ⟨i + 1, by simpa using hi, fun j hj => ?_, (hnext i).symm ▸ he⟩
      cases j with
      | zero => rwa [directoryAt_zero]
      | succ j =>
        rw [hnext j]
        exact hbefore j (Nat.lt_of_succ_lt_succ hj)

/-- A fault in the first directory is that of the whole way. -/
theorem firstFault_of_error {e' : Fault} (h : layoutOf fs dir = .error e') (rest : List Text) :
    FirstFault fs dir rest e ↔ e' = e := by
  cases rest with
  | nil => rw [firstFault_nil, h, Except.error.injEq]
  | cons segment rest => simp [firstFault_cons, h]

/-- Below a directory in which a layout can be looked for, the way ends with its first fault. -/
theorem layoutsFrom_eq_error_iff {depth : Nat} {found : List Layout} {rest : List Text}
    (hdir : ∃ o, layoutOf fs dir = .ok o) :
    layoutsFrom fs dir depth found rest = .error e ↔ FirstFault fs dir rest e := by
  induction rest generalizing dir depth found with
  | nil =>
    obtain ⟨o, ho⟩ := hdir
    rw [firstFault_nil, ho, layoutsFrom]
    constructor
    · rintro ⟨⟩
    · rintro ⟨⟩
  | cons segment rest ih =>
    obtain ⟨o, ho⟩ := hdir
    rw [firstFault_cons, ho, layoutsFrom]
    have hne : (.ok o : Except Fault (Option Path)) ≠ .error e := by rintro ⟨⟩
    rw [or_iff_right hne, and_iff_right ⟨o, rfl⟩]
    cases hbelow : layoutOf fs (dir.child segment) with
    | error e' =>
      rw [firstFault_of_error hbelow]
      exact ⟨Except.error.inj, congrArg Except.error⟩
    | ok o' => exact ih ⟨o', hbelow⟩

/-- The layouts of a route are looked for from the app directory down. -/
theorem parentLayouts_of_ok {o : Option Path} (h : layoutOf fs appDir = .ok o) :
    parentLayouts fs appDir (directoryAt appDir segments segments.length) =
      (layoutsFrom fs appDir 0 (o.toList.map fun p => (p, 0)) segments).map
        (List.map Prod.fst) := by
  rw [parentLayouts, relativeTo_directoryAt, h]
  change layoutsAlong fs appDir segments = _
  rw [layoutsAlong, h]
  change (layoutsFrom fs appDir 0 _ segments >>= _) = _
  cases layoutsFrom fs appDir 0 (o.toList.map fun p => (p, 0)) segments with
  | error e => rfl
  | ok found => rfl

/-- Where every layout can be looked for, those that do not give way are given. -/
theorem parentLayouts_eq_wrapping
    (h : ∀ i ≤ segments.length, layoutOf fs (directoryAt appDir segments i) = .ok (layout i)) :
    parentLayouts fs appDir (directoryAt appDir segments segments.length) =
      .ok (wrapping segments layout) := by
  have htop := h 0 (Nat.zero_le _)
  rw [directoryAt_zero] at htop
  have hfrom := layoutsFrom_kept h [] segments rfl
  have hstart : kept segments layout 0 = (layout 0).toList.map fun p => (p, 0) := by
    rw [kept, keptAbove, placed]
    cases layout 0 with
    | none => rfl
    | some p => rfl
  rw [length_nil, hstart, directoryAt_zero] at hfrom
  rw [parentLayouts_of_ok htop, hfrom, ← map_kept]
  rfl

theorem parentLayouts_eq_error_iff :
    parentLayouts fs appDir (directoryAt appDir segments segments.length) = .error e ↔
      FirstFault fs appDir segments e := by
  cases htop : layoutOf fs appDir with
  | error e' =>
    rw [firstFault_of_error htop, parentLayouts, htop]
    exact ⟨Except.error.inj, congrArg Except.error⟩
  | ok o =>
    rw [parentLayouts_of_ok htop, ← layoutsFrom_eq_error_iff ⟨o, htop⟩]
    cases layoutsFrom fs appDir 0 (o.toList.map fun p => (p, 0)) segments with
    | error e' =>
      constructor
      · rintro ⟨⟩
        rfl
      · rintro ⟨⟩
        rfl
    | ok found =>
      constructor
      · rintro ⟨⟩
      · rintro ⟨⟩

end

/-- The layouts that wrap a route directory. With the layout of every directory on the way looked
for, they are, from the route directory up to the app directory, those layouts that are there and
do not give way to that of a route group directly below them. There is no answer exactly if a layout
cannot be looked for, because its path is too long for a file. -/
theorem route_layouts (fs : Files) (appDir : Path) (segments : List Text) :
    (∀ layout : Nat → Option Path,
      (∀ i ≤ segments.length, layoutOf fs (directoryAt appDir segments i) = .ok (layout i)) →
      parentLayouts fs appDir (directoryAt appDir segments segments.length) =
        .ok (wrapping segments layout)) ∧
    (∀ e, parentLayouts fs appDir (directoryAt appDir segments segments.length) = .error e ↔
      FirstFault fs appDir segments e) ∧
    (∀ dir p, layoutOf fs dir = .ok (some p) ↔
      ∃ ext, FirstLook fs dir ext ∧ p = dir.child ("layout" ++ ext) ∧ fs.isFile p = .ok true) ∧
    (∀ dir e, layoutOf fs dir = .error e ↔
      ∃ ext, FirstLook fs dir ext ∧ fs.TooLong (dir.child ("layout" ++ ext)) ∧
        e = .os .nameTooLong (Text.quoted (dir.child ("layout" ++ ext)).text)) ∧
    ∀ segment, isGroup segment = true ↔ Parenthesized segment :=
  ⟨fun _ h => parentLayouts_eq_wrapping h, fun _ => parentLayouts_eq_error_iff,
    fun _ _ => layoutOf_eq_some_iff, fun _ _ => layoutOf_eq_error_iff, fun _ => isGroup_iff⟩

namespace Sample

/-- An app directory with route groups inside one another, one of them without a layout. -/
def grouped : Files :=
  ⟨[(["app"], .directory), (["app", "layout.tsx"], .file []), (["app", "(a)"], .directory),
    (["app", "(a)", "layout.js"], .file []), (["app", "(a)", "(b)"], .directory),
    (["app", "(a)", "(b)", "c"], .directory), (["app", "(a)", "(b)", "c", "layout.tsx"], .file []),
    (["app", "(a)", "(b)", "c", "(d)"], .directory),
    (["app", "(a)", "(b)", "c", "(d)", "layout.tsx"], .file [])], []⟩

/-- The app directory. -/
def appDir : Path := ⟨.root, ["app"]⟩

/-- The way to the innermost group. -/
def way : List Text := ["(a)", "(b)", "c", "(d)"]

/-- The layouts on the way. -/
def found (i : Nat) : Option Path :=
  ([some (appDir.child "layout.tsx"), some ⟨.root, ["app", "(a)", "layout.js"]⟩, none,
    some ⟨.root, ["app", "(a)", "(b)", "c", "layout.tsx"]⟩,
    some ⟨.root, ["app", "(a)", "(b)", "c", "(d)", "layout.tsx"]⟩] : List (Option Path))[i]?.join

/-- An app directory with a link to itself and a route directory, each with a name of 214 bytes. -/
def linked : Files :=
  ⟨[(["app"], .directory), (["app", "layout.tsx"], .file []),
    (["app", ⟨List.replicate 214 (.char 'a')⟩], .link "."),
    (["app", ⟨List.replicate 214 (.char 'b')⟩], .directory)], []⟩

/-- The app directory as it is reached over its link, eighteen times. -/
def longAppDir : Path := ⟨.relative, "app" :: List.replicate 18 ⟨List.replicate 214 (.char 'a')⟩⟩

/-- The route directory in it. -/
def longRouteDir : Path := longAppDir.child ⟨List.replicate 214 (.char 'b')⟩

end Sample

open Sample in
/-- The first and the last group take the place of the layout above them, and the group without a
layout does not. -/
theorem route_layouts_nested :
    (∀ i ≤ way.length, layoutOf grouped (directoryAt appDir way i) = .ok (found i)) ∧
    parentLayouts grouped appDir ⟨.root, ["app", "(a)", "(b)", "c", "(d)"]⟩ =
      .ok [⟨.root, ["app", "(a)", "(b)", "c", "(d)", "layout.tsx"]⟩,
        ⟨.root, ["app", "(a)", "layout.js"]⟩] := by
  have hlooks : ∀ i ≤ way.length,
      (layoutOf grouped (directoryAt appDir way i)).toOption = some (found i) := by
    decide
  have hfound (i : Nat) (hi : i ≤ way.length) :
      layoutOf grouped (directoryAt appDir way i) = .ok (found i) := ok_of_toOption (hlooks i hi)
  refine ⟨hfound, ((route_layouts grouped appDir way).1 found hfound).trans ?_⟩
  exact congrArg Except.ok (by decide)

open Sample in
/-- A route directory that is there, but whose layout would have too long a path, has no answer, not
even the layout of its app directory. -/
theorem long_route_directory_refused :
    (linked.isDirectory longRouteDir).toOption = some true ∧
    (layoutOf linked longAppDir).toOption = some (some (longAppDir.child "layout.tsx")) ∧
    (parentLayouts linked longAppDir longRouteDir).mapError Fault.label = .error "OSError" := by
  decide +kernel

end Routes

end RoutePlugins
