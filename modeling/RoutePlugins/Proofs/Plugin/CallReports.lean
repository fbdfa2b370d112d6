import Mathlib.Data.List.Dedup
import RoutePlugins.Plugin.CallCollector
import RoutePlugins.Proofs.Ledger.Records
import RoutePlugins.Proofs.Tree.Places

/-!
# Reports on the arguments of calls

A collector of calls reports an argument with the place of the call and the kind of the argument,
and names the function. The project root is left out of what names the function, and of nothing
else, since no kind of node has a slash in its name. So a ledger keeps one record for each file,
call and kind, newest first. But where leaving out the root brings the halves of a pair together, no
report is known again, and a ledger keeps a record of each.
-/

namespace RoutePlugins

open List

variable {front kind : Text} {o : Offence}

namespace Text

theorem replaceFrom_append {p : CodePoint} {word new front : List CodePoint}
    (hfront : p ∉ front) (rest : List CodePoint) :
    replaceFrom (p :: word) new 0 (front ++ rest) =
      front ++ replaceFrom (p :: word) new 0 rest := by
  induction front with
  | nil => rfl
  | cons q front ih =>
    rw [mem_cons, not_or] at hfront
    rw [cons_append, replaceFrom, List.isPrefixOf, beq_false_of_ne hfront.1, Bool.false_and,
      if_neg Bool.false_ne_true, ih hfront.2, cons_append]

/-- What is settled stands before what is put together. -/
theorem Settled.joined_append (h : front.Settled) (rest : Text) :
    (front ++ rest).joined = front ++ rest.joined := by
  obtain ⟨front⟩ := front
  obtain ⟨rest⟩ := rest
  refine congrArg Text.mk ?_
  change joinHalves (front ++ rest) = front ++ joinHalves rest
  induction front with
  | nil => rfl
  | cons p front ih =>
    have hrest := ih fun q hq => h q (mem_cons_of_mem _ hq)
    have hp := h p mem_cons_self
    rw [cons_append, cons_append, ← hrest]
    cases front ++ rest with
    | nil => rfl
    | cons q ps => rw [joinHalves, hp q]

theorem append_left_cancel {s t : Text} (h : front ++ s = front ++ t) : s = t :=
  congrArg Text.mk (append_cancel_left (congrArg Text.points h))

end Text

/-- The text of a path from the root begins with a slash. -/
theorem Path.text_of_isAbsolute {p : Path} (h : p.isAbsolute = true) :
    ∃ points, p.text.points = .char '/' :: points := by
  obtain ⟨anchor, names⟩ := p
  cases anchor with
  | relative => cases h
  | root => exact ⟨_, rfl⟩
  | doubleRoot => exact ⟨_, rfl⟩

/-- The root is left out only behind the first slash. -/
theorem Ledger.scrub_append {root : Path} (hroot : root.isAbsolute = true)
    (hfront : .char '/' ∉ front.points) (rest : Text) :
    scrub root.text (front ++ rest) = front ++ scrub root.text rest := by
  obtain ⟨points, hpoints⟩ := root.text_of_isAbsolute hroot
  have hreplace (word new : Text) (hword : ∃ points, word.points = .char '/' :: points)
      (t : Text) : (front ++ t).replace word new = front ++ t.replace word new := by
    obtain ⟨points, hpoints⟩ := hword
    refine congrArg Text.mk ?_
    change Text.replaceFrom word.points new.points 0 (front.points ++ t.points) =
      front.points ++ Text.replaceFrom word.points new.points 0 t.points
    rw [hpoints, Text.replaceFrom_append hfront]
  have hslash : (root.text ++ ("/" : Text)).points = .char '/' :: (points ++ [.char '/']) := by
    change root.text.points ++ [.char '/'] = _
    rw [hpoints, cons_append]
  unfold scrub
  rw [hreplace _ _ ⟨_, hslash⟩, hreplace _ _ ⟨_, hpoints⟩]

/-- Whether a code point may stand in the name of a rule of a grammar: it is a character and no
slash. -/
def CodePoint.isRuleLetter : CodePoint → Bool
  | .char c => c != '/'
  | .half _ => false

/-- Whether a text may be the name of a rule of a grammar. -/
def Text.IsRuleName (kind : Text) : Prop := kind.points.all CodePoint.isRuleLetter = true

instance (kind : Text) : Decidable kind.IsRuleName := inferInstanceAs (Decidable (_ = true))

namespace CallCollector

deriving instance DecidableEq for Point

/-! ### What is said of an argument -/

/-- What is said of an argument of a kind, up to where the function is named. -/
def refusal (kind : Text) : Text :=
  "arg type \"" ++ kind ++ "\" is not allowed for uses of: "

theorem isRuleName_refusal (h : kind.IsRuleName) : (refusal kind).IsRuleName := by
  have hfront : (("arg type \"" : Text)).IsRuleName := by decide
  have hback : (("\" is not allowed for uses of: " : Text)).IsRuleName := by decide
  change (_ ++ _ ++ _ : List CodePoint).all CodePoint.isRuleLetter = true
  rw [all_append, all_append, hfront, h, hback]
  rfl

theorem settled_refusal (h : kind.IsRuleName) : (refusal kind).Settled := by
  intro p hp q
  have hletter := all_eq_true.mp (isRuleName_refusal h) p hp
  cases p with
  | half d => cases hletter
  | char c =>
    cases q with
    | char d => rfl
    | half d => rfl

theorem slash_notMem_refusal (h : kind.IsRuleName) : .char '/' ∉ (refusal kind).points := by
  intro hp
  exact absurd (all_eq_true.mp (isRuleName_refusal h) _ hp) (by decide)

theorem refusal_inj {kind' label : Text} (h : refusal kind ++ label = refusal kind' ++ label) :
    kind = kind' := by
  have hpoints := congrArg Text.points h
  have hcancel := append_cancel_right (append_cancel_right hpoints)
  exact congrArg Text.mk (append_cancel_left hcancel)

/-- An argument that is not allowed, as it is reported: the file, where the call begins and ends,
the text of the call, and the kind of the argument. -/
structure Offence where
  file : Text
  start : Point
  stop : Point
  source : Text
  kind : Text
  deriving DecidableEq

namespace Offence

/-- The report on an argument, for a function under a name. -/
def print (plugin label : Text) (o : Offence) : List (Text × Json) :=
  [("plugin", .str plugin), ("file", .str o.file), ("line", .int (o.start.row + 1)),
    ("column", .int o.start.column), ("source", .str o.source),
    ("message", .str (refusal o.kind ++ label)),
    ("loc", .obj [("start", o.start.toJson), ("end", o.stop.toJson)])]

/-- The record of a report, with its time. -/
def record (plugin label : Text) (o : Offence) (now : Nat) : Json :=
  .obj (Ledger.timed (o.print plugin label) now)

theorem print_injective (plugin label : Text) : Function.Injective (print plugin label) := by
  rintro ⟨file, ⟨row, column⟩, ⟨row', column'⟩, source, kind⟩
    ⟨file1, ⟨row1, column1⟩, ⟨row1', column1'⟩, source1, kind1⟩ h
  simp only [print, Point.toJson, List.cons.injEq, Prod.mk.injEq, true_and, and_true,
    Json.str.injEq, Json.int.injEq, Json.obj.injEq, Int.add_left_inj] at h
  obtain ⟨rfl, rfl, rfl, rfl, hkind, ⟨-, -⟩, rfl, rfl⟩ := h
  rw [refusal_inj hkind]

/-- An offence whose texts are kept as they are. -/
structure Plain (o : Offence) : Prop where
  file : o.file.joined = o.file
  source : o.source.joined = o.source
  kind : o.kind.IsRuleName

theorem Plain.joined_print (h : o.Plain) (plugin label : Text) :
    (Json.obj (o.print plugin label)).joined = .obj (o.print plugin.joined label.joined) := by
  have hmessage := (settled_refusal h.kind).joined_append label
  change Json.obj [("plugin", .str plugin.joined), ("file", .str o.file.joined),
    ("line", .int (o.start.row + 1)), ("column", .int o.start.column),
    ("source", .str o.source.joined), ("message", .str (refusal o.kind ++ label).joined),
    ("loc", .obj [("start", o.start.toJson), ("end", o.stop.toJson)])] = _
  rw [h.file, h.source, hmessage]
  rfl

/-- If the name of the function is not kept as it is, no kept report is taken for another one. -/
theorem Plain.joined_print_ne {o' : Offence} (h : o.Plain) (h' : o'.Plain) {plugin label : Text}
    (hlabel : label.joined ≠ label) :
    (Json.obj (o.print plugin label)).joined ≠ .obj (o'.print plugin label) := by
  rw [h.joined_print]
  intro heq
  simp only [print, Json.obj.injEq, List.cons.injEq, Prod.mk.injEq, true_and, and_true,
    Json.str.injEq] at heq
  obtain ⟨-, -, -, -, -, hmessage, -⟩ := heq
  rw [← (settled_refusal h.kind).joined_append] at hmessage
  have htwice := congrArg Text.joined hmessage
  rw [Text.joined_joined, hmessage, (settled_refusal h'.kind).joined_append] at htwice
  exact hlabel (Text.append_left_cancel htwice.symm)

/-- The offences of which a ledger keeps a record, newest first: each one once, if the function has
a name that is kept as it is, and all of them otherwise. -/
def listed (label : Text) (offences : List Offence) : List Offence :=
  if label.joined = label then offences.reverse.dedup else offences.reverse

theorem mem_listed {label : Text} {offences : List Offence} :
    o ∈ listed label offences ↔ o ∈ offences := by
  unfold listed
  split
  · rw [mem_dedup, mem_reverse]
  · exact mem_reverse

theorem listed_concat (label : Text) (earlier : List Offence) (o : Offence) :
    listed label (earlier ++ [o]) = if label.joined = label ∧ o ∈ earlier then
      listed label earlier else o :: listed label earlier := by
  unfold listed
  rw [reverse_append, reverse_singleton, singleton_append]
  by_cases hlabel : label.joined = label
  · rw [if_pos hlabel, if_pos hlabel]
    by_cases hm : o ∈ earlier
    · rw [if_pos ⟨hlabel, hm⟩, dedup_cons_of_mem (mem_reverse.mpr hm)]
    · rw [if_neg fun h => hm h.2,
        dedup_cons_of_notMem fun hr => hm (mem_reverse.mp hr)]
  · rw [if_neg hlabel, if_neg hlabel, if_neg fun h => hlabel h.1]

end Offence

/-! ### What a ledger keeps -/

section

open Ledger

variable {plugin label : Text} (hplugin : plugin.joined = plugin) {done : List Filing} {s : Store}
  (h : Ledger.Follows done s) (hkind : ∀ f ∈ done, f.kind = .error)

include hplugin h hkind

/-- A report is new unless the function has a name that is kept as it is, and the report was made
before. -/
theorem isNew_iff {before : List Filing} {f : Filing} (hpre : before ++ [f] <+: done)
    {earlier : List Offence} (hplain : ∀ o' ∈ earlier ++ [o], o'.Plain)
    (hearlier : before.map Filing.print = earlier.map (Offence.print plugin label))
    (hprint : f.print = o.print plugin label) :
    f.isNew = true ↔ ¬ (label.joined = label ∧ o ∈ earlier) := by
  have ho : o.Plain := hplain o (by simp)
  rw [h.first before f hpre, hprint]
  constructor
  · rintro hno ⟨hlabel, hm⟩
    obtain ⟨g, hg, hsame⟩ : ∃ g ∈ before, g.print = o.print plugin label :=
      mem_map.mp (hearlier ▸ mem_map_of_mem hm)
    have hgkind := hkind g (hpre.subset (by simp [hg]))
    refine hno g hg (hgkind.trans (hkind f (hpre.subset (by simp))).symm) ?_
    rw [hsame, ho.joined_print, hplugin, hlabel]
  · intro hnot g hg _ hsame
    obtain ⟨o', ho', hprint'⟩ : ∃ o' ∈ earlier, o'.print plugin label = g.print :=
      mem_map.mp (hearlier ▸ mem_map_of_mem hg)
    have hplain' := hplain o' (mem_append_left _ ho')
    rw [← hprint'] at hsame
    by_cases hlabel : label.joined = label
    · rw [hplain'.joined_print, hplugin, hlabel, Json.obj.injEq] at hsame
      exact hnot ⟨hlabel, Offence.print_injective plugin label hsame ▸ ho'⟩
    · exact hplain'.joined_print_ne ho hlabel hsame

/-- The records of a ledger that was given reports on arguments alone. -/
theorem kept_reports {offences : List Offence} (hplain : ∀ o ∈ offences, o.Plain)
    (hprints : done.map Filing.print = offences.map (Offence.print plugin label)) :
    List.Forall₂ (fun o record => ∃ now, record = Offence.record plugin label.joined o now)
      (Offence.listed label offences) (kept .error done) := by
  suffices hfront : ∀ front : List Filing, front <+: done → ∀ os : List Offence,
      (∀ o ∈ os, o.Plain) → front.map Filing.print = os.map (Offence.print plugin label) →
      List.Forall₂ (fun o record => ∃ now, record = Offence.record plugin label.joined o now)
        (Offence.listed label os) (kept .error front) from
    hfront done (prefix_refl _) offences hplain hprints
  intro front hpre
  induction front using List.reverseRecOn with
  | nil =>
    intro os _ hos
    obtain rfl : os = [] := map_eq_nil_iff.mp hos.symm
    have hnone : Offence.listed label [] = [] :=
      eq_nil_iff_forall_not_mem.mpr fun o ho => not_mem_nil (Offence.mem_listed.mp ho)
    rw [hnone]
    exact .nil
  | append_singleton before f ih =>
    intro os hos hmap
    rw [map_append, eq_comm, map_eq_append_iff] at hmap
    obtain ⟨earlier, last, rfl, hearlier, hlast⟩ := hmap
    obtain ⟨o, rfl, hprint⟩ := map_eq_singleton_iff.mp hlast
    have hbefore := ih ((prefix_append _ _).trans hpre) earlier
      (fun o ho => hos o (mem_append_left _ ho)) hearlier.symm
    have hrecord : f.record = Offence.record plugin label.joined o f.time := by
      have hjoined := Json.obj.inj ((hos o (by simp)).joined_print plugin label)
      rw [Filing.record, ← hprint, Ledger.joined_timed, hjoined, hplugin]
      rfl
    have hnew := isNew_iff hplugin h hkind hpre hos hearlier.symm hprint.symm
    have hkept : f.isKept .error = f.isNew := by
      simp [Filing.isKept, hkind f (hpre.subset (by simp))]
    rw [kept_append, hkept, Offence.listed_concat]
    by_cases hold : label.joined = label ∧ o ∈ earlier
    · rw [if_pos hold, if_neg fun hf => hnew.mp hf hold]
      exact hbefore
    · rw [if_neg hold, if_pos (hnew.mpr hold)]
      exact .cons ⟨_, hrecord⟩ hbefore

end

end CallCollector

end RoutePlugins
