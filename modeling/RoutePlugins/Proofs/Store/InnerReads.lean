import Mathlib.Data.List.TakeWhile
import RoutePlugins.Proofs.Store.Reads

/-!
# Reads inside a registered path

Segments lead into a value by the keys of objects and by the places of lists, which are written with
decimal digits. A read inside a registered path gives what they lead to, and nothing where a step
leads nowhere. There is one exception. A list is asked for a place by any segment that is made of
digits, and a digit may be one in shape only, or there may be too many of them; such a segment
writes no number, and the read fails there.
-/

namespace RoutePlugins

namespace Text

/-- The place that a segment writes with decimal digits. -/
def place? (s : Text) : Option Nat := if s.isEmpty then none else decimalNumber? s.points

/-- A segment that is made of digits and yet read as no number: one of them has no value, or there
are too many. -/
def Misread (s : Text) : Prop :=
  s.isEmpty = false ∧ s.points.all isDigit = true ∧
    (decimalNumber? s.points = none ∨ Json.maxDigits < s.length)

instance (s : Text) : Decidable s.Misread := inferInstanceAs (Decidable (_ ∧ _))

/-- Digits that write a number have values. -/
theorem all_isSome_of_decimalNumber? {ps : List CodePoint} {n : Nat}
    (h : decimalNumber? ps = some n) : ps.all fun p => (decimalValue? p).isSome := by
  unfold decimalNumber? at h
  generalize 0 = start at h
  induction ps generalizing start with
  | nil => rfl
  | cons p ps ih =>
    obtain ⟨next, hnext, hrest⟩ := Option.bind_eq_some_iff.mp h
    obtain ⟨value, hvalue, -⟩ := Option.map_eq_some_iff.mp hnext
    rw [List.all_cons, hvalue, ih next hrest]
    rfl

/-- What writes a number is made of digits. -/
theorem all_isDigit_of_decimalNumber? {ps : List CodePoint} {n : Nat}
    (h : decimalNumber? ps = some n) : ps.all isDigit := by
  have hvalues := List.all_eq_true.mp (all_isSome_of_decimalNumber? h)
  refine List.all_eq_true.mpr fun p hp => ?_
  rw [isDigit, hvalues p hp, Bool.true_or]

/-- A segment writes the number that its digits write, unless there are too many. -/
theorem segmentNumber_of_decimalNumber? {s : Text} {n : Nat}
    (h : decimalNumber? s.points = some n) :
    segmentNumber s =
      if Json.maxDigits < s.length then .error (.range (.digits s.length)) else .ok n := by
  have hall : (s.points.takeWhile fun p => (decimalValue? p).isSome) = s.points :=
    List.takeWhile_eq_self_iff.mpr (List.all_eq_true.mp (all_isSome_of_decimalNumber? h))
  unfold segmentNumber
  rw [hall, h]
  rfl

/-- Digits in shape only write no number. -/
theorem segmentNumber_of_decimalNumber?_eq_none {s : Text} (h : decimalNumber? s.points = none) :
    ∃ e, segmentNumber s = .error e := by
  unfold segmentNumber
  rw [h]
  dsimp only
  split
  · exact ⟨_, rfl⟩
  · exact ⟨_, rfl⟩

end Text

namespace Json

/-- One step into a value: by a key of an object, or by a place of a list. -/
def step? : Json → Text → Option Json
  | .obj fields, key => Assoc.get? key fields
  | .arr items, s => s.place?.bind (items[·]?)
  | _, _ => none

/-- What segments lead to. -/
def follow? (v : Json) (segments : List Text) : Option Json := segments.foldlM step? v

/-- Segments that lead to a list and there to a segment that is misread. -/
def Stumbles (v : Json) (segments : List Text) : Prop :=
  ∃ front s back items, segments = front ++ s :: back ∧ v.follow? front = some (.arr items) ∧
    s.Misread

variable {v w : Json} {s : Text} {rest : List Text}

theorem follow?_cons (v : Json) (s : Text) (rest : List Text) :
    v.follow? (s :: rest) = (v.step? s).bind (·.follow? rest) := rfl

/-- Segments that are read as they should be do not stumble. -/
theorem not_stumbles_of_forall (h : ∀ s ∈ rest, ¬ s.Misread) : ¬ v.Stumbles rest := by
  rintro ⟨front, s, back, items, rfl, -, hs⟩
  exact h s (by simp) hs

/-- Segments stumble at the first of them, or after a step. -/
theorem stumbles_cons_iff :
    v.Stumbles (s :: rest) ↔
      ((∃ items, v = .arr items) ∧ s.Misread) ∨ ∃ w, v.step? s = some w ∧ w.Stumbles rest := by
  constructor
  · rintro ⟨front, t, back, items, hsegments, hlist, ht⟩
    cases front with
    | nil =>
      cases hsegments
      exact .inl ⟨⟨items, Option.some.inj hlist⟩, ht⟩
    | cons first front =>
      cases hsegments
      obtain ⟨w, hw, hfollow⟩ := Option.bind_eq_some_iff.mp hlist
      exact .inr ⟨w, hw, front, t, back, items, rfl, hfollow, ht⟩
  · rintro (⟨⟨items, rfl⟩, hs⟩ | ⟨w, hw, front, t, back, items, rfl, hlist, ht⟩)
    · exact ⟨[], s, rest, items, rfl, rfl, hs⟩
    · refine ⟨s :: front, t, back, items, rfl, ?_, ht⟩
      rw [follow?_cons, hw]
      exact hlist

theorem descend_null (segments : List Text) : null.descend segments = .ok .null := by
  cases segments with
  | nil => rw [descend]
  | cons s rest => rw [descend] <;> simp

/-- A segment that does not stumble is followed as a step, into nothing if there is none. -/
theorem descend_cons (h : ¬ ((∃ items, v = .arr items) ∧ s.Misread)) :
    v.descend (s :: rest) = ((v.step? s).getD .null).descend rest := by
  cases v with
  | obj fields => rfl
  | arr items =>
    have hs : ¬ s.Misread := fun hs => h ⟨⟨items, rfl⟩, hs⟩
    rw [descend, step?, Text.place?]
    cases hempty : s.isEmpty with
    | true => simp [descend_null]
    | false =>
      cases hn : Text.decimalNumber? s.points with
      | none =>
        have hdigits : s.points.all Text.isDigit = false :=
          Bool.eq_false_iff.mpr fun hd => hs ⟨hempty, hd, .inl hn⟩
        simp [hdigits, descend_null]
      | some n =>
        have hdigits := Text.all_isDigit_of_decimalNumber? hn
        have hfew : ¬ maxDigits < s.length := fun hl => hs ⟨hempty, hdigits, .inr hl⟩
        rw [hdigits, Text.segmentNumber_of_decimalNumber? hn, if_neg hfew]
        cases hplace : items[n]? with
        | none => simp [hplace, descend_null]
        | some w => simp [hplace]
  | _ => simp [step?, descend, descend_null]

/-- At a list, a segment that is misread is an error. -/
theorem descend_misread (hs : s.Misread) (items : List Json) (rest : List Text) :
    ∃ e, (arr items).descend (s :: rest) = .error e := by
  obtain ⟨hempty, hdigits, hnumber⟩ := hs
  have herror : ∃ e, segmentNumber s = .error e := by
    cases hn : Text.decimalNumber? s.points with
    | none => exact Text.segmentNumber_of_decimalNumber?_eq_none hn
    | some n =>
      have hmany : maxDigits < s.length := hnumber.resolve_left (by rw [hn]; simp)
      exact ⟨_, (Text.segmentNumber_of_decimalNumber? hn).trans (if_pos hmany)⟩
  obtain ⟨e, he⟩ := herror
  refine ⟨e, ?_⟩
  rw [descend, hempty, hdigits, he]
  rfl

/-- A descent that does not stumble gives what the segments lead to, or nothing. -/
theorem descend_of_not_stumbles (h : ¬ v.Stumbles rest) :
    v.descend rest = .ok ((v.follow? rest).getD .null) := by
  induction rest generalizing v with
  | nil =>
    rw [descend]
    rfl
  | cons s rest ih =>
    rw [stumbles_cons_iff, not_or] at h
    rw [descend_cons h.1, follow?_cons]
    cases hstep : v.step? s with
    | none => exact descend_null rest
    | some w => exact ih fun hw => h.2 ⟨w, hstep, hw⟩

/-- A descent that stumbles fails. -/
theorem descend_of_stumbles (h : v.Stumbles rest) : ∃ e, v.descend rest = .error e := by
  induction rest generalizing v with
  | nil => exact absurd h (not_stumbles_of_forall (List.forall_mem_nil _))
  | cons s rest ih =>
    by_cases hfirst : (∃ items, v = .arr items) ∧ s.Misread
    · obtain ⟨⟨items, rfl⟩, hs⟩ := hfirst
      exact descend_misread hs items rest
    · obtain ⟨w, hw, hrest⟩ := (stumbles_cons_iff.mp h).resolve_left hfirst
      obtain ⟨e, he⟩ := ih hrest
      exact ⟨e, by rw [descend_cons hfirst, hw, Option.getD_some, he]⟩

end Json

namespace Store

open AccessPath

/-- In every open store that was reached, and from every registered path with its value, segments
are read as what they lead to in the value, and as nothing where a step leads nowhere, unless they
lead to a list and there to a segment that is misread. Then the read fails with the fault of a
number. -/
theorem reads_inside_registered {s : Store} (hs : s.Reachable) (hopen : s.state = "open")
    {p : AccessPath} {v : Json} (hp : (p, v) ∈ s.values) {rest : List Text}
    (hrest : ∀ segment ∈ rest, segment.isEmpty = false) :
    (¬ v.Stumbles rest →
      s.get (toValue (p ++ rest)) = .ok (.ofJson ((v.follow? rest).getD .null))) ∧
    (v.Stumbles rest → ∃ e, s.get (toValue (p ++ rest)) = .error e ∧ e.label = "ValueError") := by
  obtain ⟨name, a, rfl⟩ := exists_active hopen
  have hw : a.WellFormed := hs.wellFormed
  have hproper := hw.proper p (Arena.mem_paths_of_mem_slots hp)
  have hall : Proper (p ++ rest) :=
    ⟨by simp [hproper.1], List.forall_mem_append.mpr ⟨hproper.2, hrest⟩⟩
  rw [get_active hall, Arena.read_slot hw hp, Value.descend_ofJson]
  refine ⟨fun h => ?_, fun h => ?_⟩
  · rw [Json.descend_of_not_stumbles h]
    rfl
  · obtain ⟨e, he⟩ := Json.descend_of_stumbles h
    have hvalue : (Value.ofJson v).descend rest = .error e := by
      rw [Value.descend_ofJson, he]
      rfl
    exact ⟨e, by rw [he]; rfl, Value.descend_error hvalue⟩

namespace Sample

/-- A list with an object that holds a list. -/
def inner : Json := .arr [.obj [("k", .arr [.int 5, .int 7])]]

/-- A store in which that list is registered. -/
def nested : Store :=
  (StoreStep.runAll [.call StoreStep.Sample.nowhere (.start (.str "s") .null),
    .call StoreStep.Sample.nowhere (.register (toValue ["a"]) (.ofJson inner))] ⟨.fresh, []⟩).store

theorem reachable_nested : nested.Reachable := ⟨_, _, rfl⟩

theorem mem_values_nested : ((["a"] : AccessPath), inner) ∈ nested.values := List.mem_cons_self

end Sample

open Sample

/-- A digit of any number system leads to a place of the inner list, and a superscript stumbles at
the outer one. -/
theorem reads_inside_registered_nested :
    nested.get (toValue ["a", "0", "k", "١"]) = .ok (.int 7) ∧
      ∃ e, nested.get (toValue ["a", "²"]) = .error e ∧ e.label = "ValueError" := by
  have hread := @reads_inside_registered nested reachable_nested rfl ["a"] inner mem_values_nested
  constructor
  · exact (@hread ["0", "k", "١"] (by decide)).1 (Json.not_stumbles_of_forall (by decide))
  · exact (@hread ["²"] (by decide)).2 ⟨[], "²", [], _, rfl, rfl, by decide⟩

/-- A read inside a registered path may fail: at a list, with a superscript. -/
theorem superscript_read_fails :
    ¬ ∀ s : Store, s.Reachable → s.state = "open" → ∀ p v, (p, v) ∈ s.values →
      ∀ rest : List Text, (∀ segment ∈ rest, segment.isEmpty = false) →
        ∃ w, s.get (toValue (p ++ rest)) = .ok w := by
  intro h
  obtain ⟨w, hw⟩ := h nested reachable_nested rfl ["a"] inner mem_values_nested ["²"] (by decide)
  have hfails : (nested.get (toValue ["a", "²"])).toBool = false := by decide
  exact absurd (hfails.symm.trans (congrArg Except.toBool hw)) Bool.false_ne_true

end Store

end RoutePlugins
