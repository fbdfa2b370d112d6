import RoutePlugins.Proofs.Json.Tokens
import RoutePlugins.Proofs.Store.KeptValues

/-!
# Documents read back

A document that was written for a value is read as that value, with the halves in its texts put
together, provided that the value does not lie too deep, that its whole numbers do not have too many
digits, and that its doubles are read back from their texts.
-/

namespace RoutePlugins

open List

/-- An ASCII character that is no carriage return. -/
def IsPlainChar (c : Char) : Prop := c.toNat < 0x80 ∧ c ≠ '\r'

instance (c : Char) : Decidable (IsPlainChar c) := inferInstanceAs (Decidable (_ ∧ _))

namespace Json

/-! ### Gaps -/

/-- Code points that do not begin with a gap. -/
def NoGap (ps : List CodePoint) : Prop := ∀ p, ps.head? = some p → Cursor.isGap p = false

/-- Gaps alone. -/
abbrev AllGaps (ps : List CodePoint) : Prop := ∀ p ∈ ps, Cursor.isGap p = true

theorem noGap_cons {p : CodePoint} (h : Cursor.isGap p = false) (rest : List CodePoint) :
    NoGap (p :: rest) := by
  intro q hq
  cases hq
  exact h

theorem Cursor.skipGaps_append {offset : Nat} {gaps rest : List CodePoint} (hg : AllGaps gaps)
    (hr : NoGap rest) :
    skipGaps ⟨offset, gaps ++ rest⟩ = ⟨offset + gaps.length, rest⟩ := by
  have hnone : rest.takeWhile isGap = [] := by
    cases rest with
    | nil => rfl
    | cons p rest => rw [takeWhile_cons, hr p rfl, if_neg (by simp)]
  rw [skipGaps, takeWhile_append_of_pos hg, hnone, append_nil, skip, drop_left]

theorem Cursor.skipGaps_none {offset : Nat} {rest : List CodePoint} (hr : NoGap rest) :
    skipGaps ⟨offset, rest⟩ = ⟨offset, rest⟩ :=
  skipGaps_append (forall_mem_nil _) hr

/-- A layout that has only gaps between the marks of a document. -/
structure Layout.Plain (layout : Layout) : Prop where
  gap : ∀ depth, ∀ c ∈ layout.gap depth, Cursor.isGap (.char c) = true
  comma : ∃ gaps, layout.comma = ',' :: gaps ∧ ∀ c ∈ gaps, Cursor.isGap (.char c) = true

theorem Layout.plain_lines : Layout.lines.Plain := by
  refine ⟨fun depth c hc => ?_, [], rfl, by simp⟩
  obtain rfl | ⟨-, rfl⟩ : c = '\n' ∨ depth ≠ 0 ∧ c = ' ' := by simpa [lines] using hc
  · rfl
  · rfl

/-! ### Legible values -/

/-- The text of a double is read as that double wherever a value may stand. -/
structure ReadsBack (d : Double) : Prop where
  opens : Opens (d.text specialNumbers)
  plain : ∀ c ∈ d.text specialNumbers, IsPlainChar c
  reads : ∀ {depth fuel offset : Nat} {tail : List CodePoint}, Ends tail → ∃ offset',
    readValue depth (fuel + 1) ⟨offset, (d.text specialNumbers).map .char ++ tail⟩ =
      .ok (.float d, ⟨offset', tail⟩)

/-- A value whose document can be read. -/
abbrev Legible (depth : Nat) (v : Json) : Prop := Within FewDigits ReadsBack depth v

/-- Items whose documents can be read. -/
abbrev LegibleItems (depth : Nat) (items : List Json) : Prop :=
  WithinItems FewDigits ReadsBack depth items

/-- Fields whose documents can be read. -/
abbrev LegibleFields (depth : Nat) (fields : List (Text × Json)) : Prop :=
  WithinFields FewDigits ReadsBack depth fields

variable {depth fuel offset : Nat} {v : Json} {rest : List CodePoint} {cs : List Char}

theorem opens_writeAt (layout : Layout) (k : Nat) (h : Legible depth v) :
    Opens (writeAt layout k v) := by
  cases v with
  | null => exact ⟨'n', _, rfl, by decide⟩
  | bool b =>
    cases b with
    | true => exact ⟨'t', _, rfl, by decide⟩
    | false => exact ⟨'f', _, rfl, by decide⟩
  | int n =>
    rw [writeAt]
    exact (isNumber_writeInt n).opens.1
  | float d =>
    rw [writeAt]
    exact h.opens
  | str s => exact ⟨'"', _, rfl, by decide⟩
  | arr items =>
    cases items with
    | nil => exact ⟨'[', _, rfl, by decide⟩
    | cons v rest => exact ⟨'[', _, by rw [writeAt]; rfl, by decide⟩
  | obj fields =>
    cases fields with
    | nil => exact ⟨'{', _, rfl, by decide⟩
    | cons e rest => exact ⟨'{', _, by rw [writeAt]; rfl, by decide⟩

/-! ### Marks of a document -/

theorem Opens.noGap (h : Opens cs) (rest : List CodePoint) : NoGap (cs.map .char ++ rest) := by
  obtain ⟨c, cs, rfl, -, hgap, -⟩ := h
  exact noGap_cons hgap _

theorem points_writeString (t : Text) (tail : List CodePoint) :
    (writeString t).map CodePoint.char ++ tail =
      .char '"' :: ((t.points.flatMap writePoint).map .char ++ .char '"' :: tail) := by
  simp [writeString]

theorem readValue_string (depth fuel offset : Nat) (t : Text) (tail : List CodePoint) :
    ∃ offset', readValue depth (fuel + 1) ⟨offset, (writeString t).map .char ++ tail⟩ =
      .ok (.str t.joined, ⟨offset', tail⟩) := by
  obtain ⟨last, hread⟩ := readString_points offset (offset + 1) [] t.points tail
  refine ⟨last, ?_⟩
  rw [points_writeString, readValue]
  simp only [hread]
  rfl

/-- A name is read up to the value after it. -/
theorem readName_writeString (offset : Nat) (name : Text) (ho : Opens cs) (rest : List CodePoint) :
    ∃ offset', readName ⟨offset, (writeString name).map .char ++
        (.char ':' :: .char ' ' :: (cs.map .char ++ rest))⟩ =
      .ok (name.joined, ⟨offset', cs.map .char ++ rest⟩) := by
  obtain ⟨last, hread⟩ := readString_points offset (offset + 1) [] name.points
    (.char ':' :: .char ' ' :: (cs.map .char ++ rest))
  have hvalue : Cursor.skipGaps ⟨last + 1, .char ' ' :: (cs.map .char ++ rest)⟩ =
      ⟨last + 1 + 1, cs.map .char ++ rest⟩ :=
    Cursor.skipGaps_append (forall_mem_singleton.mpr rfl) (ho.noGap rest)
  refine ⟨last + 1 + 1, ?_⟩
  rw [points_writeString, readName]
  simp only [hread, bind, Except.bind, Cursor.skipGaps_none (noGap_cons (p := .char ':') rfl _),
    Cursor.skip, drop_succ_cons, drop_zero, hvalue]
  rfl

/-- Anything else is a word or a number. -/
theorem readValue_scalar {depth fuel offset : Nat} {c : Char} {rest : List CodePoint}
    (hc : c ≠ '"' ∧ c ≠ '{' ∧ c ≠ '[') :
    readValue depth (fuel + 1) ⟨offset, .char c :: rest⟩ =
      readScalar ⟨offset, .char c :: rest⟩ := by
  obtain ⟨hquote, hbrace, hbracket⟩ := hc
  rw [readValue]
  split
  · next heq => simp [hquote] at heq
  · next heq => simp [hbrace] at heq
  · next heq => simp [hbracket] at heq
  · rfl

/-- A number is read as one. -/
theorem IsNumber.readValue (h : IsNumber cs) (tail : List CodePoint) :
    readValue depth (fuel + 1) ⟨offset, cs.map .char ++ tail⟩ =
      readNumber ⟨offset, cs.map .char ++ tail⟩ := by
  rw [← h.readScalar]
  obtain ⟨⟨c, rest, rfl, -⟩, hc⟩ := h.opens
  exact readValue_scalar (hc c rfl)

theorem readValue_list {gaps : List CodePoint} (hg : AllGaps gaps) (ho : Opens cs) :
    readValue (depth + 1) (fuel + 1) ⟨offset, .char '[' :: (gaps ++ (cs.map .char ++ rest))⟩ =
      readItems depth fuel [] ⟨offset + 1 + gaps.length, cs.map .char ++ rest⟩ := by
  have hskip : Cursor.skipGaps (Cursor.skip ⟨offset, .char '[' :: (gaps ++ (cs.map .char ++ rest))⟩
      1) = ⟨offset + 1 + gaps.length, cs.map .char ++ rest⟩ :=
    Cursor.skipGaps_append hg (ho.noGap rest)
  obtain ⟨c, cs, rfl, -, -, hclose, -⟩ := ho
  rw [readValue]
  simp only [hskip]
  split
  · next h => cases h
  · next h => simp [hclose] at h
  · next hdepth _ =>
    cases hdepth
    rfl

theorem readValue_object {gaps : List CodePoint} (hg : AllGaps gaps) (name : Text) :
    readValue (depth + 1) (fuel + 1) ⟨offset, .char '{' ::
        (gaps ++ ((writeString name).map .char ++ rest))⟩ =
      readFields depth fuel []
        ⟨offset + 1 + gaps.length, (writeString name).map .char ++ rest⟩ := by
  rw [points_writeString]
  have hskip : Cursor.skipGaps (Cursor.skip ⟨offset, .char '{' :: (gaps ++ .char '"' ::
      ((name.points.flatMap writePoint).map .char ++ .char '"' :: rest))⟩ 1) =
        ⟨offset + 1 + gaps.length, .char '"' ::
          ((name.points.flatMap writePoint).map .char ++ .char '"' :: rest)⟩ :=
    Cursor.skipGaps_append hg (noGap_cons rfl _)
  rw [readValue]
  simp only [hskip]
  rfl

/-- The last item is read, and the list is closed. -/
theorem readItems_last {acc : List Json} {c : Cursor} {gaps tail : List CodePoint}
    (hg : AllGaps gaps)
    (h : readValue depth fuel c = .ok (v, ⟨offset, gaps ++ .char ']' :: tail⟩)) :
    readItems depth (fuel + 1) acc c =
      .ok (.arr (v :: acc).reverse, ⟨offset + gaps.length + 1, tail⟩) := by
  rw [readItems]
  simp only [h, bind, Except.bind, Cursor.skipGaps_append hg (noGap_cons (p := .char ']') rfl _)]
  rfl

/-- An item is read, and the list goes on. -/
theorem readItems_next {acc : List Json} {c : Cursor} {gaps : List CodePoint} (hg : AllGaps gaps)
    (hr : NoGap rest)
    (h : readValue depth fuel c = .ok (v, ⟨offset, .char ',' :: (gaps ++ rest)⟩)) :
    readItems depth (fuel + 1) acc c =
      readItems depth fuel (v :: acc) ⟨offset + 1 + gaps.length, rest⟩ := by
  rw [readItems]
  simp only [h, bind, Except.bind, Cursor.skipGaps_none (noGap_cons (p := .char ',') rfl _),
    Cursor.skip, drop_succ_cons, drop_zero, Cursor.skipGaps_append hg hr]

/-- The last field is read, and the object is closed. -/
theorem readFields_last {acc : List (Text × Json)} {c start : Cursor} {name : Text}
    {gaps tail : List CodePoint} (hg : AllGaps gaps) (hname : readName c = .ok (name, start))
    (h : readValue depth fuel start = .ok (v, ⟨offset, gaps ++ .char '}' :: tail⟩)) :
    readFields depth (fuel + 1) acc c =
      .ok (.obj (Assoc.insert name v acc), ⟨offset + gaps.length + 1, tail⟩) := by
  rw [readFields]
  simp only [hname, h, bind, Except.bind,
    Cursor.skipGaps_append hg (noGap_cons (p := .char '}') rfl _)]
  rfl

/-- A field is read, and the object goes on. -/
theorem readFields_next {acc : List (Text × Json)} {c start : Cursor} {name : Text}
    {gaps : List CodePoint} (hg : AllGaps gaps) (hr : NoGap rest)
    (hname : readName c = .ok (name, start))
    (h : readValue depth fuel start = .ok (v, ⟨offset, .char ',' :: (gaps ++ rest)⟩)) :
    readFields depth (fuel + 1) acc c =
      readFields depth fuel (Assoc.insert name v acc) ⟨offset + 1 + gaps.length, rest⟩ := by
  rw [readFields]
  simp only [hname, h, bind, Except.bind, Cursor.skipGaps_none (noGap_cons (p := .char ',') rfl _),
    Cursor.skip, drop_succ_cons, drop_zero, Cursor.skipGaps_append hg hr]

/-! ### Values -/

theorem Layout.Plain.gaps {layout : Layout} (h : layout.Plain) (depth : Nat) :
    AllGaps ((layout.gap depth).map .char) := by
  intro p hp
  obtain ⟨c, hc, rfl⟩ := mem_map.mp hp
  exact h.gap depth c hc

/-- A comma and the gaps after it. -/
theorem Layout.Plain.separator {layout : Layout} (h : layout.Plain) (depth : Nat) :
    ∃ gaps, (layout.comma ++ layout.gap depth).map CodePoint.char = .char ',' :: gaps ∧
      AllGaps gaps := by
  obtain ⟨cs, hcomma, hcs⟩ := h.comma
  refine ⟨(cs ++ layout.gap depth).map .char, by rw [hcomma]; rfl, fun p hp => ?_⟩
  obtain ⟨c, hc, rfl⟩ := mem_map.mp hp
  exact (mem_append.mp hc).elim (hcs c) (h.gap depth c)

theorem ends_cons {p : CodePoint} (hp : p = .char ',' ∨ p = .char ']' ∨ p = .char '}')
    (rest : List CodePoint) : Ends (p :: rest) := by
  intro q hq
  cases hq
  exact .inr hp

theorem ends_gaps {gaps : List CodePoint} (hg : AllGaps gaps) {p : CodePoint}
    (hp : p = .char ',' ∨ p = .char ']' ∨ p = .char '}') (rest : List CodePoint) :
    Ends (gaps ++ p :: rest) := by
  cases gaps with
  | nil => exact ends_cons hp rest
  | cons g gaps =>
    intro q hq
    cases hq
    exact .inl (hg g (by simp))

theorem Opens.length_pos (h : Opens cs) : 0 < cs.length := by
  obtain ⟨c, rest, rfl, -⟩ := h
  simp

variable {layout : Layout} (hl : layout.Plain)

include hl

mutual

/-- A value is read as it was written, with the halves in its texts put together. -/
theorem readValue_writeAt : (v : Json) → ∀ {depth fuel : Nat} (offset k : Nat)
    {tail : List CodePoint}, Legible depth v → (writeAt layout k v).length ≤ fuel + 1 → Ends tail →
    ∃ offset', readValue depth (fuel + 1) ⟨offset, (writeAt layout k v).map .char ++ tail⟩ =
      .ok (v.joined, ⟨offset', tail⟩)
  | .null, _, _, offset, _, _, _, _, _ => ⟨offset + 4, rfl⟩
  | .bool true, _, _, offset, _, _, _, _, _ => ⟨offset + 4, rfl⟩
  | .bool false, _, _, offset, _, _, _, _, _ => ⟨offset + 5, rfl⟩
  | .int n, depth, fuel, offset, k, tail, h, _, ht => by
    obtain ⟨last, hread⟩ := readNumber_writeInt offset h ht
    refine ⟨last, ?_⟩
    rw [writeAt, (isNumber_writeInt n).readValue]
    exact hread
  | .float d, depth, fuel, offset, k, tail, h, _, ht => by
    rw [writeAt]
    exact h.reads ht
  | .str s, depth, fuel, offset, k, tail, _, _, _ => by
    rw [writeAt]
    exact readValue_string depth fuel offset s tail
  | .arr [], depth, fuel, offset, k, tail, h, _, _ => by
    obtain ⟨depth, rfl⟩ := Nat.exists_eq_add_one.mpr h.1
    exact ⟨offset + 2, rfl⟩
  | .arr (v :: rest), depth, fuel, offset, k, tail, h, hf, _ => by
    obtain ⟨depth, rfl⟩ := Nat.exists_eq_add_one.mpr h.1
    obtain ⟨-, hv, hrest⟩ := h
    rw [writeAt] at hf ⊢
    simp only [length_append, length_cons, length_nil] at hf
    simp only [map_append, map_cons, map_nil, cons_append, nil_append,
      append_assoc]
    rw [readValue_list (hl.gaps (k + 1)) (opens_writeAt layout (k + 1) hv)]
    exact readItems_writeItems v rest _ (k + 1) [] tail hv hrest (hl.gaps k) (by omega)
  | .obj [], depth, fuel, offset, k, tail, h, _, _ => by
    obtain ⟨depth, rfl⟩ := Nat.exists_eq_add_one.mpr h.1
    exact ⟨offset + 2, rfl⟩
  | .obj ((name, v) :: rest), depth, fuel, offset, k, tail, h, hf, _ => by
    obtain ⟨depth, rfl⟩ := Nat.exists_eq_add_one.mpr h.1
    obtain ⟨-, hv, hrest⟩ := h
    rw [writeAt] at hf ⊢
    simp only [length_append, length_cons, length_nil] at hf
    simp only [map_append, map_cons, map_nil, cons_append, nil_append,
      append_assoc]
    rw [readValue_object (hl.gaps (k + 1)) name]
    exact readFields_writeFields name v rest _ (k + 1) [] tail hv hrest (hl.gaps k) (by omega)
  termination_by v => sizeOf v

/-- Items are read as they were written. -/
theorem readItems_writeItems : (v : Json) → (rest : List Json) → ∀ {depth fuel : Nat}
    (offset k : Nat) (acc : List Json) {gaps : List CodePoint} (tail : List CodePoint),
    Legible depth v → LegibleItems depth rest → AllGaps gaps →
    (writeAt layout k v).length + (writeItems layout k rest).length + 1 ≤ fuel →
    ∃ offset', readItems depth fuel acc ⟨offset, (writeAt layout k v).map .char ++
        ((writeItems layout k rest).map .char ++ (gaps ++ .char ']' :: tail))⟩ =
      .ok (.arr (acc.reverse ++ v.joined :: joinedItems rest), ⟨offset', tail⟩)
  | v, [], depth, fuel, offset, k, acc, gaps, tail, hv, _, hg, hf => by
    have hpos := (opens_writeAt layout k hv).length_pos
    obtain ⟨fuel, rfl⟩ : ∃ n, fuel = n + 2 := ⟨fuel - 2, by omega⟩
    obtain ⟨last, hread⟩ := readValue_writeAt v offset k hv (by omega : _ ≤ fuel + 1)
      (ends_gaps hg (.inr (.inl rfl)) tail)
    refine ⟨last + gaps.length + 1, ?_⟩
    rw [writeItems, map_nil, nil_append, readItems_last hg hread]
    simp [joinedItems]
  | v, v' :: rest, depth, fuel, offset, k, acc, gaps, tail, hv, hrest, hg, hf => by
    obtain ⟨between, hcomma, hbetween⟩ := hl.separator k
    obtain ⟨hv', hrest⟩ := hrest
    have hpos := (opens_writeAt layout k hv).length_pos
    obtain ⟨fuel, rfl⟩ : ∃ n, fuel = n + 2 := ⟨fuel - 2, by omega⟩
    rw [writeItems] at hf ⊢
    have hlength := congrArg List.length hcomma
    simp only [length_append, length_map, length_cons] at hf hlength
    rw [map_append, map_append, hcomma]
    simp only [cons_append, append_assoc]
    obtain ⟨next, hread⟩ := readValue_writeAt v offset k hv (by omega : _ ≤ fuel + 1)
      (ends_cons (.inl rfl) _)
    obtain ⟨last, hitems⟩ := readItems_writeItems v' rest (next + 1 + between.length) k
      (v.joined :: acc) tail hv' hrest hg (by omega : _ ≤ fuel + 1)
    refine ⟨last, ?_⟩
    rw [readItems_next hbetween ((opens_writeAt layout k hv').noGap _) hread, hitems]
    simp [joinedItems]
  termination_by v rest => sizeOf v + sizeOf rest

/-- Fields are read as they were written. -/
theorem readFields_writeFields : (name : Text) → (v : Json) → (rest : List (Text × Json)) →
    ∀ {depth fuel : Nat} (offset k : Nat) (acc : List (Text × Json)) {gaps : List CodePoint}
    (tail : List CodePoint), Legible depth v → LegibleFields depth rest → AllGaps gaps →
    (writeAt layout k v).length + (writeFields layout k rest).length + 1 ≤ fuel →
    ∃ offset', readFields depth fuel acc ⟨offset, (writeString name).map .char ++
        (.char ':' :: .char ' ' :: ((writeAt layout k v).map .char ++
          ((writeFields layout k rest).map .char ++ (gaps ++ .char '}' :: tail))))⟩ =
      .ok (.obj (Assoc.update acc ((name.joined, v.joined) :: joinedFields rest)), ⟨offset', tail⟩)
  | name, v, [], depth, fuel, offset, k, acc, gaps, tail, hv, _, hg, hf => by
    have hopens := opens_writeAt layout k hv
    have hpos := hopens.length_pos
    obtain ⟨fuel, rfl⟩ : ∃ n, fuel = n + 2 := ⟨fuel - 2, by omega⟩
    rw [writeFields, map_nil, nil_append]
    obtain ⟨start, hname⟩ := readName_writeString offset name hopens (gaps ++ .char '}' :: tail)
    obtain ⟨last, hread⟩ := readValue_writeAt v start k hv (by omega : _ ≤ fuel + 1)
      (ends_gaps hg (.inr (.inr rfl)) tail)
    exact ⟨_, readFields_last hg hname hread⟩
  | name, v, (name', v') :: rest, depth, fuel, offset, k, acc, gaps, tail, hv, hrest, hg, hf => by
    obtain ⟨between, hcomma, hbetween⟩ := hl.separator k
    obtain ⟨hv', hrest⟩ := hrest
    have hopens := opens_writeAt layout k hv
    have hpos := hopens.length_pos
    obtain ⟨fuel, rfl⟩ : ∃ n, fuel = n + 2 := ⟨fuel - 2, by omega⟩
    rw [writeFields] at hf ⊢
    have hlength := congrArg List.length hcomma
    simp only [length_append, length_map, length_cons] at hf hlength
    rw [map_append, map_append, map_append, hcomma]
    simp only [map_cons, cons_append, append_assoc]
    obtain ⟨start, hname⟩ := readName_writeString offset name hopens (.char ',' :: (between ++
      ((writeString name').map .char ++ (.char ':' :: .char ' ' ::
        ((writeAt layout k v').map .char ++
          ((writeFields layout k rest).map .char ++ (gaps ++ .char '}' :: tail)))))))
    obtain ⟨next, hread⟩ := readValue_writeAt v start k hv (by omega : _ ≤ fuel + 1)
      (ends_cons (.inl rfl) _)
    obtain ⟨last, hfields⟩ := readFields_writeFields name' v' rest (next + 1 + between.length) k
      (Assoc.insert name.joined v.joined acc) tail hv' hrest hg (by omega : _ ≤ fuel + 1)
    have hgap : NoGap ((writeString name').map .char ++ (.char ':' :: .char ' ' ::
        ((writeAt layout k v').map .char ++ ((writeFields layout k rest).map .char ++
          (gaps ++ .char '}' :: tail))))) := by
      rw [points_writeString]
      exact noGap_cons rfl _
    exact ⟨last, (readFields_next hbetween hgap hname hread).trans hfields⟩
  termination_by _ v rest => sizeOf v + sizeOf rest

end

omit hl in
/-- The document of a legible value is read as that value, with the halves in its texts put
together. -/
theorem read_write {v : Json} (h : Legible maxDepth v) : read v.write = .ok v.joined := by
  have hopens := opens_writeAt .lines 0 h
  have hpoints : v.write.points = (writeAt .lines 0 v).map .char ++ [] := by
    rw [append_nil]
    rfl
  have hmark : ((writeAt .lines 0 v).map CodePoint.char ++ []).head? ≠ some (.char '\ufeff') := by
    obtain ⟨c, rest, hc, hascii, -⟩ := hopens
    rw [hc]
    rintro heq
    cases heq
    exact absurd hascii (by decide)
  obtain ⟨last, hread⟩ := readValue_writeAt Layout.plain_lines v 0 0 h
    (by simp; omega : _ ≤ 2 * ((writeAt .lines 0 v).map CodePoint.char ++ []).length + 1 + 1)
    (by simp [Ends] : Ends [])
  have hend : Cursor.skipGaps ⟨last, []⟩ = ⟨last, []⟩ := rfl
  rw [read, readWithin, hpoints, readPoints, if_neg (by simpa using hmark),
    Cursor.skipGaps_none (hopens.noGap [])]
  simp only [hread, bind, Except.bind, hend]
  rfl

end Json

end RoutePlugins
