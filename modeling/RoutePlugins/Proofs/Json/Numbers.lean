import RoutePlugins.Proofs.Json.Documents

/-!
# Doubles read back

The text of a double is made of digits, signs, a point and the mark of an exponent. A number is read
up to what cannot belong to it, so the text of a double that is read back when it stands alone is
read back wherever a value may stand.
-/

namespace RoutePlugins

open Json (isNumeral isNumeral_of_mem IsNumber)

/-! ### The text of a double -/

/-- A character of a number. -/
def IsNumberChar (c : Char) : Prop :=
  isNumeral (.char c) = true ∨ c = '-' ∨ c = '+' ∨ c = '.' ∨ c = 'e'

/-- A plain character that begins neither a string nor a comment. -/
structure Calm (c : Char) : Prop where
  plain : IsPlainChar c
  notQuote : c ≠ '"'
  notSlash : c ≠ '/'

instance (c : Char) : Decidable (Calm c) :=
  decidable_of_iff (IsPlainChar c ∧ c ≠ '"' ∧ c ≠ '/')
    ⟨fun h => ⟨h.1, h.2.1, h.2.2⟩, fun h => ⟨h.plain, h.notQuote, h.notSlash⟩⟩

theorem calm_of_all {cs : List Char} (h : (cs.all fun c => decide (Calm c)) = true) :
    ∀ c ∈ cs, Calm c :=
  fun c hc => of_decide_eq_true (List.all_eq_true.mp h c hc)

theorem IsNumberChar.calm {c : Char} (h : IsNumberChar c) :
    Calm c ∧ Json.Cursor.isGap (.char c) = false := by
  obtain h | rfl | rfl | rfl | rfl := h
  · exact Json.of_isNumeral h (fun c => Calm c ∧ Json.Cursor.isGap (.char c) = false) (by decide)
  iterate 4 decide

namespace Double

/-- Numerals. -/
private abbrev Numerals (cs : List Char) : Prop := ∀ c ∈ cs, isNumeral (.char c) = true

/-- A decimal has digits. -/
theorem digits_placed (d : Decimal) : ∃ c cs, d.placed.1 = c :: cs ∧
    ∀ x ∈ c :: cs, isNumeral (.char x) = true := by
  have hkept : Numerals ((Nat.toDigits 10 d.digits).reverse.dropWhile (· == '0')).reverse := by
    intro c hc
    have hmem := (List.dropWhile_sublist _).mem (List.mem_reverse.mp hc)
    exact isNumeral_of_mem (List.mem_reverse.mp hmem)
  rw [Decimal.placed]
  dsimp only
  split
  · exact ⟨'0', [], rfl, List.forall_mem_singleton.mpr rfl⟩
  · next hne =>
    obtain ⟨c, cs, hcs⟩ := List.exists_cons_of_ne_nil fun hnil => hne (List.isEmpty_iff.mpr hnil)
    exact ⟨c, cs, hcs, hcs ▸ hkept⟩

theorem numberChars_exponentText (e : Int) : ∀ c ∈ exponentText e, IsNumberChar c := by
  intro c hc
  rw [exponentText] at hc
  obtain rfl | hc := List.mem_cons.mp hc
  · split
    · exact .inr (.inl rfl)
    · exact .inr (.inr (.inl rfl))
  · left
    split at hc
    · obtain rfl | hc := List.mem_cons.mp hc
      · decide
      · exact isNumeral_of_mem hc
    · exact isNumeral_of_mem hc

/-- The text of digits begins with a digit, and goes on as a number does. -/
theorem decimalText_of_numerals {d : Char} {ds : List Char} (h : Numerals (d :: ds))
    (point : Int) : ∃ c cs, decimalText (d :: ds) point = c :: cs ∧
      isNumeral (.char c) = true ∧ ∀ x ∈ cs, IsNumberChar x := by
  have hd : isNumeral (.char d) = true := h d (by simp)
  have hds : ∀ x ∈ ds, IsNumberChar x := fun x hx => .inl (h x (by simp [hx]))
  have hzeros (n : Nat) : ∀ x ∈ List.replicate n '0', IsNumberChar x := by
    intro x hx
    rw [List.eq_of_mem_replicate hx]
    exact .inl (by decide)
  have hpoint : IsNumberChar '.' := .inr (.inr (.inr (.inl rfl)))
  have hmark : IsNumberChar 'e' := .inr (.inr (.inr (.inr rfl)))
  unfold decimalText
  split
  · refine
      ⟨d, (if ds.isEmpty then [] else '.' :: ds) ++ 'e' :: exponentText (point - 1), rfl, hd, ?_⟩
    refine List.forall_mem_append.mpr ⟨?_, List.forall_mem_cons.mpr
      ⟨hmark, numberChars_exponentText _⟩⟩
    split
    · simp
    · exact List.forall_mem_cons.mpr ⟨hpoint, hds⟩
  split
  · refine ⟨'0', _, rfl, by decide, ?_⟩
    exact List.forall_mem_cons.mpr ⟨hpoint, List.forall_mem_append.mpr ⟨hzeros _,
      List.forall_mem_cons.mpr ⟨.inl hd, hds⟩⟩⟩
  · next hpos =>
    obtain ⟨whole, hwhole⟩ : ∃ n, point.toNat = n + 1 := ⟨point.toNat - 1, by omega⟩
    dsimp only
    rw [hwhole]
    split
    · refine ⟨d, _, rfl, hd, ?_⟩
      refine List.forall_mem_append.mpr ⟨fun x hx => hds x (List.mem_of_mem_take hx), ?_⟩
      exact List.forall_mem_cons.mpr ⟨hpoint, fun x hx => hds x (List.mem_of_mem_drop hx)⟩
    · refine ⟨d, _, rfl, hd, ?_⟩
      refine List.forall_mem_append.mpr ⟨List.forall_mem_append.mpr ⟨hds, hzeros _⟩, ?_⟩
      exact List.forall_mem_cons.mpr ⟨hpoint, hzeros 1⟩

/-- The text of a finite double is that of a number. -/
theorem isNumber_text (special : SpecialTexts) (negative : Bool) (m : Nat) (q : Int) :
    IsNumber ((finite negative m q).text special) ∧
      ∀ c ∈ (finite negative m q).text special, IsNumberChar c := by
  have hdigits : ∃ d ds point, (finite negative m q).text special =
      (if negative then ['-'] else []) ++ decimalText (d :: ds) point ∧ Numerals (d :: ds) := by
    by_cases hm : m = 0
    · exact ⟨'0', [], 1, by rw [text, hm]; rfl, List.forall_mem_singleton.mpr rfl⟩
    · obtain ⟨d, ds, hplaced, hnumerals⟩ := digits_placed (shortest m q)
      refine ⟨d, ds, (shortest m q).placed.2, ?_, hnumerals⟩
      rw [← hplaced, text, if_neg (by simpa using hm)]
  obtain ⟨d, ds, point, htext, hnumerals⟩ := hdigits
  obtain ⟨c, cs, hdecimal, hc, hcs⟩ := decimalText_of_numerals hnumerals point
  rw [htext, hdecimal]
  refine ⟨⟨negative, c, cs, rfl, hc⟩, List.forall_mem_append.mpr
    ⟨?_, List.forall_mem_cons.mpr ⟨.inl hc, hcs⟩⟩⟩
  split
  · exact List.forall_mem_singleton.mpr (.inr (.inl rfl))
  · simp

theorem calm_text (d : Double) : ∀ c ∈ d.text Json.specialNumbers, Calm c := by
  cases d with
  | nan => exact calm_of_all (by decide)
  | infinite negative =>
    cases negative with
    | false => exact calm_of_all (by decide)
    | true => exact calm_of_all (by decide)
  | finite negative m q => exact fun c hc => ((isNumber_text _ negative m q).2 c hc).calm.1

end Double

/-! ### Numbers in a document -/

namespace Json

/-- A place that has `tail` behind what is left at another place. -/
def Cursor.Before (tail : List CodePoint) (c c' : Cursor) : Prop := c'.rest = c.rest ++ tail

variable {tail ps : List CodePoint} {c start : Cursor} {v : Json}

theorem Cursor.Before.skip {c' : Cursor} (h : Before tail c c') {n : Nat} (hn : n ≤ c.rest.length) :
    Before tail (c.skip n) (c'.skip n) := by
  rw [Before, Cursor.skip, Cursor.skip, h, List.drop_append_of_le_length hn]

theorem length_wholeNumerals_le (ps : List CodePoint) : (wholeNumerals ps).length ≤ ps.length := by
  unfold wholeNumerals
  split
  · simp
  · exact (List.takeWhile_sublist _).length_le

theorem length_fractionNumerals_lt (h : fractionNumerals ps ≠ []) :
    1 + (fractionNumerals ps).length ≤ ps.length := by
  match ps with
  | [] => exact absurd rfl h
  | p :: ps =>
    by_cases hp : p = .char '.'
    · have hle := (List.takeWhile_sublist isNumeral (l := ps)).length_le
      subst hp
      simp only [fractionNumerals, List.length_cons]
      omega
    · refine absurd ?_ h
      rw [fractionNumerals]
      rintro _ ⟨⟩
      exact hp rfl

theorem size_exponentPart?_le {e : Int} {size : Nat} (h : exponentPart? ps = some (e, size)) :
    size ≤ ps.length := by
  have hle (qs : List CodePoint) : (qs.takeWhile isNumeral).length ≤ qs.length :=
    (List.takeWhile_sublist _).length_le
  unfold exponentPart? at h
  split at h
  · next mark qs =>
    split at h
    · split at h
      next sign signed rest heq =>
        dsimp only at h
        split at h
        · cases h
        · cases h
          have hrest := hle rest
          have hsigned : signed + rest.length ≤ qs.length := by
            split at heq <;> cases heq <;> simp [Nat.add_comm]
          simp only [List.length_cons]
          omega
    · cases h
  · cases h

/-- A number that is read to the end of the text is read in front of anything that can follow. -/
theorem readNumber_append {start' : Cursor} (ht : Ends tail)
    (hstart : Cursor.Before tail start start') (h : readNumber start = .ok (v, c))
    (hc : c.rest = []) : ∃ last, readNumber start' = .ok (v, ⟨last, tail⟩) := by
  have hne : start.rest ≠ [] := by
    intro hnil
    obtain ⟨offset, rest⟩ := start
    cases hnil
    cases h
  have hhead : start'.rest.head? = start.rest.head? := by
    rw [hstart, List.head?_append_of_ne_nil _ hne]
  unfold readNumber at h ⊢
  dsimp only at h ⊢
  rw [hhead]
  generalize (start.rest.head? == some (.char '-')) = negative at h ⊢
  have hbody : Cursor.Before tail (if negative = true then start.skip 1 else start)
      (if negative = true then start'.skip 1 else start') := by
    split
    · exact hstart.skip (List.length_pos_iff.mpr hne)
    · exact hstart
  generalize (if negative = true then start.skip 1 else start) = body at h hbody
  generalize (if negative = true then start'.skip 1 else start') = body' at hbody ⊢
  rw [hbody, wholeNumerals_append ht]
  split at h
  · cases h
  next hwhole =>
  rw [if_neg hwhole]
  have hrest := hbody.skip (length_wholeNumerals_le body.rest)
  generalize wholeNumerals body.rest = whole at h hrest ⊢
  generalize body.skip whole.length = rest at h hrest
  generalize body'.skip whole.length = rest' at hrest ⊢
  have hafter : Cursor.Before tail
      (if (fractionNumerals rest.rest).isEmpty = true then rest
        else rest.skip (1 + (fractionNumerals rest.rest).length))
      (if (fractionNumerals rest.rest).isEmpty = true then rest'
        else rest'.skip (1 + (fractionNumerals rest.rest).length)) := by
    split
    · exact hrest
    · next hsome => exact hrest.skip (length_fractionNumerals_lt (by simpa using hsome))
  rw [hrest, fractionNumerals_append ht]
  generalize fractionNumerals rest.rest = fraction at h hafter ⊢
  generalize (if fraction.isEmpty = true then rest else rest.skip (1 + fraction.length)) = after
    at h hafter
  generalize (if fraction.isEmpty = true then rest' else rest'.skip (1 + fraction.length)) = after'
    at hafter ⊢
  -- what is left where the number ends is `tail`
  have hlast {d d' : Cursor} (hd : Cursor.Before tail d d') (hnil : d.rest = []) :
      d' = ⟨d'.offset, tail⟩ := by
    obtain ⟨offset, rest⟩ := d'
    rw [Cursor.Before, hnil] at hd
    exact congrArg (Cursor.mk offset) hd
  rw [hafter, exponentPart?_append ht]
  split at h
  · next e size hexponent =>
    cases h
    have hskip := hafter.skip (size_exponentPart?_le hexponent)
    exact ⟨_, by rw [hlast hskip hc]⟩
  · split at h
    · split at h
      · cases h
      · next hempty hdigits =>
        cases h
        exact ⟨_, by rw [if_pos hempty, if_neg hdigits, hlast hafter hc]⟩
    · next hempty =>
      cases h
      exact ⟨_, by rw [if_neg hempty, hlast hafter hc]⟩

/-- The text of a double is read, as a document of its own, as that double. -/
def ParsesBack (d : Double) : Prop :=
  read (.ofChars (d.text specialNumbers)) = .ok (.float d)

instance (d : Double) : Decidable (ParsesBack d) :=
  match h : read (.ofChars (d.text specialNumbers)) with
  | .ok (.float x) => decidable_of_iff (x = d) (by rw [ParsesBack, h]; simp)
  | .ok .null | .ok (.bool _) | .ok (.int _) | .ok (.str _) | .ok (.arr _) | .ok (.obj _)
  | .error _ => isFalse (by rw [ParsesBack, h]; simp)

/-- A number is read from the front of the text. -/
theorem suffix_of_readNumber (h : readNumber start = .ok (v, c)) : c.rest <:+ start.rest := by
  have hskip (d : Cursor) (n : Nat) : (d.skip n).rest <:+ d.rest := List.drop_suffix n d.rest
  have hchoose (b : Bool) {d e : Cursor} (he : e.rest <:+ d.rest) :
      (if b = true then d else e).rest <:+ d.rest := by
    split
    · exact List.suffix_rfl
    · exact he
  unfold readNumber at h
  dsimp only at h
  generalize hbody :
    (if (start.rest.head? == some (.char '-')) = true then start.skip 1 else start) = body at h
  have hstart : body.rest <:+ start.rest := by
    rw [← hbody]
    split
    · exact hskip start 1
    · exact List.suffix_rfl
  split at h
  · cases h
  have hwhole := (hskip body (wholeNumerals body.rest).length).trans hstart
  generalize body.skip (wholeNumerals body.rest).length = rest at h hwhole
  have hafter := (hchoose (fractionNumerals rest.rest).isEmpty
    (hskip rest (1 + (fractionNumerals rest.rest).length))).trans hwhole
  generalize (if (fractionNumerals rest.rest).isEmpty = true then rest
    else rest.skip (1 + (fractionNumerals rest.rest).length)) = after at h hafter
  split at h
  · cases h
    exact (hskip after _).trans hafter
  · split at h
    · split at h
      · cases h
      · cases h
        exact hafter
    · cases h
      exact hafter

/-- A number that is a document of its own is read to its end. -/
theorem IsNumber.readNumber_of_read {cs : List Char} (h : IsNumber cs)
    (hcs : ∀ c ∈ cs, IsNumberChar c) (hread : read (.ofChars cs) = .ok v) :
    ∃ c, readNumber ⟨0, cs.map .char ++ []⟩ = .ok (v, c) ∧ c.rest = [] := by
  have hpoints : (Text.ofChars cs).points = cs.map .char ++ [] := (List.append_nil _).symm
  rw [read, readWithin, hpoints] at hread
  cases hp : readPoints maxDepth (cs.map CodePoint.char ++ []) with
  | error stop =>
    rw [hp] at hread
    cases hread
  | ok v' =>
    rw [hp] at hread
    cases hread
    unfold readPoints at hp
    split at hp
    · cases hp
    rw [Cursor.skipGaps_none (h.opens.1.noGap []), h.readValue] at hp
    cases hn : readNumber ⟨0, cs.map CodePoint.char ++ []⟩ with
    | error stop =>
      rw [hn] at hp
      cases hp
    | ok out =>
      obtain ⟨v', c⟩ := out
      rw [hn] at hp
      simp only [bind, Except.bind] at hp
      split at hp
      · next hempty =>
        cases hp
        refine ⟨c, rfl, ?_⟩
        -- no gap can be left, since a number has none
        have hsuffix := suffix_of_readNumber hn
        obtain ⟨offset, rest⟩ := c
        cases rest with
        | nil => rfl
        | cons p rest =>
          obtain ⟨x, hx, rfl⟩ : ∃ x ∈ cs, CodePoint.char x = p := by
            simpa using hsuffix.subset (by simp)
          rw [Cursor.skipGaps_none (noGap_cons (hcs x hx).calm.2 rest)] at hempty
          cases hempty
      · cases hp

/-- A double that is read back when its text stands alone is read back wherever it stands. -/
theorem ParsesBack.readsBack {d : Double} (h : ParsesBack d) : ReadsBack d := by
  have hplain : ∀ c ∈ d.text specialNumbers, IsPlainChar c := fun c hc => (d.calm_text c hc).plain
  cases d with
  | nan => exact ⟨⟨'N', _, rfl, by decide⟩, hplain, fun _ => ⟨_, rfl⟩⟩
  | infinite negative =>
    cases negative with
    | true => exact ⟨⟨'-', _, rfl, by decide⟩, hplain, fun _ => ⟨_, rfl⟩⟩
    | false => exact ⟨⟨'I', _, rfl, by decide⟩, hplain, fun _ => ⟨_, rfl⟩⟩
  | finite negative m q =>
    obtain ⟨hnumber, hchars⟩ := Double.isNumber_text specialNumbers negative m q
    refine ⟨hnumber.opens.1, hplain, fun {_ _ offset tail} ht => ?_⟩
    obtain ⟨c, hread, hc⟩ := hnumber.readNumber_of_read hchars h
    have hbefore : Cursor.Before tail
        ⟨0, ((Double.finite negative m q).text specialNumbers).map .char ++ []⟩
        ⟨offset, ((Double.finite negative m q).text specialNumbers).map .char ++ tail⟩ := by
      rw [Cursor.Before, List.append_nil]
    obtain ⟨last, hlast⟩ := readNumber_append ht hbefore hread hc
    exact ⟨last, (hnumber.readValue tail).trans hlast⟩

end Json

end RoutePlugins
