import Mathlib.Data.Nat.Digits.Defs
import RoutePlugins.Json.Reader
import RoutePlugins.Json.Writer

/-!
# Tokens read back

What a writer puts into a document for a string or a whole number is what a reader takes from it.
Every code point of a string is written apart, but a first half with a second one after it is read
as one character. So a string is read with its halves put together.
-/

namespace RoutePlugins

open List

theorem valid_toNat (c : Char) : c.toNat < 0xd800 ∨ 0xdfff < c.toNat ∧ c.toNat < 0x110000 := c.valid

theorem CodePoint.ofCode_code (p : CodePoint) : ofCode p.code = p := by
  cases p with
  | char c =>
    have hc := valid_toNat c
    rw [code, ofCode, dif_neg (by omega), Char.ofNat_toNat]
  | half h =>
    have hh : 0xd800 ≤ 0xd800 + h.val ∧ 0xd800 + h.val < 0xe000 := by omega
    rw [code, ofCode, dif_pos hh]
    simp

namespace Json

/-! ### Code units -/

theorem hexValue?_digitChar {d : Nat} (h : d < 16) : hexValue? (.char d.digitChar) = some d := by
  have hall : ∀ d : Fin 16, hexValue? (.char d.val.digitChar) = some d.val := by decide
  exact hall ⟨d, h⟩

variable {n high low : Nat}

theorem hexPadded_succ {width : Nat} (hw : width ≠ 0) :
    Text.hexPadded (width + 1) n = Text.hexPadded width (n / 16) ++ [(n % 16).digitChar] := by
  obtain ⟨width, rfl⟩ := Nat.exists_eq_succ_of_ne_zero hw
  unfold Text.hexPadded
  by_cases hn : n < 16
  · rw [Nat.toDigits_of_lt_base hn, Nat.div_eq_of_lt hn, Nat.mod_eq_of_lt hn]
    simp [← replicate_succ']
  · rw [Nat.toDigits_of_base_le (by decide) (by omega)]
    simp

theorem hexPadded_four (h : n < 0x10000) :
    Text.hexPadded 4 n = [(n / 4096).digitChar, (n / 256 % 16).digitChar, (n / 16 % 16).digitChar,
      (n % 16).digitChar] := by
  have hlast : Text.hexPadded 1 (n / 4096) = [(n / 4096).digitChar] := by
    rw [Text.hexPadded, Nat.toDigits_of_lt_base (by omega)]
    rfl
  rw [hexPadded_succ (by decide), hexPadded_succ (by decide), hexPadded_succ (by decide)]
  simp only [Nat.div_div_eq_div_mul, Nat.reduceMul, hlast]
  rfl

/-- A code unit is written as four digits that are read as that unit. -/
theorem exists_unitEscape (h : n < 0x10000) : ∃ a b c d : CodePoint,
    (unitEscape n).map CodePoint.char = [.char '\\', .char 'u', a, b, c, d] ∧
      hex4? a b c d = some n := by
  refine ⟨_, _, _, _, by rw [unitEscape, hexPadded_four h]; rfl, ?_⟩
  rw [hex4?, hexValue?_digitChar (by omega), hexValue?_digitChar (by omega),
    hexValue?_digitChar (by omega), hexValue?_digitChar (by omega)]
  refine congrArg some ?_
  omega

/-! ### Escapes -/

/-- A code point is read by itself if the string goes on with something that is not the second half
of its pair. -/
def Parted (p : CodePoint) (tail : List CodePoint) : Prop :=
  tail ≠ [] ∧ ∀ e f g h rest, tail = .char '\\' :: .char 'u' :: e :: f :: g :: h :: rest →
    ∃ low, hex4? e f g h = some low ∧ p.join? (.ofCode low) = none

variable {opening offset : Nat} {tail acc : List CodePoint} {q p : CodePoint}

theorem readEscape_unit {a b c d : CodePoint} (hn : hex4? a b c d = some n)
    (hp : Parted (.ofCode n) tail) :
    readEscape opening offset (.char 'u' :: a :: b :: c :: d :: tail) = .ok (.ofCode n, 5) := by
  obtain ⟨hne, hp⟩ := hp
  unfold readEscape
  simp only [hn]
  split
  · next high e f g h q rest hsome =>
    cases hsome
    obtain ⟨low, hlow, hjoin⟩ := hp e f g h _ rfl
    rw [hlow]
    cases isHighSurrogate n with
    | false => rfl
    | true => simp only [hjoin]
  · next hsome =>
    cases hsome
    rfl
  · next hnone =>
    obtain ⟨q, rest, heq⟩ := exists_cons_of_ne_nil hne
    exact (hnone n q rest rfl heq).elim

/-! ### Strings -/

theorem readString_skip (opening offset : Nat) (acc front rest : List CodePoint) :
    readString opening front.length offset acc (front ++ rest) =
      readString opening 0 (offset + front.length) acc rest := by
  induction front generalizing offset with
  | nil => rfl
  | cons p front ih =>
    rw [length_cons, cons_append, readString, ih]
    congr 1
    omega

theorem readString_escape {size : Nat} {rest : List CodePoint} (front : List CodePoint)
    (h : readEscape opening offset (front ++ rest) = .ok (p, size)) (hsize : front.length = size) :
    readString opening 0 offset acc (.char '\\' :: (front ++ rest)) =
      readString opening 0 (offset + 1 + size) (p :: acc) rest := by
  subst hsize
  rw [readString, if_neg (by decide), if_pos (by decide), h]
  exact readString_skip opening (offset + 1) (p :: acc) front rest

theorem readString_plain {rest : List CodePoint} (hquote : p ≠ .char '"') (hslash : p ≠ .char '\\')
    (hcode : 0x20 ≤ p.code) :
    readString opening 0 offset acc (p :: rest) =
      readString opening 0 (offset + 1) (p :: acc) rest := by
  rw [readString, if_neg (by simpa using hquote), if_neg (by simpa using hslash),
    if_neg (by omega)]

theorem readString_unit (hcode : p.code < 0x10000) (hp : Parted p tail) :
    readString opening 0 offset acc ((unitEscape p.code).map .char ++ tail) =
      readString opening 0 (offset + 1 + 5) (p :: acc) tail := by
  obtain ⟨a, b, c, d, hescape, hvalue⟩ := exists_unitEscape hcode
  rw [hescape]
  rw [← p.ofCode_code] at hp
  have hread : readEscape opening offset (.char 'u' :: a :: b :: c :: d :: tail) =
      .ok (.ofCode p.code, 5) := readEscape_unit hvalue hp
  rw [p.ofCode_code] at hread
  exact readString_escape [.char 'u', a, b, c, d] hread rfl

/-- The first code unit of a character beyond the first plane is a first half. -/
theorem ofCode_high {m : Nat} (h : m < 0x100000) :
    CodePoint.ofCode (0xd800 + m / 0x400) = .half ⟨m / 0x400, by omega⟩ := by
  rw [CodePoint.ofCode, dif_pos (by omega)]
  simp

theorem join_units {c : Char} (h : 0x10000 ≤ c.toNat) :
    (CodePoint.ofCode (0xd800 + (c.toNat - 0x10000) / 0x400)).join?
      (.ofCode (0xdc00 + (c.toNat - 0x10000) % 0x400)) = some (.char c) := by
  have hc := valid_toNat c
  have hlow : CodePoint.ofCode (0xdc00 + (c.toNat - 0x10000) % 0x400) =
      .half ⟨0x400 + (c.toNat - 0x10000) % 0x400, by omega⟩ := by
    rw [CodePoint.ofCode, dif_pos (by omega), CodePoint.half.injEq, Fin.mk.injEq]
    omega
  have hsum : 0x10000 + (c.toNat - 0x10000) / 0x400 * 0x400 +
      (0x400 + (c.toNat - 0x10000) % 0x400 - 0x400) = c.toNat := by omega
  rw [ofCode_high (by omega), hlow, CodePoint.join?, if_pos (by simp; omega), hsum]
  exact congrArg some (CodePoint.ofCode_code (.char c))

/-- Two code units that are a pair are read as one character. -/
private theorem readString_units (hhigh : high < 0x10000) (hlow : low < 0x10000)
    (hfirst : isHighSurrogate high = true)
    (hjoin : (CodePoint.ofCode high).join? (.ofCode low) = some p) (hne : tail ≠ []) : ∃ offset',
      readString opening 0 offset acc
          ((unitEscape high).map .char ++ ((unitEscape low).map .char ++ tail)) =
        readString opening 0 offset' (p :: acc) tail := by
  obtain ⟨a1, a2, a3, a4, hhigh, hvalue⟩ := exists_unitEscape hhigh
  obtain ⟨b1, b2, b3, b4, hlow, hvalue'⟩ := exists_unitEscape hlow
  obtain ⟨q, rest, rfl⟩ := exists_cons_of_ne_nil hne
  rw [hhigh, hlow]
  refine ⟨_, readString_escape [.char 'u', a1, a2, a3, a4, .char '\\', .char 'u', b1, b2, b3, b4]
    ?_ rfl⟩
  unfold readEscape
  simp only [cons_append, nil_append, hvalue, hvalue', hfirst, hjoin]
  rfl

/-- A code point is read as it was written. -/
theorem readString_writePoint (p : CodePoint) (h : Parted p tail) : ∃ offset',
      readString opening 0 offset acc ((writePoint p).map .char ++ tail) =
        readString opening 0 offset' (p :: acc) tail := by
  unfold writePoint
  split
  · exact ⟨_, readString_escape [.char '"'] rfl rfl⟩
  · exact ⟨_, readString_escape [.char '\\'] rfl rfl⟩
  · exact ⟨_, readString_escape [.char 'n'] rfl rfl⟩
  · exact ⟨_, readString_escape [.char 'r'] rfl rfl⟩
  · exact ⟨_, readString_escape [.char 't'] rfl rfl⟩
  · exact ⟨_, readString_escape [.char 'b'] rfl rfl⟩
  · exact ⟨_, readString_escape [.char 'f'] rfl rfl⟩
  · next c hquote hslash _ _ _ _ _ =>
    dsimp only
    split
    · next hplain =>
      simp only [Bool.and_eq_true, decide_eq_true_eq] at hplain
      exact ⟨_, readString_plain (by simpa using hquote) (by simpa using hslash) hplain.1⟩
    split
    · next hunit => exact ⟨_, readString_unit (p := .char c) hunit h⟩
    · next hpair =>
      have hc := valid_toNat c
      have hfirst : isHighSurrogate (0xd800 + (c.toNat - 0x10000) / 0x400) = true := by
        simp only [isHighSurrogate, Bool.and_eq_true, decide_eq_true_eq]
        omega
      rw [map_append, append_assoc]
      exact readString_units (by omega) (by omega) hfirst (join_units (by omega)) h.1
  · next n => exact ⟨_, readString_unit (p := .half n) (by simp [CodePoint.code]; omega) h⟩

private theorem parted_of_escape (hn : n < 0x10000) (hjoin : p.join? (.ofCode n) = none) :
    Parted p ((unitEscape n).map .char ++ tail) := by
  obtain ⟨a, b, c, d, hescape, hvalue⟩ := exists_unitEscape hn
  rw [hescape]
  refine ⟨by simp, fun e f g h rest heq => ?_⟩
  simp only [cons_append, List.cons.injEq, true_and] at heq
  obtain ⟨rfl, rfl, rfl, rfl, -⟩ := heq
  exact ⟨n, hvalue, hjoin⟩

private theorem parted_of_ne (hq : q ≠ .char '\\' ∨ tail ≠ [] ∧ tail.head? ≠ some (.char 'u')) :
    Parted p (q :: tail) := by
  refine ⟨by simp, fun e f g h rest heq => ?_⟩
  simp only [List.cons.injEq] at heq
  obtain ⟨rfl, rfl⟩ := heq
  simp at hq

/-- Two code points that are no pair are written apart. -/
theorem parted_writePoint (h : p.join? q = none) : Parted p ((writePoint q).map .char ++ tail) := by
  unfold writePoint
  split
  iterate 7 exact parted_of_ne (.inr (by simp))
  · next c _ hslash _ _ _ _ _ =>
    dsimp only
    split
    · exact parted_of_ne (.inl (by simpa using hslash))
    split
    · next hunit =>
      refine parted_of_escape hunit ?_
      rwa [show c.toNat = (CodePoint.char c).code from rfl, CodePoint.ofCode_code]
    · have hc := valid_toNat c
      rw [map_append, append_assoc]
      refine parted_of_escape (by omega) ?_
      rw [ofCode_high (by omega)]
      cases p with
      | char a => rfl
      | half a =>
        rw [CodePoint.join?, if_neg]
        simp
        omega
  · next n =>
    refine parted_of_escape (by simp [CodePoint.code]; omega) ?_
    rwa [CodePoint.ofCode_code]

/-- Two halves that are a pair are read as one character. -/
theorem readString_halves {c : CodePoint} (h : p.join? q = some c) (hne : tail ≠ []) : ∃ offset',
      readString opening 0 offset acc
          ((writePoint p).map .char ++ ((writePoint q).map .char ++ tail)) =
        readString opening 0 offset' (c :: acc) tail := by
  cases p with
  | char a => cases h
  | half a =>
    cases q with
    | char b => cases h
    | half b =>
      have hfirst : isHighSurrogate (CodePoint.half a).code = true := by
        rw [CodePoint.join?] at h
        split at h
        · next hpair =>
          simp only [Bool.and_eq_true, decide_eq_true_eq] at hpair
          have hcode : (CodePoint.half a).code = 0xd800 + a.val := rfl
          simp only [isHighSurrogate, hcode, Bool.and_eq_true, decide_eq_true_eq]
          omega
        · cases h
      have hunit (d : Fin 0x800) : (CodePoint.half d).code < 0x10000 := by
        simp [CodePoint.code]
        omega
      rw [← (CodePoint.half a).ofCode_code, ← (CodePoint.half b).ofCode_code] at h
      exact readString_units (hunit a) (hunit b) hfirst h hne

/-- A string is read with its halves put together. -/
theorem readString_points (opening offset : Nat) (acc ps tail : List CodePoint) : ∃ offset',
      readString opening 0 offset acc ((ps.flatMap writePoint).map .char ++ .char '"' :: tail) =
        .ok (⟨acc.reverse ++ Text.joinHalves ps⟩, ⟨offset', tail⟩) := by
  have hclose (offset : Nat) (acc : List CodePoint) :
      readString opening 0 offset acc (.char '"' :: tail) =
        .ok (⟨acc.reverse⟩, ⟨offset + 1, tail⟩) := by
    rw [readString, if_pos (by decide)]
  fun_induction Text.joinHalves ps generalizing offset acc with
  | case1 a b rest c hjoin ih =>
    simp only [flatMap_cons, map_append, append_assoc]
    have htail : (rest.flatMap writePoint).map CodePoint.char ++ .char '"' :: tail ≠ [] := by simp
    obtain ⟨next, hread⟩ := readString_halves hjoin htail
    obtain ⟨last, hrest⟩ := ih next (c :: acc)
    rw [hread, hrest]
    exact ⟨last, by simp⟩
  | case2 a b rest hjoin ih =>
    simp only [flatMap_cons, map_append, append_assoc] at ih ⊢
    obtain ⟨next, hread⟩ := readString_writePoint a (parted_writePoint hjoin)
    obtain ⟨last, hrest⟩ := ih next (a :: acc)
    rw [hread, hrest]
    exact ⟨last, by simp⟩
  | case3 ps hps =>
    match ps, hps with
    | [], _ => exact ⟨_, by simpa using hclose offset acc⟩
    | [a], _ =>
      have hparted : Parted a (.char '"' :: tail) := parted_of_ne (.inl (by simp))
      obtain ⟨next, hread⟩ := readString_writePoint a hparted
      rw [flatMap_singleton, hread, hclose]
      exact ⟨next + 1, by simp⟩
    | a :: b :: rest, hps => exact absurd rfl (hps a b rest)

/-! ### Whole numbers -/

/-- What may follow a value: nothing, a gap, a comma or a closing bracket. -/
def Ends (tail : List CodePoint) : Prop :=
  ∀ p, tail.head? = some p → Cursor.isGap p = true ∨ p = .char ',' ∨ p = .char ']' ∨ p = .char '}'

/-- No part of a number can follow it. -/
theorem Ends.not_number {tail : List CodePoint} (h : Ends tail) {p : CodePoint}
    (hp : tail.head? = some p) : isNumeral p = false ∧ p ≠ .char '.' ∧ p ≠ .char 'e' ∧
      p ≠ .char 'E' ∧ p ≠ .char '-' ∧ p ≠ .char '+' := by
  obtain hgap | rfl | rfl | rfl := h p hp
  · simp only [Cursor.isGap, Bool.or_eq_true, beq_iff_eq] at hgap
    obtain ((rfl | rfl) | rfl) | rfl := hgap
    iterate 4 decide
  iterate 3 decide

/-- Numerals are read up to the end of a number. -/
theorem takeWhile_numerals (ht : Ends tail) (ps : List CodePoint) :
    (ps ++ tail).takeWhile isNumeral = ps.takeWhile isNumeral := by
  induction ps with
  | nil =>
    cases tail with
    | nil => rfl
    | cons p rest => simp [(ht.not_number rfl).1]
  | cons p ps ih => simp only [cons_append, takeWhile_cons, ih]

theorem wholeNumerals_append (ht : Ends tail) (ps : List CodePoint) :
    wholeNumerals (ps ++ tail) = wholeNumerals ps := by
  cases ps with
  | nil =>
    cases tail with
    | nil => rfl
    | cons p rest =>
      have hp := (ht.not_number rfl).1
      unfold wholeNumerals
      split
      · next heq =>
        cases heq
        exact absurd hp (by decide)
      · exact takeWhile_numerals ht []
  | cons p ps =>
    by_cases hp : p = .char '0'
    · rw [hp]
      rfl
    · have hwhole (qs : List CodePoint) :
          wholeNumerals (p :: qs) = (p :: qs).takeWhile isNumeral := by
        rw [wholeNumerals]
        rintro _ ⟨⟩
        exact hp rfl
      rw [cons_append, hwhole, hwhole]
      exact takeWhile_numerals ht (p :: ps)

theorem fractionNumerals_append (ht : Ends tail) (ps : List CodePoint) :
    fractionNumerals (ps ++ tail) = fractionNumerals ps := by
  cases ps with
  | nil =>
    cases tail with
    | nil => rfl
    | cons p rest =>
      rw [nil_append, fractionNumerals]
      · rfl
      · rintro _ ⟨⟩
        exact (ht.not_number rfl).2.1 rfl
  | cons p ps =>
    by_cases hp : p = .char '.'
    · rw [hp]
      exact takeWhile_numerals ht ps
    · have hnone (qs : List CodePoint) : fractionNumerals (p :: qs) = [] := by
        rw [fractionNumerals]
        rintro _ ⟨⟩
        exact hp rfl
      rw [cons_append, hnone, hnone]

theorem exponentPart?_append (ht : Ends tail) (ps : List CodePoint) :
    exponentPart? (ps ++ tail) = exponentPart? ps := by
  have hnumerals := takeWhile_numerals ht
  match ps with
  | [] =>
    cases tail with
    | nil => rfl
    | cons p rest =>
      obtain ⟨-, -, hlower, hupper, -⟩ := ht.not_number rfl
      simp [exponentPart?, hlower, hupper]
  | [e] =>
    cases tail with
    | nil => rfl
    | cons p rest =>
      obtain ⟨hnumeral, -, -, -, hminus, hplus⟩ := ht.not_number rfl
      simp [exponentPart?, hminus, hplus, hnumeral]
  | e :: sign :: ps =>
    by_cases hminus : sign = .char '-'
    · simp [exponentPart?, hminus, hnumerals]
    by_cases hplus : sign = .char '+'
    · simp [exponentPart?, hplus, hnumerals]
    · have hrest := hnumerals (sign :: ps)
      rw [cons_append] at hrest
      simp [exponentPart?, hminus, hplus, hrest]

/-- What holds of the ten digits. -/
theorem of_isNumeral {c : Char} (hc : isNumeral (.char c) = true) (P : Char → Prop)
    (h : ∀ d : Fin 10, P d.val.digitChar) : P c := by
  rw [isNumeral, Bool.and_eq_true, decide_eq_true_eq, decide_eq_true_eq] at hc
  obtain ⟨hlow, hhigh⟩ : 0x30 ≤ c.toNat ∧ c.toNat ≤ 0x39 := hc
  have hchar : ∀ d : Fin 10, Char.ofNat (0x30 + d.val) = d.val.digitChar := by decide
  have hsum : 0x30 + (c.toNat - 0x30) = c.toNat := by omega
  rw [← c.ofNat_toNat, ← hsum, hchar ⟨c.toNat - 0x30, by omega⟩]
  exact h _

theorem isNumeral_of_mem {c : Char} (h : c ∈ Nat.toDigits 10 n) : isNumeral (.char c) = true := by
  have hdigit := Nat.isDigit_of_mem_toDigits (by decide) (by decide) h
  simp only [Char.isDigit, Bool.and_eq_true, decide_eq_true_eq] at hdigit
  rw [isNumeral, Bool.and_eq_true]
  exact ⟨decide_eq_true (UInt32.le_iff_toNat_le.mp hdigit.1),
    decide_eq_true (UInt32.le_iff_toNat_le.mp hdigit.2)⟩

/-- The digits of a number that is not zero do not begin with a zero. -/
theorem head_toDigits (h : n ≠ 0) : (Nat.toDigits 10 n).head? ≠ some '0' := by
  induction n using Nat.strong_induction_on with
  | _ n ih =>
    by_cases hlt : n < 10
    · rw [Nat.toDigits_of_lt_base hlt]
      simpa using h
    · rw [Nat.toDigits_of_base_le (by decide) (by omega)]
      have hfront := ih (n / 10) (by omega) (by omega)
      obtain ⟨d, ds, hd⟩ := exists_cons_of_ne_nil (Nat.toDigits_ne_nil (b := 10) (n := n / 10))
      rw [hd] at hfront ⊢
      exact hfront

private theorem wholeNumerals_toDigits (n : Nat) (ht : Ends tail) :
    wholeNumerals ((Nat.toDigits 10 n).map .char ++ tail) = (Nat.toDigits 10 n).map .char := by
  by_cases hn : n = 0
  · subst hn
    rfl
  · have hhead := head_toDigits hn
    unfold wholeNumerals
    split
    · next rest heq =>
      cases hd : Nat.toDigits 10 n with
      | nil => exact absurd hd Nat.toDigits_ne_nil
      | cons d ds =>
        rw [hd] at heq hhead
        cases heq
        exact absurd rfl hhead
    · have hall : ((Nat.toDigits 10 n).map CodePoint.char ++ []).takeWhile isNumeral =
          (Nat.toDigits 10 n).map .char ++ [].takeWhile isNumeral :=
        takeWhile_append_of_pos (by simpa using fun c hc => isNumeral_of_mem hc)
      rw [takeWhile_numerals ht]
      simpa using hall

private theorem numeralsValue_toDigits (n : Nat) :
    numeralsValue ((Nat.toDigits 10 n).map .char) = n := by
  have hvalue : Nat.ofDigitChars 10 (Nat.toDigits 10 n) 0 = n := Nat.ofDigitChars_ten_toDigits
  rw [Nat.ofDigitChars_eq_foldl] at hvalue
  rw [numeralsValue, foldl_map]
  exact hvalue

private theorem readNumber_digits (start : Cursor) (negative : Bool) {body : Cursor}
    (hneg : (start.rest.head? == some (.char '-')) = negative)
    (hbody : (if negative then start.skip 1 else start) = body)
    (hrest : body.rest = (Nat.toDigits 10 n).map .char ++ tail)
    (hlength : (Nat.toDigits 10 n).length ≤ maxDigits) (ht : Ends tail) : ∃ offset,
      readNumber start = .ok (.int (if negative then -(n : Int) else n), ⟨offset, tail⟩) := by
  have hwhole := wholeNumerals_toDigits n ht
  have hfraction : fractionNumerals tail = [] := fractionNumerals_append ht []
  have hexponent : exponentPart? tail = none := exponentPart?_append ht []
  have hskip : body.skip (Nat.toDigits 10 n).length =
      ⟨body.offset + (Nat.toDigits 10 n).length, tail⟩ := by
    rw [Cursor.skip, hrest, drop_left' (by simp)]
  have hne : ((Nat.toDigits 10 n).map CodePoint.char).isEmpty = false := by
    simp [Nat.toDigits_ne_nil]
  refine ⟨body.offset + (Nat.toDigits 10 n).length, ?_⟩
  unfold readNumber
  simp only [hneg, hbody, hrest, hwhole, hne, length_map, hskip, hfraction, hexponent,
    append_nil, numeralsValue_toDigits, isEmpty_nil, if_true, Bool.false_eq_true,
    if_false,
    Nat.not_lt.mpr hlength]

/-- The first digit of a number. -/
private theorem exists_digit (n : Nat) : ∃ d ds, Nat.toDigits 10 n = d :: ds ∧
    isNumeral (.char d) = true := by
  obtain ⟨d, ds, hd⟩ := exists_cons_of_ne_nil (Nat.toDigits_ne_nil (b := 10) (n := n))
  exact ⟨d, ds, hd, isNumeral_of_mem (n := n) (by simp [hd])⟩

/-- A whole number with few enough digits is read as it was written. -/
theorem readNumber_writeInt (offset : Nat) {n : Int}
    (hlength : (Nat.toDigits 10 n.natAbs).length ≤ maxDigits) (ht : Ends tail) : ∃ offset',
      readNumber ⟨offset, (writeInt n).map .char ++ tail⟩ = .ok (.int n, ⟨offset', tail⟩) := by
  by_cases hneg : n < 0
  · obtain ⟨last, hread⟩ := readNumber_digits ⟨offset, (writeInt n).map .char ++ tail⟩ true
      (by simp [writeInt, hneg]) rfl (by simp [writeInt, hneg, Cursor.skip]) hlength ht
    refine ⟨last, ?_⟩
    rw [hread, if_pos rfl]
    congr 3
    omega
  · obtain ⟨d, ds, hd, hnumeral⟩ := exists_digit n.natAbs
    have hminus : d ≠ '-' := of_isNumeral hnumeral (· ≠ '-') (by decide)
    obtain ⟨last, hread⟩ := readNumber_digits ⟨offset, (writeInt n).map .char ++ tail⟩ false
      (by simpa [writeInt, hneg, hd] using hminus) rfl (by simp [writeInt, hneg]) hlength ht
    refine ⟨last, ?_⟩
    rw [hread, if_neg (by decide)]
    congr 3
    omega

/-- What a value may begin with: a character that is no gap and closes nothing. -/
def Opens (cs : List Char) : Prop :=
  ∃ c rest, cs = c :: rest ∧ c.toNat < 0x80 ∧ Cursor.isGap (.char c) = false ∧ c ≠ ']' ∧ c ≠ '}'

/-- A number begins with a sign or a digit. -/
def IsNumber (cs : List Char) : Prop :=
  ∃ (negative : Bool) (d : Char) (ds : List Char),
    cs = (if negative then ['-'] else []) ++ d :: ds ∧ isNumeral (.char d) = true

theorem isNumber_writeInt (n : Int) : IsNumber (writeInt n) := by
  obtain ⟨d, ds, hd, hnumeral⟩ := exists_digit n.natAbs
  exact ⟨decide (n < 0), d, ds, by simp [writeInt, hd], hnumeral⟩

section

variable {cs : List Char} (h : IsNumber cs)

include h

theorem IsNumber.opens :
    Opens cs ∧ ∀ c, cs.head? = some c → c ≠ '"' ∧ c ≠ '{' ∧ c ≠ '[' := by
  obtain ⟨negative, d, ds, rfl, hnumeral⟩ := h
  cases negative with
  | true => exact ⟨⟨_, _, rfl, by decide⟩, fun c hc => by cases hc; decide⟩
  | false =>
    have hopens := of_isNumeral hnumeral (fun c => (c.toNat < 0x80 ∧
      Cursor.isGap (.char c) = false ∧ c ≠ ']' ∧ c ≠ '}') ∧ c ≠ '"' ∧ c ≠ '{' ∧ c ≠ '[') (by decide)
    refine ⟨⟨d, ds, rfl, hopens.1⟩, fun c hc => ?_⟩
    cases hc
    exact hopens.2

/-- No number begins like a word. -/
theorem IsNumber.readScalar (offset : Nat) (tail : List CodePoint) :
    readScalar ⟨offset, cs.map .char ++ tail⟩ = readNumber ⟨offset, cs.map .char ++ tail⟩ := by
  have hnone : (wordValues.find? fun w => w.1.points.isPrefixOf (cs.map .char ++ tail)) = none := by
    obtain ⟨negative, d, ds, rfl, hnumeral⟩ := h
    have hne := of_isNumeral hnumeral (fun d => 'n' ≠ d ∧ 't' ≠ d ∧ 'f' ≠ d ∧ 'N' ≠ d ∧ 'I' ≠ d ∧
      '-' ≠ d) (by decide)
    have hpoints (word : String) : (Text.ofString word).points = word.toList.map .char := rfl
    cases negative with
    | true => simp [wordValues, hpoints, hne]
    | false => simp [wordValues, hpoints, hne]
  rw [Json.readScalar, hnone]

end

end Json

end RoutePlugins
