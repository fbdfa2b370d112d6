import RoutePlugins.Proofs.Files.Decoded

/-!
# Previewed texts

A preview cuts the bytes of a text at a limit, wherever that is, and reads what is left without its
flaws. The first byte of a character says how many bytes follow it, so the bytes of a character that
was cut are one group with a flaw, and nothing is read from them. What remains are the characters at
the front of the text whose bytes fit the limit together, and no longer front fits it.
-/

namespace RoutePlugins

namespace Utf8

variable {b : UInt8} {tail : Bytes}

/-- A way to read a group that takes one byte, or the bytes within bounds after it. -/
def Bounded (read : Bytes → Group) : Prop :=
  (∃ result, ∀ bs, read bs = ⟨result, 1⟩) ∨
    ∃ bounds code, ∀ bs, read bs = readTail bounds bs code 1

/-- The first byte of a group says how it is read. -/
theorem bounded_firstGroup (b : UInt8) : Bounded (firstGroup b) := by
  have hone (result : Except Flaw Char) : Bounded fun _ => ⟨result, 1⟩ :=
    .inl ⟨result, fun _ => rfl⟩
  have htail (bounds : List (UInt8 × UInt8)) (code : Nat) :
      Bounded fun bs => readTail bounds bs code 1 := .inr ⟨bounds, code, fun _ => rfl⟩
  have hite {c : Prop} [Decidable c] {f g : Bytes → Group} (hf : Bounded f) (hg : Bounded g) :
      Bounded fun bs => if c then f bs else g bs := by
    by_cases hc : c
    · simpa only [if_pos hc] using hf
    · simpa only [if_neg hc] using hg
  exact hite (hone _) <| hite (hone _) <| hite (htail _ _) <| hite (htail _ _) <|
    hite (htail _ _) <| hite (htail _ _) <| hite (htail _ _) <| hite (htail _ _) <|
    hite (htail _ _) (hone _)

/-- Last bytes that end too early are one flaw. -/
theorem readTail_of_cut {bounds : List (UInt8 × UInt8)} {front : Bytes}
    (h : List.Forall₂ Within bounds tail) (hfront : front <+: tail) (hne : front ≠ tail)
    (code size : Nat) :
    readTail bounds front code size = ⟨.error .truncated, size + front.length⟩ := by
  induction h generalizing front code size with
  | nil => exact absurd (List.prefix_nil.mp hfront) hne
  | @cons bound b bounds tail hb _ ih =>
    cases front with
    | nil => rfl
    | cons b' front =>
      obtain ⟨rfl, hrest⟩ := List.cons_prefix_cons.mp hfront
      have hcond : (decide (bound.1 ≤ b') && decide (b' ≤ bound.2)) = true := by
        simp only [Bool.and_eq_true, decide_eq_true_eq, UInt8.le_iff_toNat_le]
        exact hb
      rw [readTail, if_pos hcond, ih hrest fun heq => hne (congrArg _ heq), List.length_cons,
        Nat.add_assoc, Nat.add_comm 1]

/-- The bytes of a character without the last ones are one flaw. -/
theorem firstGroup_of_cut {c : Char} {front : Bytes} (h : String.utf8EncodeChar c = b :: tail)
    (hfront : front <+: tail) (hne : front ≠ tail) :
    firstGroup b front = ⟨.error .truncated, front.length + 1⟩ := by
  have hwhole := firstGroup_of_encode h []
  rw [List.append_nil] at hwhole
  rcases bounded_firstGroup b with ⟨result, hall⟩ | ⟨bounds, code, hall⟩
  · rw [hall, Group.mk.injEq] at hwhole
    obtain rfl : tail = [] := List.length_eq_zero_iff.mp (by omega)
    exact absurd (List.prefix_nil.mp hfront) hne
  · have hread : (readTail bounds tail code 1).result = .ok c := by rw [← hall, hwhole]
    obtain ⟨read, rest, rfl, hwithin, -, hsize⟩ := readTail_eq_ok hread
    rw [← hall, hwhole, List.length_append] at hsize
    obtain rfl : rest = [] := List.length_eq_zero_iff.mp (by dsimp only at hsize; omega)
    rw [List.append_nil] at hfront hne
    rw [hall, readTail_of_cut hwithin hfront hne, Nat.add_comm]

/-- The characters at the front of `cs` whose bytes fit a limit together. -/
def frontWithin : Nat → List Char → List Char
  | _, [] => []
  | limit, c :: cs =>
    if c.utf8Size ≤ limit then c :: frontWithin (limit - c.utf8Size) cs else []

theorem length_encodeChars_cons (c : Char) (cs : List Char) :
    (encodeChars (c :: cs)).length = c.utf8Size + (encodeChars cs).length := by
  rw [encodeChars, List.flatMap_cons, List.length_append, String.length_utf8EncodeChar, encodeChars]

theorem frontWithin_prefix (limit : Nat) (cs : List Char) : frontWithin limit cs <+: cs := by
  fun_induction frontWithin limit cs with
  | case1 => exact List.prefix_refl _
  | case2 limit c cs h ih => exact List.cons_prefix_cons.mpr ⟨rfl, ih⟩
  | case3 => exact List.nil_prefix

theorem length_frontWithin_le (limit : Nat) (cs : List Char) :
    (encodeChars (frontWithin limit cs)).length ≤ limit := by
  fun_induction frontWithin limit cs with
  | case1 => exact Nat.zero_le _
  | case2 limit c cs h ih =>
    rw [length_encodeChars_cons]
    omega
  | case3 => exact Nat.zero_le _

/-- No longer front fits. -/
theorem prefix_frontWithin {limit : Nat} {front cs : List Char} (hfront : front <+: cs)
    (hfits : (encodeChars front).length ≤ limit) : front <+: frontWithin limit cs := by
  induction front generalizing limit cs with
  | nil => exact List.nil_prefix
  | cons c front ih =>
    cases cs with
    | nil => exact absurd (List.prefix_nil.mp hfront) (List.cons_ne_nil c front)
    | cons d cs =>
      obtain ⟨rfl, hrest⟩ := List.cons_prefix_cons.mp hfront
      rw [length_encodeChars_cons] at hfits
      rw [frontWithin, if_pos (by omega), List.cons_prefix_cons]
      exact ⟨rfl, ih hrest (by omega)⟩

/-- Cut bytes are read, without flaws, as the characters that were not cut. -/
theorem groups_take_encodeChars (limit : Nat) (cs : List Char) :
    ((groups ((encodeChars cs).take limit)).filterMap fun g => g.result.toOption) =
      frontWithin limit cs := by
  induction cs generalizing limit with
  | nil => simp [encodeChars, groups, groupsFrom, frontWithin]
  | cons c cs ih =>
    obtain ⟨b, tail, hc⟩ := List.exists_cons_of_ne_nil (String.utf8EncodeChar_ne_nil (c := c))
    have hlength : c.utf8Size = tail.length + 1 := by
      rw [← String.length_utf8EncodeChar, hc, List.length_cons]
    have hbytes : encodeChars (c :: cs) = b :: (tail ++ encodeChars cs) := by
      rw [encodeChars, List.flatMap_cons, hc]
      rfl
    rw [hbytes, frontWithin]
    cases limit with
    | zero =>
      rw [if_neg (by omega)]
      rfl
    | succ limit =>
      rw [List.take_succ_cons, groups, groupsFrom]
      split
      · next hle =>
        obtain ⟨more, rfl⟩ : ∃ more, limit = tail.length + more := ⟨limit - tail.length, by omega⟩
        have hmore : tail.length + more + 1 - c.utf8Size = more := by omega
        rw [List.take_length_add_append, firstGroup_of_encode hc, Nat.add_sub_cancel,
          groupsFrom_append, hmore, ← ih]
        rfl
      · next hlt =>
        have hcut : (tail ++ encodeChars cs).take limit = tail.take limit :=
          List.take_append_of_le_length (by omega)
        have hne : tail.take limit ≠ tail := by
          intro heq
          have := congrArg List.length heq
          rw [List.length_take] at this
          omega
        have hrest := groupsFrom_append (tail.take limit) []
        rw [List.append_nil] at hrest
        rw [hcut, firstGroup_of_cut hc (List.take_prefix _ _) hne, Nat.add_sub_cancel, hrest]
        rfl

end Utf8

namespace Text

/-- A preview of characters is all of them if their bytes fit the limit. Otherwise it is the longest
front whose bytes fit, with three dots, and each code point before the dots is the one that the text
has at its place. -/
theorem preview_longest_front (cs : List Char) (limit : Nat) :
    ((Utf8.encodeChars cs).length ≤ limit → preview limit (ofChars cs) = ofChars cs) ∧
    (limit < (Utf8.encodeChars cs).length →
      ∃ front, preview limit (ofChars cs) = ofChars front ++ "..." ∧ front <+: cs ∧
        (Utf8.encodeChars front).length ≤ limit ∧
        (∀ other, other <+: cs → (Utf8.encodeChars other).length ≤ limit → other <+: front) ∧
        ∀ i < front.length, (preview limit (ofChars cs)).points[i]? = (ofChars cs).points[i]?) := by
  have hbytes : Utf8.encodeReplacing (ofChars cs) = Utf8.encodeChars cs := by
    rw [Utf8.encodeReplacing, chars_ofChars]
  refine ⟨fun hfits => ?_, fun hlong => ?_⟩
  · rw [preview, hbytes, if_pos (Int.ofNat_le.mpr hfits)]
  have hfront := Utf8.frontWithin_prefix limit cs
  have hpreview : preview limit (ofChars cs) = ofChars (Utf8.frontWithin limit cs) ++ "..." := by
    rw [preview, hbytes, if_neg (Int.not_le.mpr (Int.ofNat_lt.mpr hlong)), cutBytes,
      if_pos (Int.natCast_nonneg limit), Int.toNat_natCast, Utf8.decodeSkipping,
      Utf8.groups_take_encodeChars]
  refine ⟨Utf8.frontWithin limit cs, hpreview, hfront, Utf8.length_frontWithin_le limit cs,
    fun other => Utf8.prefix_frontWithin, fun i hi => ?_⟩
  obtain ⟨more, hmore⟩ : (ofChars (Utf8.frontWithin limit cs)).points <+: (ofChars cs).points :=
    hfront.map CodePoint.char
  have hi' : i < (ofChars (Utf8.frontWithin limit cs)).points.length := by
    rwa [ofChars, List.length_map]
  rw [hpreview, ← hmore, List.getElem?_append_left hi']
  exact List.getElem?_append_left hi'

/-- A limit inside the second of two characters of four bytes. -/
theorem preview_longest_front_pair :
    6 < (Utf8.encodeChars ['😀', '😀']).length ∧
      ∃ front, preview 6 (ofChars ['😀', '😀']) = ofChars front ++ "..." ∧ front <+: ['😀', '😀'] ∧
        (Utf8.encodeChars front).length ≤ 6 ∧ ['😀'] <+: front := by
  have hlong : 6 < (Utf8.encodeChars ['😀', '😀']).length := by decide
  obtain ⟨front, hpreview, hfront, hfits, hlongest, -⟩ :=
    (preview_longest_front ['😀', '😀'] 6).2 hlong
  exact ⟨hlong, front, hpreview, hfront, hfits, hlongest ['😀'] (by decide) (by decide)⟩

end Text

end RoutePlugins
