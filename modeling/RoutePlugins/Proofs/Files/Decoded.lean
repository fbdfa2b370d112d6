import RoutePlugins.Proofs.Pipeline.CommitWrites

/-!
# Decoded texts

The text that bytes were read as has these bytes again. Each group that is read as a character is
exactly what the character is written as: the bounds on the bytes after the first leave no second
spelling. In turn the bytes of every character are read as it, so bytes are read as a text exactly
if they are the bytes of that text. Reading a file changes line ends besides, and so the text of a
file has its bytes if there is no carriage return among them.
-/

namespace RoutePlugins

variable {t : Text}

namespace Utf8

/-- A byte within bounds. -/
def Within (bound : UInt8 × UInt8) (b : UInt8) : Prop :=
  bound.1.toNat ≤ b.toNat ∧ b.toNat ≤ bound.2.toNat

/-- The number of a character with the last bytes `tail`, the first of which stands for `code`. -/
def codeOf (code : Nat) (tail : Bytes) : Nat :=
  tail.foldl (fun code b => 64 * code + (b.toNat - 0x80)) code

variable {bounds : List (UInt8 × UInt8)} {bs : Bytes} {n v : Nat} {b b1 : UInt8}

/-- The last bytes of a character that was read are within their bounds, and give its number. -/
theorem readTail_eq_ok {code size : Nat} {c : Char}
    (h : (readTail bounds bs code size).result = .ok c) :
    ∃ tail rest, bs = tail ++ rest ∧ List.Forall₂ Within bounds tail ∧
      c = Char.ofNat (codeOf code tail) ∧
      (readTail bounds bs code size).size = size + tail.length := by
  induction bounds generalizing bs code size with
  | nil =>
    cases h
    exact ⟨[], bs, rfl, .nil, rfl, rfl⟩
  | cons bound bounds ih =>
    cases bs with
    | nil => cases h
    | cons b bs =>
      rw [readTail] at h ⊢
      split at h
      · next hb =>
        rw [if_pos hb]
        obtain ⟨tail, rest, rfl, hall, hc, hsize⟩ := ih h
        simp only [Bool.and_eq_true, decide_eq_true_eq, UInt8.le_iff_toNat_le] at hb
        refine ⟨b :: tail, rest, rfl, .cons hb hall, ?_, ?_⟩
        · rw [hc, codeOf, codeOf, List.foldl_cons]
        · rw [hsize, List.length_cons]
          omega
      · cases h

private theorem val_ofNat (h : n < 0xd800 ∨ 0xdfff < n ∧ n < 0x110000) :
    (Char.ofNat n).val.toNat = n := by
  have hv : n.isValidChar := h
  rw [Char.ofNat, dif_pos hv]
  exact UInt32.toNat_ofNatLT

private theorem byte_ofNat (h : n = b.toNat) : UInt8.ofNat n = b := by
  rw [h, UInt8.ofNat_toNat]

/-- A character of one byte is written with the byte it was read from. -/
private theorem written_one (hb : b.toNat < 0x80) :
    String.utf8EncodeChar (Char.ofNat b.toNat) = [b] := by
  have hval := val_ofNat (n := b.toNat) (by omega)
  unfold String.utf8EncodeChar
  simp only [hval]
  rw [if_pos (by omega), byte_ofNat rfl]

private theorem written_two (hb : 0xc2 ≤ b.toNat ∧ b.toNat < 0xe0) (h1 : Within anyTail b1) :
    String.utf8EncodeChar (Char.ofNat (codeOf (b.toNat - 0xc0) [b1])) = [b, b1] := by
  have h1' : 0x80 ≤ b1.toNat ∧ b1.toNat ≤ 0xbf := h1
  have hcode : codeOf (b.toNat - 0xc0) [b1] = 64 * (b.toNat - 0xc0) + (b1.toNat - 0x80) := rfl
  have hval := val_ofNat (n := codeOf (b.toNat - 0xc0) [b1]) (by omega)
  generalize codeOf (b.toNat - 0xc0) [b1] = v at *
  unfold String.utf8EncodeChar
  simp only [hval]
  rw [if_neg (by omega), if_pos (by omega), byte_ofNat (b := b) (by omega),
    byte_ofNat (b := b1) (by omega)]

private theorem written_three {b2 : UInt8} (hb : 0xe0 ≤ b.toNat ∧ b.toNat < 0xf0)
    (h1 : Within anyTail b1) (hlow : b.toNat = 0xe0 → 0xa0 ≤ b1.toNat)
    (hhigh : b.toNat = 0xed → b1.toNat ≤ 0x9f) (h2 : Within anyTail b2) :
    String.utf8EncodeChar (Char.ofNat (codeOf (b.toNat - 0xe0) [b1, b2])) = [b, b1, b2] := by
  have h1' : 0x80 ≤ b1.toNat ∧ b1.toNat ≤ 0xbf := h1
  have h2' : 0x80 ≤ b2.toNat ∧ b2.toNat ≤ 0xbf := h2
  have hcode : codeOf (b.toNat - 0xe0) [b1, b2] =
      64 * (64 * (b.toNat - 0xe0) + (b1.toNat - 0x80)) + (b2.toNat - 0x80) := rfl
  have hval := val_ofNat (n := codeOf (b.toNat - 0xe0) [b1, b2]) (by omega)
  generalize codeOf (b.toNat - 0xe0) [b1, b2] = v at *
  unfold String.utf8EncodeChar
  simp only [hval]
  rw [if_neg (by omega), if_neg (by omega), if_pos (by omega), byte_ofNat (b := b) (by omega),
    byte_ofNat (b := b1) (by omega), byte_ofNat (b := b2) (by omega)]

private theorem written_four {b2 b3 : UInt8} (hb : 0xf0 ≤ b.toNat ∧ b.toNat < 0xf5)
    (h1 : Within anyTail b1) (hlow : b.toNat = 0xf0 → 0x90 ≤ b1.toNat)
    (hhigh : b.toNat = 0xf4 → b1.toNat ≤ 0x8f) (h2 : Within anyTail b2) (h3 : Within anyTail b3) :
    String.utf8EncodeChar (Char.ofNat (codeOf (b.toNat - 0xf0) [b1, b2, b3])) =
      [b, b1, b2, b3] := by
  have h1' : 0x80 ≤ b1.toNat ∧ b1.toNat ≤ 0xbf := h1
  have h2' : 0x80 ≤ b2.toNat ∧ b2.toNat ≤ 0xbf := h2
  have h3' : 0x80 ≤ b3.toNat ∧ b3.toNat ≤ 0xbf := h3
  have hcode : codeOf (b.toNat - 0xf0) [b1, b2, b3] =
      64 * (64 * (64 * (b.toNat - 0xf0) + (b1.toNat - 0x80)) + (b2.toNat - 0x80)) +
        (b3.toNat - 0x80) := rfl
  have hval := val_ofNat (n := codeOf (b.toNat - 0xf0) [b1, b2, b3]) (by omega)
  generalize codeOf (b.toNat - 0xf0) [b1, b2, b3] = v at *
  unfold String.utf8EncodeChar
  simp only [hval]
  rw [if_neg (by omega), if_neg (by omega), if_neg (by omega), byte_ofNat (b := b) (by omega),
    byte_ofNat (b := b1) (by omega), byte_ofNat (b := b2) (by omega),
    byte_ofNat (b := b3) (by omega)]

/-- A group that begins with byte `b` and goes on in `bs` is the bytes of its character, if it is
well formed. -/
def Spells (b : UInt8) (bs : Bytes) (g : Group) : Prop :=
  ∀ c, g.result = .ok c → ∃ tail rest, bs = tail ++ rest ∧ String.utf8EncodeChar c = b :: tail ∧
    g.size = tail.length + 1

private theorem spells_flaw (b : UInt8) (bs : Bytes) (flaw : Flaw) (size : Nat) :
    Spells b bs ⟨.error flaw, size⟩ := by
  intro c h
  cases h

/-- A group is the bytes of its character if the bounds on the last bytes allow no others. -/
private theorem spells_readTail {lead : Nat} (bs : Bytes)
    (h : ∀ tail, List.Forall₂ Within bounds tail →
      String.utf8EncodeChar (Char.ofNat (codeOf (b.toNat - lead) tail)) = b :: tail) :
    Spells b bs (readTail bounds bs (b.toNat - lead) 1) := by
  intro c hc
  obtain ⟨tail, rest, hbs, hall, hcode, hsize⟩ := readTail_eq_ok hc
  refine ⟨tail, rest, hbs, ?_, hsize.trans (Nat.add_comm _ _)⟩
  rw [hcode, h tail hall]

private theorem Within.any {low high : UInt8} (h : Within (low, high) b) (hl : 0x80 ≤ low.toNat)
    (hh : high.toNat ≤ 0xbf) : Within anyTail b :=
  ⟨Nat.le_trans hl h.1, Nat.le_trans h.2 hh⟩

theorem spells_firstGroup (b : UInt8) (bs : Bytes) : Spells b bs (firstGroup b bs) := by
  unfold firstGroup
  simp only [UInt8.lt_iff_toNat_lt, beq_iff_eq, ← UInt8.toNat_inj, UInt8.reduceToNat]
  split
  · next hb =>
    rintro _ ⟨⟩
    exact ⟨[], bs, rfl, written_one hb, rfl⟩
  split
  · exact spells_flaw b bs _ _
  split
  · refine spells_readTail bs ?_
    rintro _ (_ | ⟨h1, _ | _⟩)
    exact written_two (by omega) h1
  split
  · refine spells_readTail bs ?_
    rintro _ (_ | ⟨h1, _ | ⟨h2, _ | _⟩⟩)
    exact written_three (by omega) (h1.any (by decide) (by decide)) (fun _ => h1.1) (by omega) h2
  split
  · refine spells_readTail bs ?_
    rintro _ (_ | ⟨h1, _ | ⟨h2, _ | _⟩⟩)
    exact written_three (by omega) (h1.any (by decide) (by decide)) (by omega) (fun _ => h1.2) h2
  split
  · refine spells_readTail bs ?_
    rintro _ (_ | ⟨h1, _ | ⟨h2, _ | _⟩⟩)
    exact written_three (by omega) h1 (by omega) (by omega) h2
  split
  · refine spells_readTail bs ?_
    rintro _ (_ | ⟨h1, _ | ⟨h2, _ | ⟨h3, _ | _⟩⟩⟩)
    exact written_four (by omega) (h1.any (by decide) (by decide)) (fun _ => h1.1) (by omega) h2 h3
  split
  · refine spells_readTail bs ?_
    rintro _ (_ | ⟨h1, _ | ⟨h2, _ | ⟨h3, _ | _⟩⟩⟩)
    exact written_four (by omega) h1 (by omega) (by omega) h2 h3
  split
  · refine spells_readTail bs ?_
    rintro _ (_ | ⟨h1, _ | ⟨h2, _ | ⟨h3, _ | _⟩⟩⟩)
    exact written_four (by omega) (h1.any (by decide) (by decide)) (by omega) (fun _ => h1.2) h2 h3
  · exact spells_flaw b bs _ _

theorem groupsFrom_append (front rest : Bytes) :
    groupsFrom front.length (front ++ rest) = groupsFrom 0 rest := by
  induction front with
  | nil => rfl
  | cons b front ih => exact ih

/-- Characters that were read have the bytes they were read from. -/
theorem encodeChars_of_collect {all : Bytes} {start : Nat} {cs : List Char}
    (h : collect all start (groups bs) = .ok cs) : encodeChars cs = bs := by
  induction hn : bs.length using Nat.strongRecOn generalizing bs start cs with
  | ind n ih =>
    cases bs with
    | nil =>
      cases h
      rfl
    | cons b bs =>
      rw [groups, groupsFrom, collect] at h
      split at h
      · next c hc =>
        obtain ⟨tail, rest, rfl, hchar, hsize⟩ := spells_firstGroup b bs c hc
        rw [hsize, Nat.add_sub_cancel, groupsFrom_append] at h
        cases hrest : collect all (start + (tail.length + 1)) (groups rest) with
        | error e =>
          rw [groups] at hrest
          rw [hrest] at h
          cases h
        | ok ds =>
          have hlt : rest.length < n := by
            rw [← hn, List.length_cons, List.length_append]
            omega
          have hbytes := ih rest.length hlt hrest rfl
          rw [groups] at hrest
          rw [hrest] at h
          cases h
          rw [encodeChars, List.flatMap_cons, hchar, ← encodeChars, hbytes]
          rfl
      · cases h

/-- A text that was read from bytes has these bytes. -/
theorem encode_of_decode (h : decode bs = .ok t) : encode t = .ok bs := by
  unfold decode at h
  cases hc : collect bs 0 (groups bs) with
  | error e =>
    rw [hc] at h
    cases h
  | ok cs =>
    rw [hc] at h
    cases h
    rw [encode_ofChars, encodeChars_of_collect hc]

/-! ### Written characters are read -/

/-- Last bytes within their bounds are read, whatever follows them. -/
theorem readTail_of_within {tail : Bytes} (rest : Bytes) (h : List.Forall₂ Within bounds tail)
    (code size : Nat) :
    readTail bounds (tail ++ rest) code size =
      ⟨.ok (Char.ofNat (codeOf code tail)), size + tail.length⟩ := by
  induction h generalizing code size with
  | nil => rfl
  | @cons bound b bounds tail hb _ ih =>
    have hcond : (decide (bound.1 ≤ b) && decide (b ≤ bound.2)) = true := by
      simp only [Bool.and_eq_true, decide_eq_true_eq, UInt8.le_iff_toNat_le]
      exact hb
    rw [List.cons_append, readTail, if_pos hcond, ih, List.length_cons, codeOf, codeOf,
      List.foldl_cons, Nat.add_assoc, Nat.add_comm 1]

/-- The number of a byte of a written character. -/
private theorem toNat_byte (h : n < 0x100) : (UInt8.ofNat n).toNat = n :=
  UInt8.toNat_ofNat_of_lt' h

/-- A byte that holds six bits of a number may continue any character. -/
private theorem within_any : Within anyTail (.ofNat (n % 64 + 0x80)) := by
  have hb : (UInt8.ofNat (n % 64 + 0x80)).toNat = n % 64 + 0x80 := toNat_byte (by omega)
  rw [Within, hb]
  change 0x80 ≤ n % 64 + 0x80 ∧ n % 64 + 0x80 ≤ 0xbf
  omega

private theorem read_two (hv : 0x7f < v ∧ v ≤ 0x7ff) (rest : Bytes) :
    firstGroup (.ofNat (v / 64 % 32 + 0xc0)) (.ofNat (v % 64 + 0x80) :: rest) =
      ⟨.ok (Char.ofNat v), 2⟩ := by
  have hb : (UInt8.ofNat (v / 64 % 32 + 0xc0)).toNat = v / 64 + 0xc0 := by
    rw [toNat_byte (by omega)]
    omega
  have hcode : codeOf (v / 64) [.ofNat (v % 64 + 0x80)] = v := by
    change 64 * (v / 64) + ((UInt8.ofNat (v % 64 + 0x80)).toNat - 0x80) = v
    rw [toNat_byte (by omega)]
    omega
  have hread := readTail_of_within rest (.cons (within_any (n := v)) .nil) (v / 64) 1
  rw [hcode] at hread
  unfold firstGroup
  simp only [UInt8.lt_iff_toNat_lt, UInt8.reduceToNat, hb, Nat.add_sub_cancel]
  rw [if_neg (by omega), if_neg (by omega), if_pos (by omega)]
  exact hread

private theorem read_three (hv : 0x7ff < v ∧ v ≤ 0xffff) (hvalid : v < 0xd800 ∨ 0xdfff < v)
    (rest : Bytes) :
    firstGroup (.ofNat (v / 4096 % 16 + 0xe0))
        (.ofNat (v / 64 % 64 + 0x80) :: .ofNat (v % 64 + 0x80) :: rest) =
      ⟨.ok (Char.ofNat v), 3⟩ := by
  have hb : (UInt8.ofNat (v / 4096 % 16 + 0xe0)).toNat = v / 4096 + 0xe0 := by
    rw [toNat_byte (by omega)]
    omega
  have h1 : (UInt8.ofNat (v / 64 % 64 + 0x80)).toNat = v / 64 % 64 + 0x80 :=
    toNat_byte (by omega)
  have hcode : codeOf (v / 4096) [.ofNat (v / 64 % 64 + 0x80), .ofNat (v % 64 + 0x80)] = v := by
    change 64 * (64 * (v / 4096) + ((UInt8.ofNat (v / 64 % 64 + 0x80)).toNat - 0x80)) +
      ((UInt8.ofNat (v % 64 + 0x80)).toNat - 0x80) = v
    rw [h1, toNat_byte (by omega)]
    omega
  have hread {bound : UInt8 × UInt8} (hw : Within bound (.ofNat (v / 64 % 64 + 0x80))) :=
    readTail_of_within rest (.cons hw (.cons (within_any (n := v)) .nil)) (v / 4096) 1
  simp only [hcode] at hread
  unfold firstGroup
  simp only [UInt8.lt_iff_toNat_lt, beq_iff_eq, ← UInt8.toNat_inj, UInt8.reduceToNat, hb,
    Nat.add_sub_cancel]
  rw [if_neg (by omega), if_neg (by omega), if_neg (by omega)]
  split
  · refine hread ⟨?_, (within_any).2⟩
    rw [h1]
    change 0xa0 ≤ _
    omega
  split
  · refine hread ⟨(within_any).1, ?_⟩
    rw [h1]
    change _ ≤ 0x9f
    omega
  · rw [if_pos (by omega)]
    exact hread within_any

private theorem read_four (hv : 0xffff < v ∧ v < 0x110000) (rest : Bytes) :
    firstGroup (.ofNat (v / 262144 % 8 + 0xf0))
        (.ofNat (v / 4096 % 64 + 0x80) :: .ofNat (v / 64 % 64 + 0x80) ::
          .ofNat (v % 64 + 0x80) :: rest) =
      ⟨.ok (Char.ofNat v), 4⟩ := by
  have hb : (UInt8.ofNat (v / 262144 % 8 + 0xf0)).toNat = v / 262144 + 0xf0 := by
    rw [toNat_byte (by omega)]
    omega
  have h1 : (UInt8.ofNat (v / 4096 % 64 + 0x80)).toNat = v / 4096 % 64 + 0x80 :=
    toNat_byte (by omega)
  have hcode : codeOf (v / 262144) [.ofNat (v / 4096 % 64 + 0x80), .ofNat (v / 64 % 64 + 0x80),
      .ofNat (v % 64 + 0x80)] = v := by
    change 64 * (64 * (64 * (v / 262144) + ((UInt8.ofNat (v / 4096 % 64 + 0x80)).toNat - 0x80)) +
      ((UInt8.ofNat (v / 64 % 64 + 0x80)).toNat - 0x80)) +
      ((UInt8.ofNat (v % 64 + 0x80)).toNat - 0x80) = v
    rw [h1, toNat_byte (by omega), toNat_byte (by omega)]
    omega
  have hread {bound : UInt8 × UInt8} (hw : Within bound (.ofNat (v / 4096 % 64 + 0x80))) :=
    readTail_of_within rest (.cons hw (.cons (within_any (n := v / 64))
      (.cons (within_any (n := v)) .nil))) (v / 262144) 1
  simp only [hcode] at hread
  unfold firstGroup
  simp only [UInt8.lt_iff_toNat_lt, beq_iff_eq, ← UInt8.toNat_inj, UInt8.reduceToNat, hb,
    Nat.add_sub_cancel]
  rw [if_neg (by omega), if_neg (by omega), if_neg (by omega), if_neg (by omega),
    if_neg (by omega), if_neg (by omega)]
  split
  · refine hread ⟨?_, (within_any).2⟩
    rw [h1]
    change 0x90 ≤ _
    omega
  split
  · exact hread within_any
  · rw [if_pos (by omega)]
    refine hread ⟨(within_any).1, ?_⟩
    rw [h1]
    change _ ≤ 0x8f
    omega

/-- The bytes of a character are read as that character, whatever follows them. -/
theorem firstGroup_of_encode {c : Char} {tail : Bytes} (h : String.utf8EncodeChar c = b :: tail)
    (rest : Bytes) : firstGroup b (tail ++ rest) = ⟨.ok c, tail.length + 1⟩ := by
  have hchar : Char.ofNat c.val.toNat = c := Char.ofNat_toNat c
  have hvalid : c.val.toNat < 0xd800 ∨ 0xdfff < c.val.toNat ∧ c.val.toNat < 0x110000 := c.valid
  unfold String.utf8EncodeChar at h
  generalize c.val.toNat = v at h hchar hvalid
  rw [← hchar]
  dsimp only at h
  split at h
  · next hv =>
    cases h
    have hb : (UInt8.ofNat v).toNat = v := toNat_byte (by omega)
    unfold firstGroup
    simp only [UInt8.lt_iff_toNat_lt, UInt8.reduceToNat, hb]
    rw [if_pos (by omega)]
    rfl
  split at h
  · cases h
    exact read_two (by omega) rest
  split at h
  · cases h
    exact read_three (by omega) (by omega) rest
  · cases h
    exact read_four (by omega) rest

/-- The bytes of characters are read as these characters. -/
theorem collect_encodeChars (all : Bytes) (start : Nat) (cs : List Char) :
    collect all start (groups (encodeChars cs)) = .ok cs := by
  induction cs generalizing start with
  | nil => rfl
  | cons c cs ih =>
    obtain ⟨b, tail, hc⟩ : ∃ b tail, String.utf8EncodeChar c = b :: tail :=
      List.exists_cons_of_ne_nil String.utf8EncodeChar_ne_nil
    have hbytes : encodeChars (c :: cs) = b :: (tail ++ encodeChars cs) := by
      rw [encodeChars, List.flatMap_cons, hc]
      rfl
    rw [hbytes, groups, groupsFrom, firstGroup_of_encode hc, Nat.add_sub_cancel,
      groupsFrom_append, collect]
    dsimp only
    rw [← groups, ih]
    rfl

/-- Bytes are read as a text exactly if they are the bytes of this text. -/
theorem decode_eq_ok_iff : decode bs = .ok t ↔ encode t = .ok bs := by
  constructor
  · exact encode_of_decode
  · intro h
    obtain ⟨ht, rfl⟩ := eq_ofChars_of_encode h
    rw [decode, collect_encodeChars, ht]
    exact congrArg (fun cs => Except.ok (Text.ofChars cs)) (by rw [← ht])

end Utf8

theorem Text.unifiedPoints_of_plain {cs : List Char} (h : ∀ c ∈ cs, c ≠ '\r') :
    unifiedPoints (cs.map .char) = cs.map .char := by
  induction cs with
  | nil => rfl
  | cons c cs ih =>
    have hrest := ih fun c hc => h c (by simp [hc])
    have hc := h c (by simp)
    rw [List.map_cons, unifiedPoints, hrest]
    · simp [hc]
    · simp [hc]

/-- A file without carriage returns has the bytes of its text. -/
theorem Files.encode_of_readText {fs : Files} {p : Path} {b : Bytes} (hb : fs.readBytes p = .ok b)
    (hr : 13 ∉ b) (ht : fs.readText p = .ok t) : Utf8.encode t = .ok b := by
  rw [readText, hb] at ht
  change textOf b = .ok t at ht
  unfold textOf at ht
  split at ht
  · next read hd =>
    have hread := Utf8.encode_of_decode hd
    obtain ⟨hchars, hbytes⟩ := Utf8.eq_ofChars_of_encode hread
    have hplain : ∀ c ∈ read.chars, c ≠ '\r' := by
      rintro _ hc rfl
      refine hr (hbytes ▸ List.mem_flatMap.mpr ⟨'\r', hc, ?_⟩)
      decide
    cases ht
    rw [hchars] at hread ⊢
    rw [← hread]
    exact congrArg (fun ps => Utf8.encode ⟨ps⟩) (Text.unifiedPoints_of_plain hplain)
  · cases ht

end RoutePlugins
