import RoutePlugins.Proofs.Files.Decoded
import RoutePlugins.Proofs.Json.Numbers

/-!
# Artifacts read back

Documents are plain ASCII without carriage returns, so the bytes of a document are its text, and no
line end is changed when it is read. A file to which a value was written holds the document of that
value, until something else is written to the same place.
-/

namespace RoutePlugins

variable {cs : List Char}

/-! ### Plain characters -/

/-- Plain characters are read as they were written. -/
theorem Files.textOf_encodeChars (h : ∀ c ∈ cs, IsPlainChar c) :
    textOf (Utf8.encodeChars cs) = .ok (Text.ofChars cs) := by
  rw [textOf, Utf8.decode_eq_ok_iff.mpr (Utf8.encode_ofChars cs)]
  refine congrArg Except.ok ?_
  exact congrArg Text.mk (Text.unifiedPoints_of_plain fun c hc => (h c hc).2)

namespace Json

private theorem plain_of_all (h : (cs.all fun c => decide (IsPlainChar c)) = true) :
    ∀ c ∈ cs, IsPlainChar c :=
  fun c hc => of_decide_eq_true (List.all_eq_true.mp h c hc)

private theorem plain_digitChar {d : Nat} (h : d < 16) : IsPlainChar d.digitChar := by
  have hall : ∀ d : Fin 16, IsPlainChar d.val.digitChar := by decide
  exact hall ⟨d, h⟩

private theorem plain_unitEscape {n : Nat} (h : n < 0x10000) :
    ∀ c ∈ unitEscape n, IsPlainChar c := by
  rw [unitEscape, hexPadded_four h]
  simp only [List.forall_mem_cons, List.not_mem_nil, false_implies, implies_true, and_true]
  exact ⟨by decide, by decide, plain_digitChar (by omega), plain_digitChar (by omega),
    plain_digitChar (by omega), plain_digitChar (by omega)⟩

theorem plain_writePoint (p : CodePoint) : ∀ c ∈ writePoint p, IsPlainChar c := by
  unfold writePoint
  split
  iterate 7 exact plain_of_all (by decide)
  · next c _ _ _ _ _ _ _ =>
    have hc := valid_toNat c
    dsimp only
    split
    · next hplain =>
      simp only [Bool.and_eq_true, decide_eq_true_eq] at hplain
      simp only [List.forall_mem_singleton]
      refine ⟨by omega, ?_⟩
      rintro rfl
      exact absurd hplain.1 (by decide)
    split
    · next hunit => exact plain_unitEscape hunit
    · intro c' hmem
      obtain hmem | hmem := List.mem_append.mp hmem
      · exact plain_unitEscape (by omega) c' hmem
      · exact plain_unitEscape (by omega) c' hmem
  · next n => exact plain_unitEscape (by simp [CodePoint.code]; omega)

theorem plain_writeString (t : Text) : ∀ c ∈ writeString t, IsPlainChar c := by
  intro c hc
  simp only [writeString, List.mem_append, List.mem_cons, List.mem_flatMap, List.not_mem_nil,
    or_false] at hc
  obtain (rfl | ⟨p, -, hp⟩) | rfl := hc
  · decide
  · exact plain_writePoint p c hp
  · decide

theorem calm_writeInt (n : Int) : ∀ c ∈ writeInt n, Calm c := by
  intro c hc
  have hnumber : IsNumberChar c := by
    obtain hc | hc := List.mem_append.mp hc
    · obtain ⟨-, rfl⟩ : n < 0 ∧ c = '-' := by simpa using hc
      exact .inr (.inl rfl)
    · exact .inl (isNumeral_of_mem hc)
  exact hnumber.calm.1

theorem calm_gap (k : Nat) : ∀ c ∈ Layout.lines.gap k, Calm c := by
  intro c hc
  obtain rfl | ⟨-, rfl⟩ : c = '\n' ∨ k ≠ 0 ∧ c = ' ' := by simpa [Layout.lines] using hc
  · decide
  · decide

/-- What holds of strings and of calm characters, and of what is put together from such runs. -/
structure Composes (P : List Char → Prop) : Prop where
  append : ∀ {cs ds : List Char}, P cs → P ds → P (cs ++ ds)
  calm : ∀ {cs : List Char}, (∀ c ∈ cs, Calm c) → P cs
  string : ∀ t : Text, P (writeString t)

section

variable {P : List Char → Prop} (hP : Composes P)

include hP

theorem Composes.mark (h : (cs.all fun c => decide (Calm c)) = true) : P cs :=
  hP.calm (calm_of_all h)

theorem Composes.opened {c : Char} (hc : Calm c) (k : Nat) : P (c :: Layout.lines.gap k) :=
  hP.calm (List.forall_mem_cons.mpr ⟨hc, calm_gap k⟩)

theorem Composes.named (name : Text) (h : P cs) : P (writeString name ++ ':' :: ' ' :: cs) :=
  hP.append (hP.string name) (hP.append (hP.mark (by decide : [':', ' '].all _ = true)) h)

mutual

/-- Documents are put together from strings and calm characters. -/
theorem Composes.writeAt : (v : Json) → (k : Nat) → P (writeAt .lines k v)
  | .null, _ => by simpa only [Json.writeAt] using hP.mark (by decide)
  | .bool true, _ => by simpa only [Json.writeAt] using hP.mark (by decide)
  | .bool false, _ => by simpa only [Json.writeAt] using hP.mark (by decide)
  | .int n, _ => hP.calm (calm_writeInt n)
  | .float d, _ => hP.calm d.calm_text
  | .str s, _ => hP.string s
  | .arr [], _ => by simpa only [Json.writeAt] using hP.mark (by decide)
  | .arr (v :: rest), k =>
    hP.append (hP.append (hP.append (hP.append (hP.opened (by decide) (k + 1))
      (Composes.writeAt v (k + 1))) (Composes.writeItems rest (k + 1))) (hP.calm (calm_gap k)))
      (hP.mark (by decide))
  | .obj [], _ => by simpa only [Json.writeAt] using hP.mark (by decide)
  | .obj ((name, v) :: rest), k => by
    rw [Json.writeAt, List.append_assoc (_ :: _)]
    exact hP.append (hP.append (hP.append (hP.append (hP.opened (by decide) (k + 1))
      (hP.named name (Composes.writeAt v (k + 1)))) (Composes.writeFields rest (k + 1)))
      (hP.calm (calm_gap k))) (hP.mark (by decide))

theorem Composes.writeItems : (items : List Json) → (k : Nat) → P (writeItems .lines k items)
  | [], _ => hP.calm (by simp [Json.writeItems])
  | v :: rest, k => hP.append (hP.append (hP.opened (by decide) k) (Composes.writeAt v k))
      (Composes.writeItems rest k)

theorem Composes.writeFields : (fields : List (Text × Json)) → (k : Nat) →
    P (writeFields .lines k fields)
  | [], _ => hP.calm (by simp [Json.writeFields])
  | (name, v) :: rest, k => by
    rw [Json.writeFields, List.append_assoc (Layout.lines.comma ++ _)]
    exact hP.append (hP.append (hP.opened (by decide) k) (hP.named name (Composes.writeAt v k)))
      (Composes.writeFields rest k)

end

end

/-- The document of a value is plain. -/
theorem plain_writeAt (v : Json) (k : Nat) : ∀ c ∈ writeAt .lines k v, IsPlainChar c :=
  @Composes.writeAt (∀ c ∈ ·, IsPlainChar c) ⟨fun hc hd => List.forall_mem_append.mpr ⟨hc, hd⟩,
    fun h c hc => (h c hc).plain, plain_writeString⟩ v k

end Json

namespace Value

mutual

/-- The document of a JSON value is that value. -/
theorem document_ofJson : (j : Json) → (ofJson j).document = .ok j
  | .null => rfl
  | .bool _ => rfl
  | .int _ => rfl
  | .float _ => rfl
  | .str _ => rfl
  | .arr items => by
    rw [ofJson, document, documentItems_ofJsonItems items]
    rfl
  | .obj fields => by
    rw [ofJson, document, documentFields_ofJsonFields fields]
    rfl

theorem documentItems_ofJsonItems : (items : List Json) →
    documentItems (ofJsonItems items) = .ok items
  | [] => rfl
  | v :: rest => by
    rw [ofJsonItems, documentItems, document_ofJson v, documentItems_ofJsonItems rest]
    rfl

theorem documentFields_ofJsonFields : (fields : List (Text × Json)) →
    documentFields (ofJsonFields fields) = .ok fields
  | [] => rfl
  | (name, v) :: rest => by
    rw [ofJsonFields, documentFields, document_ofJson v, documentFields_ofJsonFields rest]
    rfl

end

end Value

/-! ### Files with documents -/

namespace Files

/-- A path leads to a file with the document of a value. -/
def HoldsDocument (fs : Files) (p : Path) (j : Json) : Prop :=
  ∃ l, fs.Leads p l ∧ fs.contentAt? l = some (Utf8.encodeChars (Json.writeAt .lines 0 j))

variable {fs : Files} {p : Path} {j : Json}

/-- A file to which a value was written holds its document. -/
theorem holdsDocument_of_writeValue {gs : Files} (hw : fs.WellFormed) {root : Path} {v : Value}
    (hv : v.document = .ok j) (h : writeValue root p v fs = .ok () gs) : gs.HoldsDocument p j := by
  unfold writeValue at h
  rw [hv] at h
  obtain ⟨l, b, hb, hl, hc⟩ := writeText_eq_ok hw h
  rw [Json.write, Utf8.encode_ofChars] at hb
  cases hb
  exact ⟨l, hl, hc⟩

/-- A document stays while nothing is written to its file. -/
theorem HoldsDocument.written {P : Path → Prop} {gs : Files} (hwf : fs.WellFormed)
    (h : fs.HoldsDocument p j) (hw : Written P fs gs)
    (hapart : ∀ q, P q → ∀ l, gs.Leads p l → ¬ gs.Leads q l) : gs.HoldsDocument p j := by
  obtain ⟨l, hl, hc⟩ := h
  have hl' := hw.grows.leads hwf hl
  exact ⟨l, hl', (hw.kept l fun q hq => hapart q hq l hl').trans hc⟩

theorem HoldsDocument.readBytes (hwf : fs.WellFormed) (h : fs.HoldsDocument p j) :
    fs.readBytes p = .ok (Utf8.encodeChars (Json.writeAt .lines 0 j)) :=
  (readBytes_eq_ok hwf).mpr h

theorem isPresent_of_readBytes {b : Bytes} (h : fs.readBytes p = .ok b) :
    fs.isPresent p = .ok true := by
  obtain ⟨entry, hstat, -⟩ := bind_ok_iff.mp h
  rw [Files.isPresent, hstat]
  rfl

/-- The text of a document is read as it was written. -/
theorem readText_of_readBytes
    (h : fs.readBytes p = .ok (Utf8.encodeChars (Json.writeAt .lines 0 j))) :
    fs.readText p = .ok j.write := by
  rw [readText, h]
  exact textOf_encodeChars (Json.plain_writeAt j 0)

/-- The document of a legible value is read as that value, with its halves put together. -/
theorem readJson_of_readBytes
    (h : fs.readBytes p = .ok (Utf8.encodeChars (Json.writeAt .lines 0 j)))
    (hj : Json.Legible Json.maxDepth j) : fs.readJson p = .ok j.joined := by
  rw [Files.readJson, readText_of_readBytes h]
  change (Json.read j.write).mapError _ = _
  rw [Json.read_write hj]
  rfl

end Files

end RoutePlugins
