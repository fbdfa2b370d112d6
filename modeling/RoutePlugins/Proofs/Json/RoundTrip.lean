import RoutePlugins.Proofs.Json.Artifacts
import RoutePlugins.Proofs.Store.WholeValues

/-!
# Documents that come back

A value of texts without halves and of distinct names is written to a file as plain ASCII and read
from there as it was, its fields in their order. Its document has no comments: a slash in it stands
in a string, and every quote in a string is escaped. So a reader that takes comments out of a text
changes nothing in it.
-/

namespace RoutePlugins

variable {cs : List Char} {c : Char} {fs gs : Files}

/-! ### Comments -/

namespace Json

/-- Characters that are kept in a zone, and after which the zone is the same. -/
def Uncut (zone : Zone) (cs : List Char) : Prop := ∀ tail : List CodePoint,
  stripFrom zone (cs.map .char ++ tail) = cs.map .char ++ stripFrom zone tail

theorem Uncut.append {zone : Zone} {ds : List Char} (hc : Uncut zone cs) (hd : Uncut zone ds) :
    Uncut zone (cs ++ ds) := by
  intro tail
  rw [List.map_append, List.append_assoc, hc, hd, List.append_assoc]

theorem uncut_nil (zone : Zone) : Uncut zone [] := fun _ => rfl

/-- A run of characters is uncut if each of them is. -/
theorem uncut_of_forall {zone : Zone} (h : ∀ c ∈ cs, Uncut zone [c]) : Uncut zone cs := by
  induction cs with
  | nil => exact uncut_nil zone
  | cons c cs ih => exact (h c (by simp)).append (ih fun d hd => h d (by simp [hd]))

theorem uncut_code (hquote : c ≠ '"') (hslash : c ≠ '/') : Uncut .code [c] := by
  intro tail
  change stripFrom .code (.char c :: tail) = .char c :: stripFrom .code tail
  rw [stripFrom]
  · simp [hquote]
  · simp [hslash]
  · simp [hslash]

theorem uncut_string (hquote : c ≠ '"') (hescape : c ≠ '\\') : Uncut .string [c] := by
  intro tail
  simp [stripFrom, hquote, hescape]

theorem uncut_escape (c : Char) : Uncut .string ['\\', c] := fun _ => rfl

theorem uncut_unitEscape {n : Nat} (h : n < 0x10000) : Uncut .string (unitEscape n) := by
  have hdigit {d : Nat} (hd : d < 16) : Uncut .string [d.digitChar] := by
    have hall : ∀ d : Fin 16, d.val.digitChar ≠ '"' ∧ d.val.digitChar ≠ '\\' := by decide
    obtain ⟨hquote, hescape⟩ := hall ⟨d, hd⟩
    exact uncut_string hquote hescape
  rw [unitEscape, hexPadded_four h]
  refine (uncut_escape 'u').append (uncut_of_forall ?_)
  simp only [List.forall_mem_cons, List.not_mem_nil, false_implies, implies_true, and_true]
  exact ⟨hdigit (by omega), hdigit (by omega), hdigit (by omega), hdigit (by omega)⟩

/-- What writes a code point does not close the string. -/
theorem uncut_writePoint (p : CodePoint) : Uncut .string (writePoint p) := by
  unfold writePoint
  split
  iterate 7 exact uncut_escape _
  · next c hquote hescape _ _ _ _ _ =>
    have hc := valid_toNat c
    dsimp only
    split
    · exact uncut_string (by simpa using hquote) (by simpa using hescape)
    split
    · next hunit => exact uncut_unitEscape hunit
    · exact (uncut_unitEscape (by omega)).append (uncut_unitEscape (by omega))
  · next h => exact uncut_unitEscape (by simp [CodePoint.code]; omega)

/-- A string is left as it is, whatever stands in it. -/
theorem uncut_writeString (t : Text) : Uncut .code (writeString t) := by
  intro tail
  have hinner : Uncut .string (t.points.flatMap writePoint) := by
    induction t.points with
    | nil => exact uncut_nil .string
    | cons p ps ih =>
      rw [List.flatMap_cons]
      exact (uncut_writePoint p).append ih
  have hclose : stripFrom .string (.char '"' :: tail) = .char '"' :: stripFrom .code tail := rfl
  rw [points_writeString, points_writeString, stripFrom]
  · simp [hinner _, hclose]
  · simp
  · simp

/-- A document is left as it is. -/
theorem uncut_writeAt (v : Json) (k : Nat) : Uncut .code (writeAt .lines k v) :=
  Composes.writeAt ⟨Uncut.append, fun h => uncut_of_forall fun c hc =>
    uncut_code (h c hc).notQuote (h c hc).notSlash, uncut_writeString⟩ v k

/-- Nothing in a document is a comment. -/
theorem stripComments_write (v : Json) : stripComments v.write = v.write := by
  have hall := uncut_writeAt v 0 []
  rw [List.append_nil] at hall
  exact congrArg Text.mk (hall.trans (List.append_nil _))

end Json

/-! ### Texts without halves -/

/-- Whether a text is made of characters alone. -/
def Text.isScalar (t : Text) : Bool := t.points.all fun p => !p.isHalf

theorem Text.joined_of_isScalar {t : Text} (h : t.isScalar = true) : t.joined = t := by
  have hchars : ofChars t.chars = t := by
    obtain ⟨points⟩ := t
    refine congrArg Text.mk ?_
    induction points with
    | nil => rfl
    | cons p ps ih =>
      obtain ⟨hp, hps⟩ : (!p.isHalf) = true ∧ Text.isScalar ⟨ps⟩ = true := by
        simpa only [isScalar, List.all_cons, Bool.and_eq_true] using h
      cases p with
      | char c => exact congrArg (.char c :: ·) (ih hps)
      | half n => cases hp
  rw [← hchars]
  exact (settled_ofChars t.chars).joined

namespace Json

mutual

/-- Whether every text and every name in a value is made of characters alone. -/
def isScalar : Json → Bool
  | .str s => s.isScalar
  | .arr items => isScalarItems items
  | .obj fields => isScalarFields fields
  | _ => true

/-- Whether the texts in the items of a list are made of characters alone. -/
def isScalarItems : List Json → Bool
  | [] => true
  | v :: rest => v.isScalar && isScalarItems rest

/-- Whether the names and texts in the fields of an object are made of characters alone. -/
def isScalarFields : List (Text × Json) → Bool
  | [] => true
  | (name, v) :: rest => name.isScalar && v.isScalar && isScalarFields rest

end

mutual

/-- A value of characters and distinct names is read as it was written. -/
theorem whole_of_isScalar : (v : Json) → v.isScalar = true → v.keysDistinct = true → v.Whole
  | .null, _, _ => rfl
  | .bool _, _, _ => rfl
  | .int _, _, _ => rfl
  | .float _, _, _ => rfl
  | .str _, h, _ => congrArg str (Text.joined_of_isScalar h)
  | .arr items, h, hd => whole_arr.mpr (whole_of_isScalarItems items h hd)
  | .obj fields, h, hd => by
    rw [keysDistinct, Bool.and_eq_true, decide_eq_true_eq] at hd
    exact whole_obj_of hd.1 (whole_of_isScalarFields fields h hd.2)

theorem whole_of_isScalarItems : (items : List Json) → isScalarItems items = true →
    keysDistinctItems items = true → ∀ v ∈ items, v.Whole
  | [], _, _ => by simp
  | v :: rest, h, hd => by
    rw [isScalarItems, Bool.and_eq_true] at h
    rw [keysDistinctItems, Bool.and_eq_true] at hd
    exact List.forall_mem_cons.mpr
      ⟨whole_of_isScalar v h.1 hd.1, whole_of_isScalarItems rest h.2 hd.2⟩

theorem whole_of_isScalarFields : (fields : List (Text × Json)) → isScalarFields fields = true →
    keysDistinctFields fields = true → ∀ e ∈ fields, e.1.joined = e.1 ∧ e.2.Whole
  | [], _, _ => by simp
  | (name, v) :: rest, h, hd => by
    rw [isScalarFields, Bool.and_eq_true, Bool.and_eq_true] at h
    rw [keysDistinctFields, Bool.and_eq_true] at hd
    obtain ⟨⟨hname, hv⟩, hrest⟩ := h
    exact List.forall_mem_cons.mpr ⟨⟨Text.joined_of_isScalar hname, whole_of_isScalar v hv hd.1⟩,
      whole_of_isScalarFields rest hrest hd.2⟩

end

theorem code_write (v : Json) : ∀ p ∈ v.write.points, p.code < 0x80 := by
  intro p hp
  obtain ⟨c, hc, rfl⟩ := List.mem_map.mp hp
  exact (plain_writeAt v 0 c hc).1

end Json

theorem Utf8.utf8EncodeChar_of_ascii (h : c.toNat < 0x80) :
    String.utf8EncodeChar c = [c.val.toUInt8] ∧ c.val.toUInt8.toNat = c.toNat := by
  have hval : c.val.toNat = c.toNat := rfl
  refine ⟨String.utf8EncodeChar_eq_singleton (Char.utf8Size_eq_one_iff.mpr ?_), ?_⟩
  · rw [UInt32.le_iff_toNat_le, hval]
    exact Nat.le_of_lt_succ h
  · rw [UInt32.toNat_toUInt8, hval]
    omega

theorem Utf8.ascii_encodeChars (h : ∀ c ∈ cs, c.toNat < 0x80) :
    ∀ b ∈ encodeChars cs, b.toNat < 0x80 := by
  intro b hb
  obtain ⟨c, hc, hb⟩ := List.mem_flatMap.mp hb
  obtain ⟨hencode, hcode⟩ := utf8EncodeChar_of_ascii (h c hc)
  rw [hencode, List.mem_singleton] at hb
  rw [hb, hcode]
  exact h c hc

namespace Files

theorem change_eq_ok {f : Files → Except Fault Files} :
    change f fs = .ok () gs ↔ f fs = .ok gs := by
  constructor
  · intro h
    obtain ⟨_, _, hget, h⟩ := bind_eq_ok.mp h
    cases hget
    obtain ⟨_, _, hlift, h⟩ := bind_eq_ok.mp h
    cases h
    exact (lift_eq_ok.mp hlift).1
  · intro h
    exact bind_eq_ok.mpr ⟨fs, fs, rfl, bind_eq_ok.mpr ⟨gs, fs, lift_eq_ok.mpr ⟨h, rfl⟩, rfl⟩⟩

/-- Where one file can be written, so can any other. -/
theorem writeBytes_of_writeBytes {p : Path} {content : Bytes}
    (h : fs.writeBytes p content = .ok gs) (other : Bytes) :
    ∃ gs, fs.writeBytes p other = .ok gs := by
  unfold writeBytes at h ⊢
  obtain ⟨⟨l, o⟩, hl, hput⟩ := bind_ok_iff.mp h
  refine ⟨fs.put l (.file other), bind_ok_iff.mpr ⟨(l, o), hl, ?_⟩⟩
  split at hput
  · cases hput
  · next hne heq =>
    cases heq
    rcases o with - | - | - | -
    · rfl
    · exact absurd rfl hne
    · rfl
    · rfl

/-- Where one text can be written, any text that has bytes can be. -/
theorem writeText_of_writeText {root p : Path} {text : Text}
    (h : writeText root p text fs = .ok () gs) {other : Text} {b : Bytes}
    (hb : Utf8.encode other = .ok b) : ∃ gs, writeText root p other fs = .ok () gs := by
  unfold writeText at h ⊢
  obtain ⟨_, _, hget, h⟩ := bind_eq_ok.mp h
  obtain ⟨⟨⟩, u, hinside, h⟩ := bind_eq_ok.mp h
  obtain ⟨⟨⟩, u', hdirs, h⟩ := bind_eq_ok.mp h
  have hwritten : ∃ content, change (·.writeBytes p content) u' = .ok () gs := by
    unfold writeEncoded at h
    cases he : Utf8.encode text with
    | ok content => exact ⟨content, by rwa [he] at h⟩
    | error e =>
      rw [he] at h
      obtain ⟨⟨⟩, _, -, h⟩ := bind_eq_ok.mp h
      cases h
  obtain ⟨content, hcontent⟩ := hwritten
  obtain ⟨hs, hwrite⟩ := writeBytes_of_writeBytes (change_eq_ok.mp hcontent) b
  refine ⟨hs, bind_eq_ok.mpr ⟨_, _, hget, bind_eq_ok.mpr ⟨(), u, hinside,
    bind_eq_ok.mpr ⟨(), u', hdirs, ?_⟩⟩⟩⟩
  rw [writeEncoded, hb]
  exact change_eq_ok.mpr hwrite

/-- A value of JSON comes back from the file to which it was written, with its fields in their
order. The file is plain ASCII, and nothing in its text is taken for a comment. -/
theorem written_value_comes_back {fs : Files} (hfs : fs.WellFormed) {root p : Path}
    (hplace : ∃ text gs, writeText root p text fs = .ok () gs) {v : Value} {j : Json}
    (hjson : v.toJson? = some j) (hscalar : j.isScalar = true) (hnames : j.keysDistinct = true)
    (hlimits : Json.Within Json.FewDigits Json.ParsesBack Json.maxDepth j) :
    ∃ gs text b, writeValue root p v fs = .ok () gs ∧
      (gs.readJson p).map Value.ofJson = .ok v ∧
      gs.readText p = .ok text ∧ (∀ q ∈ text.points, q.code < 0x80) ∧
      gs.readBytes p = .ok b ∧ (∀ x ∈ b, x.toNat < 0x80) ∧
      Json.stripComments text = text := by
  obtain ⟨text, gs, hplace⟩ := hplace
  have hv : Value.ofJson j = v := Value.ofJson_of_toJson? v j hjson
  have hdocument : v.document = .ok j := hv ▸ Value.document_ofJson j
  have hencode : Utf8.encode j.write = .ok (Utf8.encodeChars (Json.writeAt .lines 0 j)) :=
    Utf8.encode_ofChars _
  obtain ⟨gs, hgs⟩ := writeText_of_writeText hplace hencode
  have hwrite : writeValue root p v fs = .ok () gs := by
    unfold writeValue
    rw [hdocument]
    exact hgs
  have hholds := holdsDocument_of_writeValue hfs hdocument hwrite
  have hwf := (moves_writeText (P := (· = p)) root rfl j.write).of_ok hgs hfs |>.wellFormed
  have hbytes := hholds.readBytes hwf
  have hlegible : Json.Legible Json.maxDepth j :=
    hlimits.imp (fun _ hn => hn) (fun _ hd => hd.readsBack) (Nat.le_refl _)
  refine ⟨gs, j.write, _, hwrite, ?_, readText_of_readBytes hbytes, j.code_write, hbytes,
    Utf8.ascii_encodeChars fun c hc => (Json.plain_writeAt j 0 c hc).1, j.stripComments_write⟩
  rw [readJson_of_readBytes hbytes hlegible, j.whole_of_isScalar hscalar hnames, ← hv]
  rfl

namespace Sample

/-- A directory. -/
def directory : Files := ⟨[(["proj"], .directory)], ["proj"]⟩

/-- A path of which one directory is missing. -/
def place : Path := ⟨.root, ["proj", "new", "v.json"]⟩

/-- A value of every kind, in which texts look like comments, quotes and line ends. -/
def nested : Json :=
  .obj [("//", .arr [.float (.finite false 6755399441055744 (-52)), .int (-7), .null, .bool true]),
    ("\"\\", .str "/* \r\n */ // \x01\x7fé😀"), ("", .obj [("a", .arr []), ("A", .float .nan)])]

end Sample

open Sample

/-- Such a value comes back. -/
theorem written_value_comes_back_nested :
    ∃ gs text b, writeValue ⟨.root, ["proj"]⟩ place (.ofJson nested) directory = .ok () gs ∧
      (gs.readJson place).map Value.ofJson = .ok (.ofJson nested) ∧
      gs.readText place = .ok text ∧ (∀ q ∈ text.points, q.code < 0x80) ∧
      gs.readBytes place = .ok b ∧ (∀ x ∈ b, x.toNat < 0x80) ∧
      Json.stripComments text = text := by
  have hwritten : observe (fun _ _ => ()) (writeText ⟨.root, ["proj"]⟩ place "" directory) =
      some () := by
    decide +kernel
  obtain ⟨⟨⟩, gs, hgs, -⟩ := ok_of_observe hwritten
  exact written_value_comes_back (by decide) ⟨"", gs, hgs⟩ (Value.toJson?_ofJson nested)
    (by decide) (by decide) (by decide +kernel)

end Files

end RoutePlugins
