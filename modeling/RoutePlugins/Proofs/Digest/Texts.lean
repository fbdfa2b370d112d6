import RoutePlugins.Proofs.Digest.Gate
import RoutePlugins.Proofs.Json.Artifacts

/-!
# Digests read back

A digest is empty or sixty-four hexadecimal digits. So it is read as it was written, and a gate that
has begun its work remembers the digest that it found.
-/

namespace RoutePlugins

variable {project : Project}

/-- Every character of a string is a hexadecimal digit. -/
def IsHex (s : String) : Prop := ∀ c ∈ s.toList, ∃ d : Fin 16, c = d.val.digitChar

namespace Text

theorem ofString_injective : Function.Injective ofString := by
  intro s t h
  have hpoints : s.toList.map CodePoint.char = t.toList.map CodePoint.char := congrArg points h
  exact String.toList_inj.mp (List.map_injective_iff.mpr (fun c d hcd => by injection hcd) hpoints)

theorem hex_toDigits (n : Nat) : ∀ c ∈ Nat.toDigits 16 n, ∃ d : Fin 16, c = d.val.digitChar := by
  induction n using Nat.strongRecOn with
  | ind n ih =>
    intro c hc
    by_cases hn : n < 16
    · rw [Nat.toDigits_of_lt_base hn, List.mem_singleton] at hc
      exact ⟨⟨n, hn⟩, hc⟩
    · rw [Nat.toDigits_of_base_le (by decide) (Nat.not_lt.mp hn), List.mem_append,
        List.mem_singleton] at hc
      obtain hc | hc := hc
      · exact ih (n / 16) (by omega) c hc
      · exact ⟨⟨n % 16, Nat.mod_lt _ (by decide)⟩, hc⟩

theorem hex_hexPadded (width n : Nat) :
    ∀ c ∈ hexPadded width n, ∃ d : Fin 16, c = d.val.digitChar :=
  List.forall_mem_append.mpr ⟨fun _ hc => ⟨0, List.eq_of_mem_replicate hc⟩, hex_toDigits n⟩

theorem length_hexPadded {width n : Nat} (hw : 0 < width) (hn : n < 16 ^ width) :
    (hexPadded width n).length = width := by
  have hlen := Nat.toDigits_length 16 n width hw hn
  rw [hexPadded, List.length_append, List.length_replicate]
  omega

end Text

namespace Sha256

theorem isHex_hexText (message : Bytes) : IsHex (hexText message) := by
  intro c hc
  rw [hexText, String.toList_ofList] at hc
  obtain ⟨w, -, hc⟩ := List.mem_flatMap.mp hc
  exact Text.hex_hexPadded 8 w.toNat c hc

theorem length_hexText (message : Bytes) : (hexText message).toList.length = 64 := by
  have hword (w : UInt32) : (Text.hexPadded 8 w.toNat).length = 8 :=
    Text.length_hexPadded (by decide) w.toNat_lt
  simp [hexText, hword]

end Sha256

namespace Digest

theorem isHex_of_ofDirectory {fs : Files} {dir : Option Path} {current : String}
    (h : ofDirectory Sha256.hexText fs project dir = .ok current) : IsHex current := by
  have hempty : IsHex "" := fun c hc => by simp at hc
  have hgiven (digests : List String) : IsHex (if digests.isEmpty then "" else
      Sha256.hexText (Utf8.encodeChars (digests.flatMap String.toList))) := by
    split
    · exact hempty
    · exact Sha256.isHex_hexText _
  unfold ofDirectory at h
  obtain ⟨target, -, h⟩ := bind_ok_iff.mp h
  obtain ⟨inside, -, h⟩ := bind_ok_iff.mp h
  split at h
  · cases h
  · obtain ⟨isDirectory, -, h⟩ := bind_ok_iff.mp h
    split at h
    · cases h
    · obtain ⟨files, -, h⟩ := bind_ok_iff.mp h
      obtain ⟨digests, -, h⟩ := bind_ok_iff.mp h
      cases h
      exact hgiven digests

end Digest

namespace Gate

open Files

theorem trim_of_isHex {s : String} (h : IsHex s) : Text.trim (s : Text) = s := by
  have hdigit : ∀ d : Fin 16, Text.isBlank (.char d.val.digitChar) = false := by decide
  have hblank : ∀ p ∈ (s : Text).points, ¬ Text.isBlank p = true := by
    intro p hp
    obtain ⟨c, hc, rfl⟩ := List.mem_map.mp hp
    obtain ⟨d, rfl⟩ := h c hc
    simp [hdigit d]
  have hdrop (ps : List CodePoint) (hps : ∀ p ∈ ps, ¬ Text.isBlank p = true) :
      ps.dropWhile Text.isBlank = ps := by
    cases ps with
    | nil => rfl
    | cons p ps => exact List.dropWhile_cons_of_neg (hps p (by simp))
  rw [Text.trim, Text.trimWhile, hdrop _ hblank, hdrop _ (by simpa using hblank),
    List.reverse_reverse]

/-- The digest in its file is the one that is remembered. -/
theorem lastDigest_of_content {fs : Files} {key : Text} {p : Path} {digest : String}
    (hp : digestPath project key = .ok p)
    (hb : fs.readBytes p = .ok (Utf8.encodeChars digest.toList)) (hx : IsHex digest) :
    lastDigest fs project key = .ok (some digest) := by
  have hplain : ∀ c ∈ digest.toList, IsPlainChar c := by
    have hdigit : ∀ d : Fin 16, IsPlainChar d.val.digitChar := by decide
    intro c hc
    obtain ⟨d, rfl⟩ := hx c hc
    exact hdigit d
  have htext : fs.readText p = .ok digest := by
    rw [readText, hb]
    exact textOf_encodeChars hplain
  simp only [lastDigest, hp, isPresent_of_readBytes hb, htext, bind, Except.bind, pure, Except.pure,
    if_true, trim_of_isHex hx]

/-- A gate that has begun its work remembers the digest that it found. -/
theorem Begins.remembers {key : Text} {dir : Option Path} {w w1 : World}
    (h : Begins project key dir w w1) (hw : w.files.WellFormed) :
    ∃ current, Digest.ofDirectory Sha256.hexText w.files project dir = .ok current ∧
      lastDigest w1.files project key = .ok (some (current : Text)) := by
  obtain ⟨current, last, p, hcurrent, -, -, hp, hwrite⟩ := h
  have hwrite := Run.changeFiles_eq_ok hwrite
  have hwf := ((moves_writeText (P := fun q => q = p) _ rfl _).of_ok hwrite hw).wellFormed
  obtain ⟨l, b, hb, hl, hc⟩ := writeText_eq_ok hw hwrite
  have hbytes : b = Utf8.encodeChars current.toList :=
    Except.ok.inj (hb.symm.trans (Utf8.encode_ofChars current.toList))
  have hread := (readBytes_eq_ok hwf).mpr ⟨l, hl, hbytes ▸ hc⟩
  exact ⟨current, hcurrent,
    lastDigest_of_content hp hread (Digest.isHex_of_ofDirectory hcurrent)⟩

end Gate

end RoutePlugins
