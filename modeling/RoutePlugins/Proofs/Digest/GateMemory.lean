import RoutePlugins.Proofs.Digest.Texts
import RoutePlugins.Proofs.Files.Clear

/-!
# What a gate remembers

A gate remembers one digest for each key: the one it found when it last let the work of that key be
done, unless that work failed or the digest was forgotten since. Here this memory is kept beside the
files, and the files are shown to agree with it, whatever is edited, done, forgotten and reset
outside the directory of digests. So the memory decides which work is done.

This holds as long as the data directory is a directory where it is there at all. Work that is
interrupted counts as done. The digests are kept in files named for the keys, so a key must be one
that a file can be named for, and keys that name the same file share their digest.
-/

namespace RoutePlugins.Gate

open Files

variable {gs : Files}

/-! ### Keys and their files -/

/-- The place of the directory that holds the digests. -/
def digestPlace (root : Location) : Location :=
  root ++ [Project.dataDirName, Project.digestDirName]

/-- The name under which the digest of a key is found. -/
def fileName (key : Text) : Text := (key ++ ".txt").asName

/-- Whether a key is a plain visible name. -/
def isKey (key : Text) : Bool := !(key.isEmpty || key.contains '/' || key.startsWith ".")

/-- A key for which the operating system can name a file. -/
structure UsableKey (root : Location) (key : Text) : Prop where
  isKey : isKey key = true
  named : PathName (key ++ ".txt")
  fits : Fits (digestPlace root ++ [key ++ ".txt"])

theorem digestPath_of_not_isKey {key : Text} (h : isKey key = false) (project : Project) :
    digestPath project key = .error (.configuration (.digestKey key)) := by
  rw [isKey, Bool.not_eq_false'] at h
  exact if_pos h

theorem digestPath_of_usable {project : Project} {root : Location}
    (hroot : project.root = absolute root) {key : Text} (h : UsableKey root key) :
    digestPath project key = .ok (absolute (digestPlace root ++ [key ++ ".txt"])) := by
  have hplain : Path.IsPlain ⟨.relative, [key ++ ".txt"]⟩ := by
    intro n hn
    rw [List.mem_singleton.mp hn]
    exact ⟨h.named.nonempty, h.named.notDot, h.named.noSlash⟩
  have hparse : Path.parse (key ++ ".txt") = ⟨.relative, [key ++ ".txt"]⟩ := Path.parse_text hplain
  have hkey := h.isKey
  rw [Gate.isKey, Bool.not_eq_true'] at hkey
  rw [digestPath, if_neg (by simp [hkey]), Path.joinText, hparse]
  simp [Path.join, Path.isAbsolute, digestDir, Project.dataDir, Path.child, hroot, digestPlace,
    absolute]

theorem entryName_digestPlace {root : Location} (h : ∀ n ∈ root, EntryName n) :
    ∀ n ∈ digestPlace root, EntryName n := by
  have hdata : EntryName Project.dataDirName := by decide
  have hdigest : EntryName Project.digestDirName := by decide
  intro n hn
  rw [digestPlace, List.mem_append, List.mem_cons, List.mem_singleton] at hn
  obtain hn | rfl | rfl := hn
  · exact h n hn
  · exact hdata
  · exact hdigest

/-! ### The file of one key -/

/-- There are directories as far as the directory of digests, if anything, and the file of a key has
some content, or there is none. -/
structure Stored (root : Location) (key : Text) (content : Option Bytes) (fs : Files) : Prop where
  wellFormed : fs.WellFormed
  way : fs.Open (digestPlace root)
  entry : fs.entry? (digestPlace root ++ [fileName key]) = content.map .file

section

variable {project : Project} {root : Location} (hroot : project.root = absolute root)
  (hn : ∀ n ∈ root, EntryName n) {key : Text} (hk : UsableKey root key) {content : Option Bytes}

include hn

variable {fs : Files} {digest : String} {w : World}

theorem Stored.clear (h : Stored root key content fs) :
    fs.Clear (digestPlace root ++ [key ++ ".txt"]) := by
  refine h.way.clear_concat (entryName_digestPlace hn) fun t ht => ?_
  rw [← fileName, h.entry] at ht
  obtain ⟨c, -, hc⟩ := Option.map_eq_some_iff.mp ht
  cases hc

include hk

theorem Stored.isPresent (h : Stored root key content fs) :
    fs.isPresent (absolute (digestPlace root ++ [key ++ ".txt"])) = .ok content.isSome := by
  have hplace := entryName_digestPlace hn
  rw [isPresent_straight h.wellFormed (pathName_concat hplace hk.named) (h.clear hn).straight
    hk.fits, placeOf_concat hplace, ← fileName, h.entry, Option.isSome_map]

include hroot

theorem Stored.lastDigest_none (h : Stored root key none fs) :
    lastDigest fs project key = .ok none := by
  simp only [lastDigest, digestPath_of_usable hroot hk, h.isPresent hn hk, bind, Except.bind]
  rfl

theorem Stored.content_eq_none (h : Stored root key content fs)
    (hlast : lastDigest fs project key = .ok none) : content = none := by
  cases content with
  | none => rfl
  | some c =>
    obtain ⟨p, hp, hlast⟩ := bind_ok_iff.mp hlast
    cases hp.symm.trans (digestPath_of_usable hroot hk)
    obtain ⟨present, hpresent, hlast⟩ := bind_ok_iff.mp hlast
    cases hpresent.symm.trans (h.isPresent hn hk)
    obtain ⟨text, -, hlast⟩ := bind_ok_iff.mp hlast
    cases hlast

/-- A digest in its file is read. -/
theorem Stored.lastDigest_some (h : Stored root key (some (Utf8.encodeChars digest.toList)) fs)
    (hx : IsHex digest) : lastDigest fs project key = .ok (some digest) := by
  have hplace := entryName_digestPlace hn
  refine lastDigest_of_content (digestPath_of_usable hroot hk) ?_ hx
  have hstat := stat_of_present h.wellFormed (pathName_concat hplace hk.named)
    (h.clear hn).straight hk.fits (by rw [placeOf_concat hplace, ← fileName, h.entry]; rfl)
  rw [readBytes, hstat]
  rfl

/-- A digest is written, and nothing changes but its file and the directories above it. -/
theorem Stored.writes (h : Stored root key content fs) (digest : String) :
    ∃ gs, Files.writeText project.root (absolute (digestPlace root ++ [key ++ ".txt"])) digest fs =
        .ok () gs ∧
      Stored root key (some (Utf8.encodeChars digest.toList)) gs ∧
      gs.workingDirectory = fs.workingDirectory ∧
      ∀ l, ¬ l <+: digestPlace root → l ≠ digestPlace root ++ [fileName key] →
        gs.entry? l = fs.entry? l := by
  have hplace := entryName_digestPlace hn
  have hbelow : root <+: digestPlace root := List.prefix_append _ _
  have hfile (e : Entry) (he : fs.entry? (digestPlace root ++ [fileName key]) = some e) :
      ∃ c, e = .file c := by
    rw [h.entry] at he
    obtain ⟨c, -, rfl⟩ := Option.map_eq_some_iff.mp he
    exact ⟨c, rfl⟩
  obtain ⟨gs, hgs, hwf, hworking, hentry⟩ := writeText_open hplace hk.named hk.fits h.wellFormed
    h.way hfile hbelow (Utf8.encode_ofChars digest.toList)
  rw [← fileName] at hentry
  refine ⟨gs, hroot ▸ hgs, ⟨hwf, fun l hl => ?_, ?_⟩, hworking, fun l hl hne => ?_⟩
  · rw [hentry, if_neg, if_pos hl]
    · rfl
    · rintro rfl
      exact not_prefix_of_concat (digestPlace root) _ hl
  · rw [hentry, if_pos rfl]
    rfl
  · rw [hentry, if_neg hne, if_neg hl]

/-- Where there was no digest, one that is written and then removed is written as before. -/
theorem Stored.writes_again (h : Stored root key none fs)
    (hgs : Files.writeText project.root (absolute (digestPlace root ++ [key ++ ".txt"])) digest fs =
      .ok () gs) :
    Files.writeText project.root (absolute (digestPlace root ++ [key ++ ".txt"])) digest
      (gs.without (digestPlace root ++ [fileName key])) = .ok () gs := by
  have hplace := entryName_digestPlace hn
  have hnone : fs.entry? (placeOf (digestPlace root ++ [key ++ ".txt"])) = none := by
    rw [placeOf_concat hplace, ← fileName, h.entry]
    rfl
  have hway : fs.Open (placeOf (digestPlace root)) := (placeOf_of_own hplace).symm ▸ h.way
  obtain ⟨ks, hks, hagain⟩ := writeText_of_removed (pathName_concat hplace hk.named) hk.fits
    h.wellFormed hway (fun e he => by cases hnone.symm.trans he)
    (List.prefix_append root [Project.dataDirName, Project.digestDirName])
    (Utf8.encode_ofChars digest.toList) hnone
  rw [placeOf_concat hplace, ← fileName] at hagain
  rw [hroot] at hgs ⊢
  cases hks.symm.trans hgs
  exact hagain

theorem Stored.forgets_none (h : Stored root key none w.files) :
    forget project key w = .ok () w := by
  unfold forget
  rw [digestPath_of_usable hroot hk, bind_of_ok (Run.lift_ok _ w),
    bind_of_ok (Run.onFiles_of_ok (h.isPresent hn hk))]
  rfl

/-- A digest is forgotten by removing its file. -/
theorem Stored.forgets_some {c : Bytes} (h : Stored root key (some c) w.files) :
    forget project key w =
        .ok () { w with files := w.files.without (digestPlace root ++ [fileName key]) } ∧
      Stored root key none (w.files.without (digestPlace root ++ [fileName key])) := by
  have hentry := @entry_without w.files (digestPlace root ++ [fileName key]) (by simp)
  have hremove := removeFile_open (entryName_digestPlace hn) hk.named hk.fits h.wellFormed h.way
    h.entry
  rw [← fileName] at hremove
  constructor
  · unfold forget
    rw [digestPath_of_usable hroot hk, bind_of_ok (Run.lift_ok _ w),
      bind_of_ok (Run.onFiles_of_ok (h.isPresent hn hk))]
    exact Run.changeFiles_of_ok (change_of_ok hremove)
  · refine ⟨wellFormed_without h.wellFormed h.entry, fun l hl => ?_, ?_⟩
    · have hl' := h.way l hl
      rw [hentry]
      split
      · rfl
      · exact hl'
    · rw [hentry, if_pos rfl]
      rfl

end

/-! ### Memories -/

/-- The digests that are remembered, each by the name of its file. -/
abbrev Memory := Text → Option String

/-- Nothing is remembered. -/
def Memory.none : Memory := fun _ => .none

/-- Remember or forget the digest of a key. -/
def Memory.set (m : Memory) (key : Text) (digest : Option String) : Memory := fun name =>
  if name = fileName key then digest else m name

@[simp] theorem Memory.set_self (m : Memory) (key : Text) (digest : Option String) :
    m.set key digest (fileName key) = digest := if_pos rfl

variable {key : Text} {m : Memory} {root : Location} {fs : Files}

theorem Memory.set_other (m : Memory) {name : Text} (h : name ≠ fileName key)
    (digest : Option String) : m.set key digest name = m name := if_neg h

@[simp] theorem Memory.set_set (m : Memory) (key : Text) (first second : Option String) :
    (m.set key first).set key second = m.set key second := by
  funext name
  unfold Memory.set
  split
  · rfl
  · rfl

theorem Memory.set_eq_self {digest : Option String} (h : m (fileName key) = digest) :
    m.set key digest = m := by
  funext name
  unfold Memory.set
  split
  · next hname => rw [hname, h]
  · rfl

/-- The directory of digests holds what is remembered and nothing else. -/
structure Keeps (root : Location) (m : Memory) (fs : Files) : Prop where
  wellFormed : fs.WellFormed
  way : fs.Open (digestPlace root)
  elsewhere : ¬ digestPlace root <+: fs.workingDirectory
  digest : ∀ name, fs.entry? (digestPlace root ++ [name]) =
    (m name).map fun d => .file (Utf8.encodeChars d.toList)
  hex : ∀ name d, m name = some d → IsHex d

/-- A change leaves the directory of digests alone, and the data directory a directory, if there is
one. -/
structure Spares (root : Location) (fs gs : Files) : Prop where
  wellFormed : gs.WellFormed
  way : gs.Open (root ++ [Project.dataDirName])
  elsewhere : ¬ digestPlace root <+: gs.workingDirectory
  same : ∀ l, digestPlace root <+: l → gs.entry? l = fs.entry? l

theorem digestPlace_eq (root : Location) :
    digestPlace root = root ++ [Project.dataDirName] ++ [Project.digestDirName] := by
  simp [digestPlace]

theorem open_digestPlace (hway : fs.Open (root ++ [Project.dataDirName]))
    (hd : (fs.entry? (digestPlace root)).all Entry.isDirectory = true) :
    fs.Open (digestPlace root) := by
  intro l hl
  rw [digestPlace_eq, List.prefix_concat_iff, ← digestPlace_eq] at hl
  obtain rfl | hl := hl
  · exact hd
  · exact hway l hl

/-- At first nothing is remembered. -/
theorem keeps_none (hwf : fs.WellFormed) (hway : fs.Open (root ++ [Project.dataDirName]))
    (hnone : fs.entry? (digestPlace root) = none) : Keeps root .none fs := by
  have hbelow {l : Location} {e : Entry} (hl : digestPlace root <+: l) :
      fs.entry? l ≠ some e := by
    intro he
    by_cases heq : digestPlace root = l
    · rw [← heq, hnone] at he
      cases he
    · rw [hwf.above he hl heq] at hnone
      cases hnone
  refine ⟨hwf, open_digestPlace hway (by rw [hnone]; rfl), fun hin => hbelow hin hwf.working,
    fun name => ?_, nofun⟩
  cases he : fs.entry? (digestPlace root ++ [name]) with
  | none => rfl
  | some e => exact absurd he (hbelow (List.prefix_append _ _))

theorem Keeps.spared (h : Keeps root m fs) (hs : Spares root fs gs) : Keeps root m gs := by
  refine ⟨hs.wellFormed, open_digestPlace hs.way ?_, hs.elsewhere, fun name => ?_, h.hex⟩
  · rw [hs.same _ (List.prefix_refl _)]
    exact h.way _ (List.prefix_refl _)
  · rw [hs.same _ (List.prefix_append _ _)]
    exact h.digest name

theorem Keeps.spares_self (h : Keeps root m fs) : Spares root fs fs :=
  ⟨h.wellFormed, h.way.front (digestPlace_eq root ▸ List.prefix_append _ _), h.elsewhere,
    fun _ _ => rfl⟩

theorem Keeps.stored (h : Keeps root m fs) (key : Text) :
    Stored root key ((m (fileName key)).map fun d => Utf8.encodeChars d.toList) fs := by
  refine ⟨h.wellFormed, h.way, ?_⟩
  rw [h.digest, Option.map_map]
  rfl

/-- What becomes of the memory when only the file of one key changes. -/
theorem Keeps.set (h : Keeps root m fs) {digest : Option String} (hwf : gs.WellFormed)
    (hway : gs.Open (digestPlace root)) (hworking : gs.workingDirectory = fs.workingDirectory)
    (hkey : gs.entry? (digestPlace root ++ [fileName key]) =
      digest.map fun d => .file (Utf8.encodeChars d.toList))
    (hothers : ∀ name, name ≠ fileName key →
      gs.entry? (digestPlace root ++ [name]) = fs.entry? (digestPlace root ++ [name]))
    (hx : ∀ d, digest = some d → IsHex d) : Keeps root (m.set key digest) gs := by
  refine ⟨hwf, hway, hworking ▸ h.elsewhere, fun name => ?_, fun name d hd => ?_⟩
  · by_cases hname : name = fileName key
    · rw [hname, Memory.set_self, hkey]
    · rw [Memory.set_other m hname, hothers name hname, h.digest]
  · by_cases hname : name = fileName key
    · rw [hname, Memory.set_self] at hd
      exact hx d hd
    · rw [Memory.set_other m hname] at hd
      exact h.hex name d hd

/-! ### What the gate does to the files -/

section

variable {project : Project} {root : Location} (hroot : project.root = absolute root)
  (hn : ∀ n ∈ root, EntryName n) {m : Memory} {fs : Files} (h : Keeps root m fs)

include hroot hn h

/-- The gate reads what is remembered. -/
theorem Keeps.lastDigest {key : Text} (hk : UsableKey root key) :
    lastDigest fs project key = .ok ((m (fileName key)).map Text.ofString) := by
  have hstored := h.stored key
  cases hm : m (fileName key) with
  | none =>
    rw [hm] at hstored
    exact hstored.lastDigest_none hroot hn hk
  | some d =>
    rw [hm] at hstored
    exact hstored.lastDigest_some hroot hn hk (h.hex _ d hm)

/-- The gate writes a digest, and changes nothing but its file and the directories above it. -/
theorem Keeps.writes {key : Text} (hk : UsableKey root key) {digest : String} (hx : IsHex digest) :
    ∃ gs, Files.writeText project.root (absolute (digestPlace root ++ [key ++ ".txt"])) digest fs =
        .ok () gs ∧
      Keeps root (m.set key digest) gs ∧
      ∀ l, ¬ l <+: digestPlace root → l ≠ digestPlace root ++ [fileName key] →
        gs.entry? l = fs.entry? l := by
  obtain ⟨gs, hgs, hstored, hworking, hsame⟩ := (h.stored key).writes hroot hn hk digest
  refine ⟨gs, hgs, h.set hstored.wellFormed hstored.way hworking hstored.entry
    (fun name hname => ?_) ?_, hsame⟩
  · exact hsame _ (not_prefix_of_concat (digestPlace root) name) (by simpa using hname)
  · rintro d ⟨⟩
    exact hx

end

section

variable {project : Project} {root : Location} (hroot : project.root = absolute root)
  (hn : ∀ n ∈ root, EntryName n) {m : Memory} {w : World} (h : Keeps root m w.files)

include hroot hn h

variable {key : Text} {dir : Option Path} {current : String}

/-- The gate forgets a digest, and changes nothing but its file. -/
theorem Keeps.forgets (hk : UsableKey root key) :
    ∃ w', forget project key w = .ok () w' ∧ Keeps root (m.set key none) w'.files ∧
      ∀ l, l ≠ digestPlace root ++ [fileName key] → w'.files.entry? l = w.files.entry? l := by
  have hstored := h.stored key
  cases hm : m (fileName key) with
  | none =>
    rw [hm] at hstored
    rw [Memory.set_eq_self hm]
    exact ⟨w, hstored.forgets_none hroot hn hk, h, fun _ _ => rfl⟩
  | some d =>
    rw [hm] at hstored
    obtain ⟨hforget, hgone⟩ := hstored.forgets_some hroot hn hk
    have hentry := @entry_without w.files (digestPlace root ++ [fileName key]) (by simp)
    refine ⟨_, hforget,
      h.set hgone.wellFormed hgone.way rfl hgone.entry (fun name hname => ?_) nofun,
      fun l hl => by rw [hentry, if_neg hl]⟩
    rw [hentry, if_neg (by simpa using hname)]

/-- The gate forgets all digests. -/
theorem Keeps.resets (hf : Fits (digestPlace root)) :
    ∃ w', reset project w = .ok () w' ∧ Keeps root .none w'.files := by
  have hplace := entryName_digestPlace hn
  have hdir : digestDir project = absolute (digestPlace root) := by
    simp [digestDir, Project.dataDir, hroot, digestPlace, absolute, Path.child]
  have hway : w.files.Open (placeOf (digestPlace root)) := (placeOf_of_own hplace).symm ▸ h.way
  have hpresent := isPresent_straight h.wellFormed (fun n hm => (hplace n hm).toPathName)
    hway.clear.straight hf
  rw [placeOf_of_own hplace] at hpresent
  unfold reset
  rw [hdir, bind_of_ok (Run.onFiles_of_ok hpresent)]
  obtain hnone | hd := all_isDirectory_iff.mp (h.way _ (List.prefix_refl _))
  · rw [hnone]
    exact ⟨w, rfl, keeps_none h.wellFormed h.spares_self.way hnone⟩
  · rw [hd]
    have hne : digestPlace root ≠ [] := by simp [digestPlace]
    have hentry := @entry_withoutTree w.files (digestPlace root) hne
    have hremove := removeTree_open hplace hf h.wellFormed h.way hd
    refine ⟨_, Run.changeFiles_of_ok (change_of_ok hremove), ?_⟩
    refine keeps_none (wellFormed_withoutTree h.wellFormed hne h.elsewhere) (fun l hl => ?_) ?_
    · have hl' := h.way l (hl.trans (digestPlace_eq root ▸ List.prefix_append _ _))
      rw [hentry]
      split
      · rfl
      · exact hl'
    · rw [hentry, if_pos (List.prefix_refl _)]

/-- Where another digest is remembered, or none, the gate begins the work. It remembers the digest
then, and changes nothing else. -/
theorem Keeps.begins (hk : UsableKey root key)
    (hc : Digest.ofDirectory Sha256.hexText w.files project dir = .ok current)
    (hm : m (fileName key) ≠ some current) :
    ∃ w1, Begins project key dir w w1 ∧ Keeps root (m.set key current) w1.files ∧
      ∀ l, ¬ l <+: digestPlace root → l ≠ digestPlace root ++ [fileName key] →
        w1.files.entry? l = w.files.entry? l := by
  obtain ⟨gs, hgs, hkeeps, hsame⟩ := h.writes hroot hn hk (Digest.isHex_of_ofDirectory hc)
  refine ⟨{ w with files := gs }, ?_, hkeeps, hsame⟩
  refine ⟨current, _, _, hc, h.lastDigest hroot hn hk, ?_, digestPath_of_usable hroot hk,
    Run.changeFiles_of_ok hgs⟩
  intro hsome
  obtain ⟨d, hd, hcurrent⟩ := Option.map_eq_some_iff.mp hsome
  exact hm (hd.trans (congrArg some (Text.ofString_injective hcurrent)))

omit hroot hn h in
theorem runIfChanged_of_error {α : Type} (work : Run α) {e : Fault}
    (hc : Digest.ofDirectory Sha256.hexText w.files project dir = .error e) :
    runIfChanged project key work dir w = .error e w := by
  unfold runIfChanged
  exact bind_of_error (Run.onFiles_of_error hc)

omit hroot hn h in
theorem runIfChanged_of_not_isKey {α : Type} (work : Run α) (hk : isKey key = false)
    (hc : Digest.ofDirectory Sha256.hexText w.files project dir = .ok current) :
    runIfChanged project key work dir w = .error (.configuration (.digestKey key)) w := by
  have hlast : lastDigest w.files project key = .error (.configuration (.digestKey key)) := by
    rw [lastDigest, digestPath_of_not_isKey hk]
    rfl
  unfold runIfChanged
  rw [bind_of_ok (Run.onFiles_of_ok hc)]
  exact bind_of_error (Run.onFiles_of_error hlast)

omit hroot hn h in
/-- No work is done where its digest cannot be written. -/
theorem runIfChanged_of_not_written {α : Type} (work : Run α) {p : Path} {e : Fault} {w' : World}
    (hc : Digest.ofDirectory Sha256.hexText w.files project dir = .ok current)
    (hlast : Gate.lastDigest w.files project key = .ok none) (hp : digestPath project key = .ok p)
    (hwrite : Run.changeFiles (Files.writeText project.root p current) w = .error e w') :
    runIfChanged project key work dir w = .error e w' := by
  unfold runIfChanged
  rw [bind_of_ok (Run.onFiles_of_ok hc), bind_of_ok (Run.onFiles_of_ok hlast),
    if_neg (by simp), hp, bind_of_ok (Run.lift_ok p w)]
  exact bind_of_error hwrite

theorem Keeps.skips (hk : UsableKey root key)
    (hc : Digest.ofDirectory Sha256.hexText w.files project dir = .ok current)
    (hm : m (fileName key) = some current) {α : Type} (work : Run α) :
    runIfChanged project key work dir w = .ok none w := by
  have hlast := h.lastDigest hroot hn hk
  rw [hm] at hlast
  unfold runIfChanged
  rw [bind_of_ok (Run.onFiles_of_ok hc), bind_of_ok (Run.onFiles_of_ok hlast), if_pos (by simp)]
  rfl

end

end RoutePlugins.Gate
